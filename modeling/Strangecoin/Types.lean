import Strangecoin.FiniteMap
import Strangecoin.Bytes

/-! # Accounts, transactions and blocks

The data model of the chain.  An account that carries no information is **empty**
(`Account.isEmpty`): an externally owned account with neither balance nor nonce, or a
contract record of all zeros.  Every read defaults a missing account to the empty externally
owned one, so a state and its pruning differ in nothing a reader can see.
-/
namespace Strangecoin

/-- `str::as_bytes`. -/
def asBytes (s : String) : List UInt8 := s.toByteArray.data.toList

theorem asBytes_injective : Function.Injective asBytes := by
  intro s t h
  have hdata : s.toByteArray.data = t.toByteArray.data := Array.toList_inj.mp h
  exact String.toByteArray_inj.mp (ByteArray.ext hdata)

/-! ### Accounts -/

structure EoaAccount where
  balance : UInt64
  nonce : UInt64
deriving DecidableEq, Repr

structure ContractAccount where
  codeHash : Digest
  storageRoot : Digest
  nonce : UInt64
  balance : UInt64
deriving DecidableEq, Repr

inductive Account where
  | eoa (account : EoaAccount)
  | contract (account : ContractAccount)
deriving DecidableEq, Repr

namespace Account

/-- `Account::default`. -/
def default : Account := eoa ⟨0, 0⟩

def balance : Account → UInt64
  | eoa account => account.balance
  | contract account => account.balance

def nonce : Account → UInt64
  | eoa account => account.nonce
  | contract account => account.nonce

def setBalance (account : Account) (balance : UInt64) : Account :=
  match account with
  | eoa account => eoa { account with balance := balance }
  | contract account => contract { account with balance := balance }

def setNonce (account : Account) (nonce : UInt64) : Account :=
  match account with
  | eoa account => eoa { account with nonce := nonce }
  | contract account => contract { account with nonce := nonce }

def isContract : Account → Bool
  | contract _ => true
  | eoa _ => false

/-- An account that may be absent from the state. -/
def isEmpty : Account → Bool
  | eoa account => account.balance == 0 && account.nonce == 0
  | contract account =>
    account.balance == 0 && account.nonce == 0 && account.codeHash == zeroDigest &&
      account.storageRoot == zeroDigest

@[simp] theorem balance_setBalance (a : Account) (b : UInt64) : (a.setBalance b).balance = b := by
  cases a <;> rfl

@[simp] theorem balance_setNonce (a : Account) (n : UInt64) :
    (a.setNonce n).balance = a.balance := by
  cases a <;> rfl

@[simp] theorem nonce_setNonce (a : Account) (n : UInt64) : (a.setNonce n).nonce = n := by
  cases a <;> rfl

@[simp] theorem nonce_setBalance (a : Account) (b : UInt64) :
    (a.setBalance b).nonce = a.nonce := by
  cases a <;> rfl

@[simp] theorem isEmpty_default : default.isEmpty = true := rfl
@[simp] theorem balance_default : default.balance = 0 := rfl
@[simp] theorem nonce_default : default.nonce = 0 := rfl

theorem balance_of_isEmpty {a : Account} (h : a.isEmpty = true) : a.balance = 0 := by
  cases a <;> simp_all [isEmpty, balance]

theorem nonce_of_isEmpty {a : Account} (h : a.isEmpty = true) : a.nonce = 0 := by
  cases a <;> simp_all [isEmpty, nonce]

/-- The only empty account that is not a contract is the default one. -/
theorem eq_default_of_isEmpty {a : Account} (h : a.isEmpty = true) (hc : a.isContract = false) :
    a = default := by
  cases a with
  | eoa a =>
    cases a
    simp_all [isEmpty, default]
  | contract a => simp [isContract] at hc

end Account

/-! ### Transactions -/

/-- The ABI types of constructor arguments. -/
inductive AbiType where
  | uint (bits : UInt16)
  | int (bits : UInt16)
  | bool
  | address
  | bytes
  | string
  | array (elem : AbiType)
  | fixedArray (elem : AbiType) (len : Nat)
  | tuple (elems : List AbiType)

structure AbiParam where
  name : String
  paramType : AbiType

structure TransferTx where
  sender : String
  receiver : String
  amount : UInt64
  fee : UInt64
  nonce : UInt64
  chainId : UInt32
  signature : List UInt8
  isCoinbase : Bool

structure CreateTx where
  sender : String
  initCode : List UInt8
  initArgs : List UInt8
  constructorParams : List AbiParam
  endowment : UInt64
  gasLimit : UInt64
  fee : UInt64
  nonce : UInt64
  chainId : UInt32
  signature : List UInt8

structure CallTx where
  sender : String
  receiver : String
  data : List UInt8
  value : UInt64
  gasLimit : UInt64
  fee : UInt64
  nonce : UInt64
  chainId : UInt32
  signature : List UInt8

inductive Transaction where
  | transfer (tx : TransferTx)
  | create (tx : CreateTx)
  | call (tx : CallTx)

namespace Transaction

def sender : Transaction → String
  | transfer tx => tx.sender
  | create tx => tx.sender
  | call tx => tx.sender

/-- The receiver of the funds; a creation has none, its address is derived. -/
def receiver : Transaction → Option String
  | transfer tx => some tx.receiver
  | create _ => none
  | call tx => some tx.receiver

/-- The amount of native coin moved. -/
def value : Transaction → UInt64
  | transfer tx => tx.amount
  | create tx => tx.endowment
  | call tx => tx.value

def fee : Transaction → UInt64
  | transfer tx => tx.fee
  | create tx => tx.fee
  | call tx => tx.fee

def nonce : Transaction → UInt64
  | transfer tx => tx.nonce
  | create tx => tx.nonce
  | call tx => tx.nonce

def chainId : Transaction → UInt32
  | transfer tx => tx.chainId
  | create tx => tx.chainId
  | call tx => tx.chainId

def signature : Transaction → List UInt8
  | transfer tx => tx.signature
  | create tx => tx.signature
  | call tx => tx.signature

def isCoinbase : Transaction → Bool
  | transfer tx => tx.isCoinbase
  | create _ => false
  | call _ => false

end Transaction

/-! ### Blocks -/

structure BlockHeader where
  index : UInt64
  timestamp : UInt64
  previousHash : String
  hash : String
  nonce : UInt64
  target : String
  consensusVersion : UInt32
  stateRoot : Digest
  txRoot : Digest
  receiptsRoot : Digest

structure Block where
  index : UInt64
  timestamp : UInt64
  transactions : List Transaction
  previousHash : String
  hash : String
  nonce : UInt64
  target : String
  consensusVersion : UInt32
  stateRoot : Digest
  txRoot : Digest
  receiptsRoot : Digest

/-- The header half of a block. -/
def Block.header (block : Block) : BlockHeader where
  index := block.index
  timestamp := block.timestamp
  previousHash := block.previousHash
  hash := block.hash
  nonce := block.nonce
  target := block.target
  consensusVersion := block.consensusVersion
  stateRoot := block.stateRoot
  txRoot := block.txRoot
  receiptsRoot := block.receiptsRoot

end Strangecoin
