import Strangecoin.SparseMerkle

/-! # The chain state

Account balances, contract storage, the receipts of the last block and the undo
records of rollback.  Every write to the accounts goes through `set_balance`,
`set_nonce` or `set_account`, and each of them removes the entry when the account
written is empty.

Two states are the **same** (`State.Same`, the source's `PartialEq`) when their
accounts and their contract storage are; receipts and undo records are derived
data.
-/
namespace Strangecoin

/-- Pre-image of one storage slot: contract, slot key, value before the write. -/
abbrev StorageUndoEntry := String × Digest × Option (List UInt8)

structure State where
  balances : HashMap String Account
  contractStorage : ContractStorageMap
  receipts : List Receipt
  storageUndo : HashMap Digest (List StorageUndoEntry)
  valueTransfersUndo : HashMap Digest (List ValueTransfer)

namespace State

/-- `State::new`. -/
def new : State := ⟨∅, ∅, [], ∅, ∅⟩

/-- The source's equality of states. -/
def Same (s t : State) : Prop :=
  s.balances = t.balances ∧ s.contractStorage = t.contractStorage

/-- The account at an address; every read defaults a missing one. -/
def account (s : State) (addr : String) : Account := s.balances[addr]?.getD Account.default

def getAccount (s : State) (addr : String) : Option Account := s.balances[addr]?

def getBalance (s : State) (addr : String) : UInt64 :=
  (s.balances[addr]?.map Account.balance).getD 0

def getNonce (s : State) (addr : String) : UInt64 :=
  (s.balances[addr]?.map Account.nonce).getD 0

/-- Whether the address holds a contract: `is_some_and(is_contract)`. -/
def isContractAt (s : State) (addr : String) : Bool := s.balances[addr]?.any Account.isContract

/-- The sum of all balances as the source computes it, modulo `2 ^ 64`. -/
def totalSupply (s : State) : UInt64 := (s.balances.toList.map (fun e => e.2.balance)).sum

/-- Remove the entry of an address if its account is empty. -/
def pruneIfEmpty (s : State) (addr : String) : State :=
  if s.balances[addr]?.any Account.isEmpty then { s with balances := s.balances.erase addr } else s

def setBalance (s : State) (addr : String) (balance : UInt64) : State :=
  pruneIfEmpty
    { s with balances := s.balances.insert addr ((s.account addr).setBalance balance) } addr

def setNonce (s : State) (addr : String) (nonce : UInt64) : State :=
  pruneIfEmpty { s with balances := s.balances.insert addr ((s.account addr).setNonce nonce) } addr

def setAccount (s : State) (addr : String) (account : Account) : State :=
  if account.isEmpty then { s with balances := s.balances.erase addr }
  else { s with balances := s.balances.insert addr account }

/-! ### Every write is one `setAccount` -/

theorem pruneIfEmpty_insert (s : State) (addr : String) (account : Account) :
    pruneIfEmpty { s with balances := s.balances.insert addr account } addr =
      s.setAccount addr account := by
  unfold pruneIfEmpty setAccount
  simp only [HashMap.get?_insert, if_true, Option.any_some]
  split
  · have herase : (s.balances.insert addr account).erase addr = s.balances.erase addr := by
      apply HashMap.ext_get?
      intro a
      by_cases h : a = addr <;> simp [h]
    rw [herase]
  · rfl

theorem setBalance_eq (s : State) (addr : String) (b : UInt64) :
    s.setBalance addr b = s.setAccount addr ((s.account addr).setBalance b) :=
  pruneIfEmpty_insert s addr _

theorem setNonce_eq (s : State) (addr : String) (n : UInt64) :
    s.setNonce addr n = s.setAccount addr ((s.account addr).setNonce n) :=
  pruneIfEmpty_insert s addr _

section
variable (s : State) (addr a : String) (account : Account)

theorem get?_setAccount :
    (s.setAccount addr account).balances[a]? =
      if a = addr then (if account.isEmpty then none else some account) else s.balances[a]? := by
  unfold setAccount
  cases account.isEmpty <;> simp

@[simp] theorem contractStorage_setAccount :
    (s.setAccount addr account).contractStorage = s.contractStorage := by
  unfold setAccount
  split <;> rfl

@[simp] theorem receipts_setAccount : (s.setAccount addr account).receipts = s.receipts := by
  unfold setAccount
  split <;> rfl

@[simp] theorem storageUndo_setAccount :
    (s.setAccount addr account).storageUndo = s.storageUndo := by
  unfold setAccount
  split <;> rfl

@[simp] theorem valueTransfersUndo_setAccount :
    (s.setAccount addr account).valueTransfersUndo = s.valueTransfersUndo := by
  unfold setAccount
  split <;> rfl

end

/-! ### Reads -/

section
variable (s : State) (a addr : String)

theorem getBalance_eq : s.getBalance a = (s.account a).balance := by
  unfold getBalance account
  cases s.balances[a]? <;> rfl

theorem getNonce_eq : s.getNonce a = (s.account a).nonce := by
  unfold getNonce account
  cases s.balances[a]? <;> rfl

theorem isContractAt_eq : s.isContractAt a = (s.account a).isContract := by
  unfold isContractAt account
  cases s.balances[a]? <;> rfl

/-- The account read back: an empty one is gone. -/
theorem account_setAccount (account : Account) :
    (s.setAccount addr account).account a =
      if a = addr then (if account.isEmpty then Account.default else account)
      else s.account a := by
  unfold State.account
  rw [get?_setAccount]
  by_cases h : a = addr
  · cases account.isEmpty <;> simp [h]
  · simp [h]

@[simp] theorem getBalance_setAccount (account : Account) :
    (s.setAccount addr account).getBalance a =
      if a = addr then account.balance else s.getBalance a := by
  rw [getBalance_eq, account_setAccount, getBalance_eq]
  by_cases h : a = addr
  · cases he : account.isEmpty with
    | true => simp [h, Account.balance_of_isEmpty he]
    | false => simp [h]
  · simp [h]

@[simp] theorem getNonce_setAccount (account : Account) :
    (s.setAccount addr account).getNonce a =
      if a = addr then account.nonce else s.getNonce a := by
  rw [getNonce_eq, account_setAccount, getNonce_eq]
  by_cases h : a = addr
  · cases he : account.isEmpty with
    | true => simp [h, Account.nonce_of_isEmpty he]
    | false => simp [h]
  · simp [h]

@[simp] theorem getNonce_setBalance (b : UInt64) :
    (s.setBalance addr b).getNonce a = s.getNonce a := by
  rw [setBalance_eq, getNonce_setAccount, Account.nonce_setBalance, ← getNonce_eq]
  split <;> simp_all

@[simp] theorem getBalance_setNonce (n : UInt64) :
    (s.setNonce addr n).getBalance a = s.getBalance a := by
  rw [setNonce_eq, getBalance_setAccount, Account.balance_setNonce, ← getBalance_eq]
  split <;> simp_all

@[simp] theorem getNonce_setNonce (n : UInt64) :
    (s.setNonce addr n).getNonce a = if a = addr then n else s.getNonce a := by
  simp [setNonce_eq]

end

/-! ### The supply -/

/-- The sum of all balances, unbounded. -/
def exactSupply (s : State) : Nat := HashMap.weight (fun a => a.balance.toNat) s.balances

theorem weightAt_balance (s : State) (addr : String) :
    HashMap.weightAt (fun a => a.balance.toNat) s.balances addr = (s.getBalance addr).toNat := by
  unfold HashMap.weightAt getBalance
  cases s.balances[addr]? <;> rfl

theorem exactSupply_setAccount (s : State) (addr : String) (account : Account) :
    (s.setAccount addr account).exactSupply + (s.getBalance addr).toNat =
      s.exactSupply + account.balance.toNat := by
  unfold exactSupply setAccount
  rw [← weightAt_balance]
  cases he : account.isEmpty with
  | true =>
    rw [Account.balance_of_isEmpty he]
    simpa using HashMap.weight_erase (fun a : Account => a.balance.toNat) s.balances addr
  | false =>
    simpa using HashMap.weight_insert (fun a : Account => a.balance.toNat) s.balances addr account

theorem exactSupply_setBalance (s : State) (addr : String) (b : UInt64) :
    (s.setBalance addr b).exactSupply + (s.getBalance addr).toNat = s.exactSupply + b.toNat := by
  rw [setBalance_eq, exactSupply_setAccount, Account.balance_setBalance]

@[simp] theorem exactSupply_setNonce (s : State) (addr : String) (n : UInt64) :
    (s.setNonce addr n).exactSupply = s.exactSupply := by
  have h := exactSupply_setAccount s addr ((s.account addr).setNonce n)
  rw [← setNonce_eq, Account.balance_setNonce, ← getBalance_eq] at h
  omega

/-- The source's sum is the exact one modulo `2 ^ 64`. -/
theorem totalSupply_toNat (s : State) : s.totalSupply.toNat = s.exactSupply % 2 ^ 64 := by
  unfold totalSupply exactSupply HashMap.weight
  induction s.balances.toList with
  | nil => rfl
  | cons e rest ih =>
    rw [List.map_cons, List.map_cons, List.sum_cons, List.sum_cons, UInt64.toNat_add, ih,
      Nat.add_mod_mod]

end State

end Strangecoin
