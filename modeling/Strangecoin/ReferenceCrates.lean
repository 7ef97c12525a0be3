import Strangecoin.Serialize
import Strangecoin.Blake3
import Strangecoin.Bech32
import Strangecoin.Secp256k1

/-! # The real hash, address codec and signatures

The instance of `Crates` at which concrete runs are evaluated, with the blocks and
the executor such runs are built from.
-/
namespace Strangecoin

def referenceCrates : Crates where
  blake3 := blake3
  bech32Encode hrp payload := .ok (bech32mEncode hrp payload)
  bech32Decode := bech32mDecode
  publicKeyFromSlice bytes := okOr (secp256k1PublicKey bytes) "malformed public key"
  recoverEcdsa := secp256k1Recover

/-- BLAKE3 with the zero digest, of which no preimage is known, taken out of its range. -/
@[irreducible] def nonzeroBlake3 (bytes : List UInt8) : Digest :=
  if blake3 bytes = zeroDigest then Vector.replicate 32 1 else blake3 bytes

def nonzeroCrates : Crates := { referenceCrates with blake3 := nonzeroBlake3 }

theorem nonzeroCrates_blake3 : nonzeroCrates.blake3 = nonzeroBlake3 := rfl

theorem nonzeroCrates_ne (bytes : List UInt8) : nonzeroCrates.blake3 bytes ≠ zeroDigest := by
  rw [nonzeroCrates_blake3, nonzeroBlake3]
  split
  · decide
  · assumption

/-- The same crates, for evaluation. -/
def evalCrates : Crates :=
  { referenceCrates with
    blake3 := fun bytes =>
      if evalBlake3 bytes = zeroDigest then Vector.replicate 32 1 else evalBlake3 bytes }

theorem nonzeroCrates_eq : nonzeroCrates = evalCrates := by
  have hblake3 : nonzeroBlake3 = evalCrates.blake3 := by
    funext bytes
    change _ = if evalBlake3 bytes = zeroDigest then _ else evalBlake3 bytes
    rw [nonzeroBlake3, evalBlake3_eq]
  unfold nonzeroCrates
  rw [hblake3]
  rfl

theorem referenceCrates_eq : referenceCrates = { referenceCrates with blake3 := evalBlake3 } := by
  rw [← blake3_eq]
  rfl

/-- A block of which only the index and the transactions matter. -/
def Block.ofTransactions (index : UInt64) (transactions : List Transaction) : Block where
  index := index
  timestamp := 0
  transactions := transactions
  previousHash := ""
  hash := ""
  nonce := 0
  target := ""
  consensusVersion := 1
  stateRoot := zeroDigest
  txRoot := zeroDigest
  receiptsRoot := zeroDigest

def TransferTx.payment (chainId : UInt32) (sender receiver : String) (amount nonce : UInt64) :
    TransferTx :=
  ⟨sender, receiver, amount, 0, nonce, chainId, [], false⟩

def TransferTx.reward (chainId : UInt32) (receiver : String) (amount : UInt64) : TransferTx :=
  ⟨"", receiver, amount, 0, 0, chainId, [], true⟩

/-- A block that pays its miner and commits to a root. -/
def Block.rewarding (index : UInt64) (chainId : UInt32) (miner : String) (amount : UInt64)
    (stateRoot : Digest) : Block :=
  { Block.ofTransactions index [.transfer (.reward chainId miner amount)] with
    stateRoot := stateRoot }

/-- A call without input on regtest. -/
def Transaction.payableCall (sender receiver : String) (value nonce : UInt64) : Transaction :=
  .call ⟨sender, receiver, [], value, 1, 0, nonce, CHAIN_ID_REGTEST, []⟩

/-- A deployment of a one-byte module on regtest. -/
def Transaction.deployment (sender : String) (endowment nonce : UInt64) : Transaction :=
  .create ⟨sender, [0], [], [], endowment, 0, 0, nonce, CHAIN_ID_REGTEST, []⟩

/-- The address of the first contract "alice" deploys on regtest. -/
def firstContract : String := "rsc1tdrr3ts9ch25g4fqtkn59fgnk37c2q4m9zlrs9xcef6wnvhljlgsgam8aa"

/-- An executor whose constructors do nothing and whose calls take the value sent. -/
def payableVm : VmExecutor Unit where
  execute _ ctx := .ok ⟨0, [], .success, [], ∅,
    if ctx.value > 0 then [⟨ctx.caller, ctx.callee, ctx.value⟩] else []⟩
  executeConstructor _ _ := .ok ⟨0, [], .success, [], ∅, []⟩
  registerCode _ _ _ := .ok ()

/-- An executor whose calls revert. -/
def revertingVm : VmExecutor Unit where
  execute _ _ := .error .reverted
  executeConstructor _ _ := .ok ⟨0, [], .success, [], ∅, []⟩
  registerCode _ _ _ := .ok ()

/-- An executor whose frames store their input, if they have one, in the first slot of
the contract. -/
def storingVm : VmExecutor Unit where
  execute _ ctx := .ok ⟨0, [], .success, [], storeInput ctx, []⟩
  executeConstructor _ ctx := .ok ⟨0, [], .success, [], storeInput ctx, []⟩
  registerCode _ _ _ := .ok ()
where
  storeInput (ctx : ExecutionContext) : ContractStorageMap :=
    if ctx.input.isEmpty then ∅
    else (∅ : ContractStorageMap).insert ctx.callee
      ((∅ : ContractStorage).insert zeroDigest ctx.input)

/-- An executor whose frames all run out of gas. -/
def exhaustedVm : VmExecutor Unit where
  execute _ _ := .error .outOfGas
  executeConstructor _ _ := .error .outOfGas
  registerCode _ _ _ := .ok ()

end Strangecoin
