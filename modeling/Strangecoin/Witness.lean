import Strangecoin.ApplyBlock

/-! # State roots and stateless verification

A block commits to the root of the accounts after it (`rootAfter`).  A node without the
state verifies a block from a **witness**: the accounts the block touches, each with its proof
against the root before the block.
-/
namespace Strangecoin

section
variable (crates : Crates)

/-! ### The committed root -/

def computeStateRoot (accounts : HashMap String Account) : Digest :=
  SparseMerkleTrie.computeRoot crates.blake3 accounts

/-- The check of `root_after_inner`: a zero commitment stands only at genesis, or where
legacy chains are allowed. -/
def checkStateRoot (block : Block) (allowZeroStateRoot : Bool) (computed : Digest) :
    Except CoreError Digest :=
  if block.stateRoot = zeroDigest then
    if block.index = 0 ∨ allowZeroStateRoot = true then .ok computed
    else .error (.stateRootMismatch zeroDigest computed)
  else if block.stateRoot ≠ computed then .error (.stateRootMismatch block.stateRoot computed)
  else .ok computed

def rootAfter (s : State) (block : Block) (chainId : UInt32) (allowZeroStateRoot : Bool) :
    Except CoreError Digest := do
  let newState ← applyBlock crates s block chainId
  checkStateRoot block allowZeroStateRoot (computeStateRoot crates newState.balances)

def rootAfterWithVm {V : Type} (exec : VmExecutor V) (s : State) (block : Block)
    (chainId : UInt32) (allowZeroStateRoot : Bool) (vm : V) : Except CoreError (Digest × V) := do
  let r ← applyBlockWithVm crates exec s block chainId vm
  let root ← checkStateRoot block allowZeroStateRoot (computeStateRoot crates r.1.balances)
  return (root, r.2)

/-! ### Witnesses -/

structure AccountProof where
  balance : UInt64
  nonce : UInt64
  codeHash : Option Digest
  storageRoot : Option Digest
  keyHash : Digest
  proof : List Digest

/-- The proven account: a contract when both contract fields are there. -/
def AccountProof.account (p : AccountProof) : Account :=
  match p.codeHash, p.storageRoot with
  | some codeHash, some storageRoot => .contract {
      codeHash := codeHash
      storageRoot := storageRoot
      nonce := p.nonce
      balance := p.balance }
  | _, _ => .eoa ⟨p.balance, p.nonce⟩

structure StateWitness where
  preStateRoot : Digest
  proofs : HashMap String AccountProof

/-- Push an address that is not yet there. -/
def pushAddress (addresses : List String) (addr : String) : List String :=
  if addresses.contains addr then addresses else addresses ++ [addr]

/-- The addresses of one transaction; a coinbase touches its receiver only. -/
def touchedBy (tx : Transaction) : List String :=
  if tx.isCoinbase then tx.receiver.toList else tx.sender :: tx.receiver.toList

def collectTouchedAddresses (block : Block) : List String :=
  block.transactions.foldl (fun addresses tx => (touchedBy tx).foldl pushAddress addresses) []

def proveAccount (trie : SparseMerkleTrie) (addr : String) (account : Account) :
    Except CoreError AccountProof := do
  let proof ← trie.prove crates.blake3 addr account
  let (codeHash, storageRoot) := match account with
    | .contract contract => (some contract.codeHash, some contract.storageRoot)
    | .eoa _ => (none, none)
  return {
    balance := account.balance
    nonce := account.nonce
    codeHash := codeHash
    storageRoot := storageRoot
    keyHash := crates.blake3 (asBytes addr)
    proof := proof }

/-- Prove the account of one touched address. -/
def addProof (preState : State) (trie : SparseMerkleTrie) (proofs : HashMap String AccountProof)
    (addr : String) : Except CoreError (HashMap String AccountProof) := do
  let p ← proveAccount crates trie addr (preState.account addr)
  return proofs.insert addr p

def buildWitness (preState : State) (block : Block) : Except CoreError StateWitness := do
  let trie := buildTrie crates.blake3 preState.balances
  let proofs ← (collectTouchedAddresses block).foldlM (addProof crates preState trie) ∅
  return ⟨SparseMerkleTrie.computeRoot crates.blake3 preState.balances, proofs⟩

/-! ### Verification -/

/-- The partial state a witness describes: every proven account inserted, an empty
one included. -/
def StateWitness.reconstructed (witness : StateWitness) : State :=
  { State.new with balances := witness.proofs.map fun _ p => p.account }

/-- One leaf update for each proven account. -/
def StateWitness.updates (witness : StateWitness) (postState : State) : List LeafUpdate :=
  witness.proofs.toList.map fun e => {
    address := e.1
    pre := e.2.account
    proof := e.2.proof
    post := postState.account e.1 }

/-- The commitment in the header; genesis is exempt. -/
def checkPostStateRoot (block : Block) (computed : Digest) : Except CoreError Unit :=
  if block.index = 0 ∧ block.stateRoot = zeroDigest then .ok ()
  else guardWith (block.stateRoot = computed)
    (CoreError.postStateRootMismatch block.stateRoot computed)

def verifyBlockStateless (parentStateRoot : Digest) (block : Block) (chainId : UInt32)
    (witness : StateWitness) : Except CoreError Unit := do
  guardWith (witness.preStateRoot = parentStateRoot) CoreError.witnessVerificationFailed
  witness.proofs.toList.forM fun e =>
    guardWith (SparseMerkleTrie.verifyProof crates.blake3 parentStateRoot e.1 e.2.account
      e.2.proof = true) CoreError.witnessVerificationFailed
  (collectTouchedAddresses block).forM fun addr =>
    guardWith (addr ∈ witness.proofs) CoreError.witnessVerificationFailed
  let postState ← applyBlock crates witness.reconstructed block chainId
  let computed ← SparseMerkleTrie.rootAfterUpdates crates.blake3 parentStateRoot
    (witness.updates postState)
  checkPostStateRoot block computed

end

end Strangecoin
