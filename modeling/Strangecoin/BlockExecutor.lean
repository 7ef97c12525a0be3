import Strangecoin.Consensus
import Strangecoin.Witness
import Strangecoin.UnapplyBlock

/-! # Validating and applying a block

`validate_and_apply` is the one gate a block passes: on the way into the chain, on
replay and when a foreign chain is adopted.  The state transition runs with an executor
seeded from the code registry.

The cache of accounts and contract storage converts to and from a `State`; the
conversion drops receipts and undo records.  Contract storage is held by value in the
cache, so nothing an execution does to a `State` made from it can reach the cache.
-/
namespace Strangecoin

def MAX_BLOCK_SIZE : Nat := 4 * 1024 * 1024
def MAX_TX_SIZE : Nat := 256 * 1024
def GRANT_BLOCK_INDEX : UInt64 := 1

/-- Address to bytecode. -/
abbrev CodeRegistry := HashMap String (List UInt8)

/-- What the node takes from its executor and from `serde_json`. -/
structure Runtime (V : Type) where
  exec : VmExecutor V
  /-- `WasmiExecutor::new` with every code of the registry inserted. -/
  seed : CodeRegistry → V
  /-- The length of `serde_json::to_vec` of a transaction. -/
  jsonSize : Transaction → Nat

/-- Everything a block is validated against besides its parent state. -/
structure BlockView where
  chain : List Block
  now : UInt64
  allowGrantBlocks : Bool
  allowZeroStateRoot : Bool
  expectedConsensusVersion : UInt32
  phase : ConsensusPhase
  chainId : UInt32
  codes : CodeRegistry

/-- An error about a block. -/
def invalid (block : Block) (reason : String) : StrangecoinError :=
  .invalidBlock ("block " ++ toString block.index.toNat ++ ": " ++ reason)

/-! ### Checks of the header -/

/-- `chain.last().ok_or_else(..)`. -/
def parentOf (block : Block) (chain : List Block) : Except Failure Block :=
  okOr chain.getLast? (.error (invalid block "parent block is missing"))

def validatePosition (block : Block) (chain : List Block) : Except Failure Unit :=
  if block.index = 0 then do
    guardNode (chain = []) (invalid block "genesis block applied on a non-empty chain")
    guardNode (block.previousHash = String.ofList (List.replicate 64 '0'))
      (invalid block "genesis previous_hash must be 64 zeroes")
  else do
    let parent ← parentOf block chain
    guardNode (block.index.toNat = chain.length) (invalid block
      ("index " ++ toString block.index.toNat ++ " does not follow parent height " ++
        toString parent.index.toNat))
    guardNode (block.previousHash = parent.hash) (invalid block
      ("previous_hash " ++ block.previousHash ++ " does not match parent hash " ++ parent.hash))

def validateTarget (block : Block) (chain : List Block) : Except Failure Unit :=
  if block.index % RETARGET_INTERVAL = 0 then do
    let target ← computeTarget chain
    let expected := hexEncode target.toList
    guardNode (block.target = expected) (invalid block
      ("target " ++ block.target ++ " at retarget height, expected " ++ expected))
  else do
    let parent ← parentOf block chain
    guardNode (block.target = parent.target) (invalid block
      ("target " ++ block.target ++ " changed outside a retarget height, expected " ++
        parent.target))

def Transaction.gasLimit : Transaction → UInt64
  | .call tx => tx.gasLimit
  | .create tx => tx.gasLimit
  | .transfer _ => 0

/-- `iter().sum::<u64>()`, which wraps. -/
def wrappingSum (xs : List UInt64) : UInt64 := xs.foldl (fun acc x => acc + x) 0

def enforceBlockGasLimit (transactions : List Transaction) : Except Failure Unit :=
  let total := wrappingSum (transactions.map Transaction.gasLimit)
  guardNode (total ≤ BLOCK_GAS_LIMIT) (.blockGasLimitExceeded total BLOCK_GAS_LIMIT)

def enforceReceiptGasLimit (receipts : List Receipt) : Except Failure Unit :=
  let total := wrappingSum (receipts.map Receipt.gasUsed)
  guardNode (total ≤ BLOCK_GAS_LIMIT) (.blockGasLimitExceeded total BLOCK_GAS_LIMIT)

section
variable {V : Type} (crates : Crates) (rt : Runtime V)

def validateSizes (block : Block) : Except Failure Unit := do
  let bytes ← serializeBlock block
  guardNode (bytes.length ≤ MAX_BLOCK_SIZE) (.sizeLimitExceeded "block")
  block.transactions.forM fun tx =>
    guardNode ((serializeTransactionSigned tx).length ≤ MAX_TX_SIZE)
      (.sizeLimitExceeded "transaction")

def validateHash (block : Block) : Except Failure Unit := do
  let hash ← crates.blockHash block
  guardNode (block.hash = hexEncode hash.toList) (invalid block
    ("header hash mismatch: stored " ++ block.hash ++ ", computed " ++ hexEncode hash.toList))

def validateVersion (block : Block) (view : BlockView) : Except Failure Unit := do
  guardNode (view.phase ≠ .pos) (invalid block "PoS validation phase is not active until Stage 7")
  guardNode (block.consensusVersion = view.expectedConsensusVersion) (invalid block
    ("consensus_version mismatch: got " ++ toString block.consensusVersion.toNat ++
      ", expected " ++ toString view.expectedConsensusVersion.toNat))

/-- Work and target, after genesis. -/
def validateWork (block : Block) (chain : List Block) : Except Failure Unit :=
  if block.index > 0 then do
    validateDifficulty crates block
    validateTarget block chain
  else .ok ()

/-- One transaction: its network, then its signature. -/
def validateBlockTx (chainId : UInt32) (tx : Transaction) : Except Failure Unit := do
  guardNode (tx.chainId = chainId) (.invalidChainId chainId tx.chainId)
  liftCore (verifyTransaction crates tx)

/-- The transactions are checked unless the block is the opted-in grant block. -/
def validateTransactions (block : Block) (view : BlockView) : Except Failure Unit :=
  if view.allowGrantBlocks && block.index == GRANT_BLOCK_INDEX then .ok ()
  else block.transactions.forM (validateBlockTx crates view.chainId)

/-! ### The roots -/

def receiptsRoot (receipts : List Receipt) : Digest := receiptsSubroot crates.blake3 receipts

def validateStateRoot (block : Block) (view : BlockView) (state : State) : Except Failure Unit :=
  let computed := computeStateRoot crates state.balances
  if block.stateRoot = zeroDigest then
    guardNode (block.index = 0 ∨ view.allowZeroStateRoot = true)
      (invalid block "state root is zero but a state commitment is required")
  else
    guardNode (block.stateRoot = computed) (invalid block
      ("state root mismatch: stored " ++ hexDebugBytes block.stateRoot ++ ", computed " ++
        hexDebugBytes computed))

def validateReceiptsRoot (block : Block) (state : State) : Except Failure Unit :=
  let computed := receiptsRoot crates state.receipts
  if block.receiptsRoot = zeroDigest then
    guardNode (block.index = 0)
      (invalid block "receipts root is zero but a receipts commitment is required")
  else
    guardNode (block.receiptsRoot = computed) (invalid block
      ("receipts root mismatch: stored " ++ hexDebugBytes block.receiptsRoot ++ ", computed " ++
        hexDebugBytes computed))

/-! ### The gate -/

/-- The state transition, with an executor seeded from the registry. -/
def applyAndExecute (parentState : State) (block : Block) (view : BlockView) :
    Except Failure State := do
  let r ← liftCore (applyBlockWithVm crates rt.exec parentState block view.chainId
    (rt.seed view.codes))
  return r.1

def validateAndApply (parentState : State) (block : Block) (view : BlockView) :
    Except Failure State := do
  validateSizes block
  validatePosition block view.chain
  validateHash crates block
  validateVersion block view
  liftCore (validateTxRoot crates block)
  validateTimestamp block view.chain view.now
  validateWork crates block view.chain
  validateTransactions crates block view
  enforceBlockGasLimit block.transactions
  let newState ← applyAndExecute crates rt parentState block view
  enforceReceiptGasLimit newState.receipts
  validateStateRoot crates block view newState
  validateReceiptsRoot crates block newState
  return newState

/-! ### The code registry -/

/-- The code of a creation, under the address derived **from the nonce the transaction
carries**. -/
def collectTxCode (chainId : UInt32) (codes : CodeRegistry) (tx : Transaction) : CodeRegistry :=
  match tx with
  | .create create =>
    match crates.deriveContractAddress create.sender create.nonce chainId with
    | .ok address => codes.insert address create.initCode
    | .error _ => codes
  | _ => codes

def collectBlockCodes (block : Block) (chainId : UInt32) (codes : CodeRegistry) : CodeRegistry :=
  block.transactions.foldl (collectTxCode crates chainId) codes

def codesFromChain (chain : List Block) (chainId : UInt32) : CodeRegistry :=
  chain.foldl (fun codes block => collectBlockCodes crates block chainId codes) ∅

end

/-! ### The cache -/

/-- Accounts and contract storage. -/
@[ext] structure StateCache where
  accounts : HashMap String Account
  contractStorage : ContractStorageMap

namespace StateCache

def new : StateCache := ⟨∅, ∅⟩

def fromState (state : State) : StateCache := ⟨state.balances, state.contractStorage⟩

/-- No receipts and no undo records. -/
def toState (cache : StateCache) : State where
  balances := cache.accounts
  contractStorage := cache.contractStorage
  receipts := []
  storageUndo := ∅
  valueTransfersUndo := ∅

def get (cache : StateCache) (address : String) : Option Account := cache.accounts[address]?

def balance (cache : StateCache) (address : String) : UInt64 :=
  (cache.accounts[address]?.map Account.balance).getD 0

def nonce (cache : StateCache) (address : String) : UInt64 :=
  (cache.accounts[address]?.map Account.nonce).getD 0

/-- `commit`: the cache of a state, whatever it was before. -/
def commit (_cache : StateCache) (state : State) : StateCache := fromState state

/-- Take a block back, from the cache alone. -/
def unapplyBlock (crates : Crates) (cache : StateCache) (block : Block) (chainId : UInt32) :
    Except Failure StateCache := do
  let rolledBack ← liftCore (Strangecoin.unapplyBlock crates cache.toState block chainId)
  return cache.commit rolledBack

/-- Add to a balance, saturating; the account is made if there is none. -/
def credit (cache : StateCache) (address : String) (amount : UInt64) : StateCache :=
  let account := cache.accounts[address]?.getD Account.default
  let credited := account.setBalance (saturatingAdd account.balance amount)
  { cache with accounts := cache.accounts.insert address credited }

end StateCache

/-- The balances other than zero of an account map. -/
def nonzeroBalances (accounts : HashMap String Account) : HashMap String UInt64 :=
  accounts.filterMap fun _ account => if account.balance = 0 then none else some account.balance

/-! ### Replay -/

/-- What a node is configured with. -/
structure NodeConfig where
  allowGrantBlocks : Bool
  allowZeroStateRoot : Bool
  rules : ConsensusManager
  chainId : UInt32

/-- The view of the block at a height on top of a chain. -/
def NodeConfig.viewAt (config : NodeConfig) (chain : List Block) (now height : UInt64)
    (codes : CodeRegistry) : BlockView where
  chain := chain
  now := now
  allowGrantBlocks := config.allowGrantBlocks
  allowZeroStateRoot := config.allowZeroStateRoot
  expectedConsensusVersion := config.rules.expectedVersion height
  phase := config.rules.phaseAt height
  chainId := config.chainId
  codes := codes

/-- A replay in progress: the blocks done, the state and the codes they leave. -/
structure Replay where
  done : List Block
  state : State
  codes : CodeRegistry

def Replay.start : Replay := ⟨[], State.new, ∅⟩

section
variable {V : Type} (crates : Crates) (rt : Runtime V)

/-- The next block of a replay. -/
def replayBlock (config : NodeConfig) (now : UInt64) (r : Replay) (block : Block) :
    Except Failure Replay := do
  let state ← validateAndApply crates rt r.state block
    (config.viewAt r.done now (UInt64.ofNat r.done.length) r.codes)
  return ⟨r.done ++ [block], state, collectBlockCodes crates block config.chainId r.codes⟩

/-- **Replay of a chain from nothing**: the cache and the receipts of the tip. -/
def rebuildFromChain (config : NodeConfig) (chain : List Block) (now : UInt64) :
    Except Failure (StateCache × List Receipt) := do
  let r ← chain.foldlM (replayBlock crates rt config now) Replay.start
  return (StateCache.fromState r.state, r.state.receipts)

end

end Strangecoin
