import Strangecoin.State

/-! # Applying a block

The state transition.  A block of index 0 only credits; every other block first
credits its first coinbase, bounded by the emission schedule, and then processes
its other transactions in order.

A failed frame still consumes the sender's nonce and leaves a receipt; a successful one
commits its value trail and flushes its storage writes, and both leave undo records under
the transaction's id.  Balances change by checked arithmetic, nonces by plain `+ 1`.
-/
namespace Strangecoin

/-! ### Emission -/

def TAIL_RATE_NUMERATOR : UInt64 := 6
def TAIL_RATE_DENOMINATOR : UInt64 := 1000
def BLOCKS_PER_YEAR : UInt64 := 365 * 24 * 6
def HALVING_INTERVAL : UInt64 := 210000
def INITIAL_REWARD : UInt64 := 50 * 100000000
def REGTEST_REWARD : UInt64 := 0

def halvingSchedule (height : UInt64) : UInt64 :=
  let halvings := height / HALVING_INTERVAL
  if halvings ≥ 64 then 0 else INITIAL_REWARD >>> halvings

def calculateTailReward (totalSupply : UInt64) : UInt64 :=
  (totalSupply * TAIL_RATE_NUMERATOR) / (TAIL_RATE_DENOMINATOR * BLOCKS_PER_YEAR)

def blockRewardAtHeightForChain (height totalSupply : UInt64) (chainId : UInt32) : UInt64 :=
  if chainId = CHAIN_ID_REGTEST then REGTEST_REWARD
  else max (halvingSchedule height) (calculateTailReward totalSupply)

/-! ### Balance moves -/

namespace State

/-- Add to a balance, checked. -/
def credit (s : State) (addr : String) (amount : UInt64) : Except CoreError State := do
  let balance ← okOr (checkedAdd (s.getBalance addr) amount) CoreError.stateOverflow
  return s.setBalance addr balance

/-- Take from a balance, checked. -/
def debit (s : State) (addr : String) (amount : UInt64) : Except CoreError State := do
  let balance ← okOr (checkedSub (s.getBalance addr) amount) CoreError.stateOverflow
  return s.setBalance addr balance

def creditReceiver (s : State) (tx : TransferTx) : Except CoreError State :=
  s.credit tx.receiver tx.amount

def deductSender (s : State) (tx : TransferTx) : Except CoreError State := do
  guardWith (tx.amount ≤ s.getBalance tx.sender)
    (CoreError.insufficientBalance tx.sender (s.getBalance tx.sender) tx.amount)
  s.debit tx.sender tx.amount

def incrementNonce (s : State) (tx : TransferTx) : Except CoreError State :=
  .ok (s.setNonce tx.sender (s.getNonce tx.sender + 1))

/-- One move of a trail: the payer first. -/
def moveValue (s : State) (transfer : ValueTransfer) : Except CoreError State := do
  let s ← s.debit transfer.payer transfer.amount
  s.credit transfer.payee transfer.amount

/-- Commit a trail and record it; an empty trail leaves no record. -/
def commitValueTransfers (s : State) (txid : Digest) (transfers : List ValueTransfer) :
    Except CoreError State :=
  if transfers.isEmpty then .ok s
  else do
    let s ← transfers.foldlM moveValue s
    return { s with valueTransfersUndo := s.valueTransfersUndo.insert txid transfers }

/-! ### Storage writes -/

/-- Merge staged writes into a contract's storage. -/
def applyWrites (storage : ContractStorage) (writes : List (Digest × List UInt8)) :
    ContractStorage :=
  writes.foldl (fun storage e => storage.insert e.1 e.2) storage

/-- The values of the staged keys before the writes. -/
def preimagesOf (storage : ContractStorage) (writes : List (Digest × List UInt8)) :
    List (Digest × Option (List UInt8)) :=
  writes.map fun e => (e.1, storage[e.1]?)

/-- Set the storage root of a contract account, if there is one. -/
def setStorageRoot (s : State) (addr : String) (root : Digest) : State :=
  match s.balances[addr]? with
  | some (.contract account) =>
    { s with balances := s.balances.insert addr (.contract { account with storageRoot := root }) }
  | _ => s

/-- Flush one contract's staged writes, appending the pre-images to `undo`. -/
def flushContract (blake3 : List UInt8 → Digest) (acc : State × List StorageUndoEntry)
    (e : String × ContractStorage) : State × List StorageUndoEntry :=
  let (s, undo) := acc
  if e.2.isEmpty then (s, undo)
  else if !s.isContractAt e.1 then (s, undo)
  else
    let storage := s.contractStorage[e.1]?.getD ∅
    let storage' := applyWrites storage e.2.toList
    let undo' := (preimagesOf storage e.2.toList).map fun p => (e.1, p.1, p.2)
    let s' := { s with contractStorage := s.contractStorage.insert e.1 storage' }
    (s'.setStorageRoot e.1 (contractStorageRoot blake3 storage'), undo ++ undo')

/-- Flush every contract's writes and record the pre-images. -/
def flushStorageWrites (blake3 : List UInt8 → Digest) (s : State) (result : ExecutionResult)
    (txid : Digest) : State :=
  let (s, undo) := result.storageOverlay.toList.foldl (flushContract blake3) (s, [])
  if undo.isEmpty then s else { s with storageUndo := s.storageUndo.insert txid undo }

end State

/-! ### Transactions -/

def transferReceipt (crates : Crates) (tx : Transaction) (block : Block) (txIndex : UInt32)
    (valueTransfers : List ValueTransfer) : Receipt where
  txid := crates.txid tx
  gasUsed := 0
  logs := []
  status := .success
  blockHeight := block.index
  txIndex := txIndex
  valueTransfers := valueTransfers

def validateTxChainId (chainId : UInt32) (tx : Transaction) : Except CoreError Unit :=
  guardWith (tx.chainId = chainId) (CoreError.invalidChainId chainId tx.chainId)

/-- The frame of a top-level execution. -/
def executionContext (s : State) (block : Block) (caller callee : String)
    (value gasLimit : UInt64) (input : List UInt8) : ExecutionContext where
  block := block.header
  accounts := s.balances
  caller := caller
  callee := callee
  value := value
  gasLimit := gasLimit
  gasUsed := 0
  depth := 0
  reentrant := false
  readOnly := false
  blockContext := {
    height := block.index
    timestamp := block.timestamp
    coinbase := ((block.transactions.find? Transaction.isCoinbase).bind Transaction.receiver).getD ""
    blockGasLimit := BLOCK_GAS_LIMIT }
  storage := s.contractStorage
  storageOverlay := ∅
  storageAddress := callee
  input := input

section
variable {V : Type} (crates : Crates) (exec : VmExecutor V)

/-- An executor's error as an error of the core. -/
def liftVm {α : Type} : Except VmError α → Except CoreError α
  | .ok a => .ok a
  | .error err => .error (.vmExecution err)

/-- The contract account a creation installs. -/
def deployedAccount (create : CreateTx) : Account :=
  .contract {
    codeHash := crates.blake3 create.initCode
    storageRoot := zeroDigest
    nonce := 1
    balance := create.endowment }

/-- What happens to the state once the constructor has run. -/
def settleCreate (s : State) (create : CreateTx) (address : String) (block : Block)
    (txIndex : UInt32) (outcome : Except VmError ExecutionResult) :
    Except CoreError (State × Receipt) :=
  let txid := crates.txid (.create create)
  match outcome with
  | .ok result =>
    if result.status = .success then do
      let s := s.flushStorageWrites crates.blake3 result txid
      let s ← s.debit create.sender create.endowment
      let s ← s.commitValueTransfers txid result.valueTransfers
      let endowment :=
        if create.endowment > 0 then [⟨create.sender, address, create.endowment⟩] else []
      return (s, { Receipt.fromExecution txid block.index txIndex result with
        valueTransfers := endowment ++ result.valueTransfers })
    else
      .ok (s.setAccount address Account.default,
        Receipt.fromExecution txid block.index txIndex result)
  | .error err =>
    .ok (s.setAccount address Account.default,
      Receipt.fromVmError txid block.index txIndex err create.gasLimit)

def applyCreate (s : State) (create : CreateTx) (chainId : UInt32) (vm : V) (block : Block)
    (txIndex : UInt32) : Except CoreError (State × V × Receipt) := do
  let senderNonce := s.getNonce create.sender
  let address ← crates.deriveContractAddress create.sender senderNonce chainId
  guardWith (s.isContractAt address = false)
    (CoreError.invalidContractDeploy ("contract address collision at `" ++ address ++ "`"))
  guardWith (create.endowment ≤ s.getBalance create.sender)
    (CoreError.insufficientBalance create.sender (s.getBalance create.sender) create.endowment)
  let s := s.setAccount address (deployedAccount crates create)
  let s := s.setNonce create.sender (senderNonce + 1)
  let vm ← liftVm (exec.registerCode vm address create.initCode)
  let ctx := executionContext s block create.sender address create.endowment create.gasLimit
    create.initArgs
  let (s, receipt) ← settleCreate crates s create address block txIndex
    (exec.executeConstructor vm ctx)
  return (s, vm, receipt)

/-- What happens to the state once the called contract has run. -/
def settleCall (s : State) (call : CallTx) (block : Block) (txIndex : UInt32)
    (outcome : Except VmError ExecutionResult) : Except CoreError (State × Receipt) :=
  let txid := crates.txid (.call call)
  match outcome with
  | .ok result =>
    if result.status = .success then do
      let s ← s.commitValueTransfers txid result.valueTransfers
      let s := s.flushStorageWrites crates.blake3 result txid
      return (s, Receipt.fromExecution txid block.index txIndex result)
    else .ok (s, Receipt.fromExecution txid block.index txIndex result)
  | .error err => .ok (s, Receipt.fromVmError txid block.index txIndex err call.gasLimit)

/-- The top-level move of a call; none when no value is sent. -/
def topLevelMove (call : CallTx) : List ValueTransfer :=
  if call.value > 0 then [⟨call.sender, call.receiver, call.value⟩] else []

def applyCall (s : State) (block : Block) (call : CallTx) (vm : V) (txIndex : UInt32) :
    Except CoreError (State × Receipt) := do
  guardWith (call.value ≤ s.getBalance call.sender)
    (CoreError.insufficientBalance call.sender (s.getBalance call.sender) call.value)
  let s := s.setNonce call.sender (s.getNonce call.sender + 1)
  let txid := crates.txid (.call call)
  if !s.isContractAt call.receiver then
    let s ← s.commitValueTransfers txid (topLevelMove call)
    return (s, {
      txid := txid
      gasUsed := 0
      logs := []
      status := .success
      blockHeight := block.index
      txIndex := txIndex
      valueTransfers := topLevelMove call })
  else
    settleCall crates s call block txIndex (exec.execute vm
      (executionContext s block call.sender call.receiver call.value call.gasLimit call.data))

def applyTransfer (s : State) (tx : TransferTx) : Except CoreError State := do
  let s ← s.deductSender tx
  let s ← s.creditReceiver tx
  s.incrementNonce tx

/-- The state, the executor and the receipts while a block is applied. -/
structure Progress (V : Type) where
  state : State
  vm : Option V
  receipts : List Receipt

/-- One transaction of a block after genesis, the coinbase apart. -/
def applyTx (chainId : UInt32) (block : Block) (p : Progress V) (e : Transaction × Nat) :
    Except CoreError (Progress V) :=
  let txIndex := UInt32.ofNat e.2
  if e.1.isCoinbase then .ok p
  else match e.1 with
    | .transfer tx => do
      let s ← applyTransfer p.state tx
      return { p with
        state := s
        receipts := p.receipts ++
          [transferReceipt crates e.1 block txIndex [⟨tx.sender, tx.receiver, tx.amount⟩]] }
    | .create create => match p.vm with
      | none => .error (.unsupportedTxType "create transactions require a VM executor (S1.5-P14)")
      | some vm => do
        let (s, vm, receipt) ← applyCreate crates exec p.state create chainId vm block txIndex
        return ⟨s, some vm, p.receipts ++ [receipt]⟩
    | .call call => match p.vm with
      | none => .error (.unsupportedTxType "call transactions require a VM executor (S1.5-P14)")
      | some vm => do
        let (s, receipt) ← applyCall crates exec p.state block call vm txIndex
        return ⟨s, some vm, p.receipts ++ [receipt]⟩

/-- One transaction of a genesis block: a credit. -/
def applyGenesisTx (chainId : UInt32) (block : Block) (p : Progress V) (e : Transaction × Nat) :
    Except CoreError (Progress V) := do
  validateTxChainId chainId e.1
  match e.1 with
  | .transfer tx => do
    let s ← p.state.creditReceiver tx
    return { p with
      state := s
      receipts := p.receipts ++ [transferReceipt crates e.1 block (UInt32.ofNat e.2) []] }
  | _ => .error (.unsupportedTxType "create/call transactions are not supported at genesis")

def applyGenesis (p : Progress V) (block : Block) (chainId : UInt32) :
    Except CoreError (Progress V) :=
  block.transactions.zipIdx.foldlM (applyGenesisTx crates chainId block) p

/-- The credited coinbase: the first transaction with the flag, with its index. -/
def coinbaseOf (block : Block) : Option (Transaction × Nat) :=
  block.transactions.zipIdx.find? (fun e => e.1.isCoinbase)

/-- The bounded credit of the coinbase. -/
def applyCoinbase (p : Progress V) (block : Block) (chainId : UInt32) :
    Except CoreError (Progress V) := do
  let expectedReward := blockRewardAtHeightForChain block.index p.state.totalSupply chainId
  let coinbase ← okOr (coinbaseOf block) (CoreError.invalidCoinbaseAmount expectedReward 0)
  match coinbase.1 with
  | .transfer tx => do
    guardWith (tx.amount ≤ expectedReward)
      (CoreError.invalidCoinbaseAmount expectedReward tx.amount)
    let s ← p.state.creditReceiver tx
    return { p with
      state := s
      receipts := p.receipts ++
        [transferReceipt crates coinbase.1 block (UInt32.ofNat coinbase.2) []] }
  | _ => .error (.unsupportedTxType "coinbase must be a transfer transaction")

def applyNonGenesis (p : Progress V) (block : Block) (chainId : UInt32) :
    Except CoreError (Progress V) := do
  block.transactions.forM (validateTxChainId chainId)
  let p ← applyCoinbase crates p block chainId
  block.transactions.zipIdx.foldlM (applyTx crates exec chainId block) p

/-- The state after a block and the executor with the code it registered. -/
def applyBlockInner (s : State) (block : Block) (chainId : UInt32) (vm : Option V) :
    Except CoreError (State × Option V) := do
  let start : Progress V := ⟨{ s with receipts := [] }, vm, []⟩
  let p ←
    if block.index = 0 then applyGenesis crates start block chainId
    else applyNonGenesis crates exec start block chainId
  return ({ p.state with receipts := p.receipts }, p.vm)

/-- The transition with an executor, which the block's deployments may change. -/
def applyBlockWithVm (s : State) (block : Block) (chainId : UInt32) (vm : V) :
    Except CoreError (State × V) := do
  let r ← applyBlockInner crates exec s block chainId (some vm)
  return (r.1, r.2.getD vm)

end

/-- The transfer-only transition. -/
def applyBlock (crates : Crates) (s : State) (block : Block) (chainId : UInt32) :
    Except CoreError State := do
  let r ← applyBlockInner crates noVm s block chainId none
  return r.1

end Strangecoin
