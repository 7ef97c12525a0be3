import Strangecoin.BlockExecutor
import Strangecoin.Mempool

/-! # The node

The chain with everything derived from it, and the operations that change it: a block is
committed on the tip, a better foreign chain is adopted whole, a transaction is queued.
The database is left out; the clock is an argument, and so is the order in which the hash
map of pending transactions is iterated (`Mempool.IteratesAs`).
-/
namespace Strangecoin

@[ext] structure Blockchain extends NodeConfig where
  chain : List Block
  balances : StateCache
  difficulty : UInt32
  mempool : Mempool
  totalWork : U256
  codes : CodeRegistry
  receipts : List Receipt

/-- A list of the pending transactions, in some order. -/
def Mempool.IteratesAs (pool : Mempool) (transactions : List Transaction) : Prop :=
  transactions.Perm (pool.txs.toList.map Prod.snd)

namespace Blockchain

/-- The node `open_blockchain` starts with, before anything is loaded. -/
def empty (chainId : UInt32) : Blockchain where
  allowGrantBlocks := false
  allowZeroStateRoot := false
  rules := ConsensusManager.new
  chainId := chainId
  chain := []
  balances := StateCache.new
  difficulty := 1
  mempool := Mempool.new chainId
  totalWork := U256.zero
  codes := ∅
  receipts := []

def viewFor (self : Blockchain) (height now : UInt64) : BlockView :=
  self.toNodeConfig.viewAt self.chain now height self.codes

section
variable {V : Type} (crates : Crates) (rt : Runtime V)

/-! ### Committing a block -/

/-- The pool without the transactions of a block. -/
def confirmTransactions (pool : Mempool) (block : Block) : Mempool :=
  block.transactions.foldl
    (fun pool tx => if tx.isCoinbase then pool else pool.remove (crates.txid tx)) pool

def commitBlock (block : Block) (now : UInt64) : EStateM Failure Blockchain Unit := do
  let self ← get
  let newState ← check (validateAndApply crates rt self.balances.toState block
    (self.viewFor block.index now))
  modify fun self => { self with receipts := newState.receipts }
  modify fun self => { self with balances := self.balances.commit newState }
  modify fun self => { self with codes := collectBlockCodes crates block self.chainId self.codes }
  modify fun self => { self with mempool := confirmTransactions crates self.mempool block }
  modify fun self => { self with chain := self.chain ++ [block] }
  let self ← get
  let totalWork ← check (cumulativeWork self.chain)
  modify fun self => { self with totalWork := totalWork }

/-! ### Queueing a transaction -/

/-- `self.mempool.insert(..)`: an operation on the pool, inside the node. -/
def onMempool {α : Type} (op : EStateM Failure Mempool α) : EStateM Failure Blockchain α :=
  fun self =>
    match op.run self.mempool with
    | .ok a pool => .ok a { self with mempool := pool }
    | .error e pool => .error e { self with mempool := pool }

def addTransaction (tx : Transaction) : EStateM Failure Blockchain InsertOutcome := do
  check (guardNode (¬ (tx.sender = "" ∨ tx.receiver = some ""))
    (.sizeLimitExceeded "empty address"))
  check (guardNode (rt.jsonSize tx ≤ MAX_TX_SIZE) (.sizeLimitExceeded "transaction"))
  let self ← get
  onMempool (Mempool.insert crates tx ((self.balances.get tx.sender).getD Account.default))

/-! ### Adopting a chain -/

def chainHasTx (chain : List Block) (tx : Transaction) : Bool :=
  chain.any fun block => block.transactions.any fun t => crates.txid t = crates.txid tx

/-- Whether the candidate has a parent-linked block at all and beats the current chain. -/
def shouldAdopt (current candidate : List Block) : Except Failure Bool :=
  if candidate.length ≤ 1 then .ok false
  else do
    match ← chainInfo candidate with
    | none => return false
    | some candidateInfo =>
      match ← chainInfo current with
      | none => return true
      | some currentInfo => return isBetter candidateInfo currentInfo

/-- Balances sent along with a chain, if there are any, have to be those of the replay. -/
def balancesAgree (wire : Option (HashMap String Account)) (rebuilt : StateCache) : Bool :=
  match wire with
  | none => true
  | some accounts =>
    accounts.isEmpty || nonzeroBalances accounts = nonzeroBalances rebuilt.accounts

/-- The replay of a candidate; an invalid candidate has none. -/
def replayCandidate (config : NodeConfig) (candidate : List Block) (now : UInt64) :
    Except Failure (Option (StateCache × List Receipt)) :=
  match rebuildFromChain crates rt config candidate now with
  | .ok r => .ok (some r)
  | .error (.error _) => .ok none
  | .error (.panic message) => .error (.panic message)

/-- One transaction of the merge; the ids of those that entered are kept. -/
def mergeTx (candidate : List Block) (rebuilt : StateCache) (acc : Mempool × List TxId)
    (tx : Transaction) : Except Failure (Mempool × List TxId) :=
  if chainHasTx crates candidate tx = true ∨ crates.txid tx ∈ acc.2 then .ok acc
  else
    match (Mempool.insert crates tx ((rebuilt.get tx.sender).getD Account.default)).run acc.1 with
    | .ok _ pool => .ok (pool, acc.2 ++ [crates.txid tx])
    | .error (.error _) pool => .ok (pool, acc.2)
    | .error (.panic message) _ => .error (.panic message)

def mergeMempool (chainId : UInt32) (candidate : List Block) (rebuilt : StateCache)
    (transactions : List Transaction) : Except Failure Mempool := do
  let r ← transactions.foldlM (mergeTx crates candidate rebuilt) (Mempool.new chainId, [])
  return r.1

/-- The writes of a successful adoption. -/
def installCandidate (candidate : List Block) (rebuilt : StateCache) (receipts : List Receipt)
    (difficulty : UInt32) (merged : Mempool) : EStateM Failure Blockchain Bool := do
  modify fun self => { self with chain := candidate }
  modify fun self => { self with balances := rebuilt }
  modify fun self => { self with difficulty := difficulty }
  let self ← get
  let totalWork ← check (cumulativeWork self.chain)
  modify fun self => { self with totalWork := totalWork }
  modify fun self => { self with mempool := merged }
  modify fun self => { self with receipts := receipts }
  modify fun self => { self with codes := codesFromChain crates self.chain self.chainId }
  return true

/-- `localTxs` is `current.mempool.transactions()`. -/
def tryAdoptCandidate (candidate : List Block) (balances : Option (HashMap String Account))
    (candidateTxs : List Transaction) (difficulty : UInt32) (now : UInt64)
    (localTxs : List Transaction) : EStateM Failure Blockchain Bool := do
  let current ← get
  if (← check (shouldAdopt current.chain candidate)) then
    match ← check (replayCandidate crates rt current.toNodeConfig candidate now) with
    | none => return false
    | some (rebuilt, receipts) =>
      if balancesAgree balances rebuilt then
        let merged ← check (mergeMempool crates current.chainId candidate rebuilt
          (candidateTxs ++ localTxs))
        installCandidate crates candidate rebuilt receipts difficulty merged
      else return false
  else return false

/-! ### Validating the stored chain -/

/-- One pending transaction of `validate_chain`; `none` when its sender cannot pay. -/
def spendPending (state : State) (tx : Transaction) : Option State :=
  let required := tx.value + tx.fee
  if state.getBalance tx.sender < required then none
  else
    let state := state.setBalance tx.sender (saturatingSub (state.getBalance tx.sender) required)
    match tx.receiver with
    | some receiver =>
      some (state.setBalance receiver (saturatingAdd (state.getBalance receiver) tx.value))
    | none => some state

/-- The size check of one block of `validate_chain`. -/
def withinBlockSize (block : Block) : Except Failure Bool := do
  let bytes ← serializeBlock block
  return decide (bytes.length ≤ MAX_BLOCK_SIZE)

/-- `transactions` is `self.mempool.transactions()`. -/
def validateChain (self : Blockchain) (now : UInt64) (transactions : List Transaction) :
    Except Failure Bool :=
  if self.chain = [] then .ok false
  else do
    if (← self.chain.allM withinBlockSize) then
      match ← replayCandidate crates rt self.toNodeConfig self.chain now with
      | none => return false
      | some (reconstructed, _) =>
        match transactions.foldlM spendPending reconstructed.toState with
        | none => return false
        | some _ =>
          return decide (nonzeroBalances reconstructed.accounts =
            nonzeroBalances self.balances.accounts)
    else return false

end

end Blockchain

end Strangecoin
