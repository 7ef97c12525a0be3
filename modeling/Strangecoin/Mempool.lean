import Strangecoin.Consensus
import Strangecoin.Operations

/-! # The mempool

Pending transactions by id, with an index from sender and nonce to id and the length of
the replacement chain that led to each.  A transaction enters if it continues its
sender's nonces and the sender can pay for it besides what is pending; one with a nonce
already taken replaces that transaction, and every later one of the sender with it, when
its feerate is high enough.
-/
namespace Strangecoin

def MAX_PENDING_TXS : Nat := 10000
def RBF_MIN_DELTA_BPS : UInt64 := 3000
def RBF_BPS_DENOMINATOR : UInt64 := 10000
def MAX_RBF_REPLACEMENTS : UInt32 := 10

abbrev TxId := Digest

inductive InsertOutcome where
  | accepted
  | replaced (txids : List TxId)
deriving DecidableEq, Repr

@[ext] structure Mempool where
  chainId : UInt32
  txs : HashMap TxId Transaction
  /-- Sender to nonce to id. -/
  bySender : HashMap String (HashMap UInt64 TxId)
  /-- 0 for an original, `n` for the `n`-th replacement in a chain. -/
  generations : HashMap TxId UInt32

/-! ### Feerates -/

/-- The length of the signed encoding: the weight of a transaction. -/
def signedLen (tx : Transaction) : UInt64 := UInt64.ofNat (serializeTransactionSigned tx).length

def feerateMicro (tx : Transaction) : UInt64 := 1000000 / max (signedLen tx) 1

def requiredFeerateMicro (old : Transaction) : UInt64 :=
  1000000 * (RBF_BPS_DENOMINATOR + RBF_MIN_DELTA_BPS) /
    (RBF_BPS_DENOMINATOR * max (signedLen old) 1)

/-- The feerate is taken to be one over the length. -/
def feerateBumpOk (old new : Transaction) : Bool :=
  signedLen old * RBF_BPS_DENOMINATOR ≥ signedLen new * (RBF_BPS_DENOMINATOR + RBF_MIN_DELTA_BPS)

namespace Mempool

def new (chainId : UInt32) : Mempool := ⟨chainId, ∅, ∅, ∅⟩

/-- The ids of a sender's pending transactions, by nonce. -/
def pendingOf (pool : Mempool) (sender : String) : List (UInt64 × TxId) :=
  match pool.bySender[sender]? with
  | some entries => entries.toList
  | none => []

/-- The transaction with the same sender and nonce, and all later ones of the sender. -/
def findReplaceable (pool : Mempool) (tx : Transaction) : List TxId :=
  match pool.bySender[tx.sender]? with
  | none => []
  | some entries =>
    match entries[tx.nonce]? with
    | none => []
    | some conflict =>
      conflict :: (entries.toList.filter fun e => tx.nonce + 1 ≤ e.1).map Prod.snd

/-- The ids that stay pending when `excluded` leave. -/
def remaining (pool : Mempool) (sender : String) (excluded : List TxId) : List TxId :=
  ((pool.pendingOf sender).map Prod.snd).filter fun id => id ∉ excluded

/-- What the transactions with these ids cost. -/
def spent (pool : Mempool) (ids : List TxId) : UInt64 :=
  ((ids.filterMap fun id => pool.txs[id]?).map fun tx => tx.value + tx.fee).foldl
    (fun acc cost => acc + cost) 0

/-- The nonce continues the pending ones, and the balance covers them and this one. -/
def validateAgainstPool (pool : Mempool) (tx : Transaction) (account : Account)
    (excluded : List TxId) : Except Failure Unit := do
  let ids := pool.remaining tx.sender excluded
  liftCore (validateNonce tx.nonce (saturatingAdd account.nonce (UInt64.ofNat ids.length)))
  let available := saturatingSub account.balance (pool.spent ids)
  let required := tx.value + tx.fee
  guardNode (required ≤ available) (.insufficientBalance available required)

def store (pool : Mempool) (txId : TxId) (tx : Transaction) (generation : UInt32) : Mempool where
  chainId := pool.chainId
  txs := pool.txs.insert txId tx
  bySender := pool.bySender.insert tx.sender
    ((pool.bySender[tx.sender]?.getD ∅).insert tx.nonce txId)
  generations := pool.generations.insert txId generation

/-- The index of a sender without a nonce; a sender without pending transactions has
none. -/
def unindex (bySender : HashMap String (HashMap UInt64 TxId)) (tx : Transaction) :
    HashMap String (HashMap UInt64 TxId) :=
  match bySender[tx.sender]? with
  | none => bySender
  | some entries =>
    if (entries.erase tx.nonce).isEmpty then bySender.erase tx.sender
    else bySender.insert tx.sender (entries.erase tx.nonce)

def remove (pool : Mempool) (txId : TxId) : Mempool where
  chainId := pool.chainId
  txs := pool.txs.erase txId
  bySender :=
    match pool.txs[txId]? with
    | some tx => unindex pool.bySender tx
    | none => pool.bySender
  generations := pool.generations.erase txId

section
variable (crates : Crates)

/-- The replacement path; `conflictId` is the first of `replaceable`. -/
def replace (tx : Transaction) (account : Account) (conflictId : TxId)
    (replaceable : List TxId) : EStateM Failure Mempool InsertOutcome := do
  let pool ← get
  let conflictTx ← check (okOr pool.txs[conflictId]?
    (.panic "mempool invariant: by_sender entry must be in txs"))
  check (guardNode (feerateBumpOk conflictTx tx = true)
    (.rbfFeerateTooLow (requiredFeerateMicro conflictTx) (feerateMicro tx)))
  let generation := pool.generations[conflictId]?.getD 0 + 1
  check (guardNode (generation ≤ MAX_RBF_REPLACEMENTS) (.rbfReplacementLimit MAX_RBF_REPLACEMENTS))
  check (pool.validateAgainstPool tx account replaceable)
  modify fun pool => replaceable.foldl remove pool
  modify fun pool => pool.store (crates.txid tx) tx generation
  return .replaced replaceable

def insert (tx : Transaction) (account : Account) : EStateM Failure Mempool InsertOutcome := do
  let pool ← get
  check (guardNode (pool.txs[crates.txid tx]? = none) .duplicateTx)
  check (liftCore (verifyTransaction crates tx))
  check (guardNode (tx.chainId = pool.chainId) (.invalidChainId pool.chainId tx.chainId))
  match pool.findReplaceable tx with
  | [] => do
    check (guardNode (pool.txs.size < MAX_PENDING_TXS) (.mempoolFull MAX_PENDING_TXS))
    check (pool.validateAgainstPool tx account [])
    modify fun pool => pool.store (crates.txid tx) tx 0
    return .accepted
  | conflictId :: rest => replace crates tx account conflictId (conflictId :: rest)

end

end Mempool

end Strangecoin
