import Strangecoin.PoolRuns

/-! # The inbox of the sync engine

Messages of all peers go through one bounded set of keys before they are queued, and one
task hands them to the node.  A key is set when a message is queued and stays set when the
node rejects it, so a message the node would take by now is dropped.
-/
namespace Strangecoin
open List

def HEADERS_INBOX_CAP : Nat := 64
def BLOCKS_INBOX_CAP : Nat := 256
def SEEN_CAP : Nat := 4096

/-- A message to the engine; the peer it came from is only used for bans and left out. -/
inductive Incoming where
  | newBlock (block : Block)
  | newHeaders (headers : List BlockHeader)
  | newTx (tx : Transaction)
  | candidateChain (chain : List Block) (balances : Option (HashMap String Account))
      (mempoolTxs pendingTransactions : List Transaction) (difficulty : UInt32)

/-- What the engine needs of the node. -/
structure BlockchainView (σ ε : Type) where
  adoptCandidate : List Block → Option (HashMap String Account) → List Transaction → UInt32 →
    EStateM ε σ Bool
  applyTx : Transaction → EStateM ε σ Unit
  addBlock : Block → EStateM ε σ Unit
  chainContainsTx : Transaction → σ → Bool
  mempoolContains : TxId → σ → Bool

namespace Incoming

/-- `None` is never deduplicated. -/
def dedupeKey (crates : Crates) : Incoming → Option String
  | newBlock block => some ("b:" ++ block.hash)
  | newTx tx => some ("t:" ++ hexEncode (crates.txid tx).toList)
  | candidateChain chain _ _ _ _ => chain.getLast?.map fun block => "c:" ++ block.hash
  | newHeaders _ => none

def IsBlockOrTx : Incoming → Prop
  | newBlock _ => True
  | newTx _ => True
  | _ => False

/-- The same block, header and transactions, or the same transaction. -/
def SameContent : Incoming → Incoming → Prop
  | newBlock block, newBlock block' => block = block'
  | newTx tx, newTx tx' => tx = tx'
  | _, _ => False

end Incoming

/-! ### The seen-set and the lanes -/

/-- Keys of messages queued or handled. -/
structure SeenCache where
  keys : List String

namespace SeenCache

/-- Whether the key was free; a full set is cleared first. -/
def reserve (self : SeenCache) (key : String) : Bool × SeenCache :=
  if key ∈ self.keys then (false, self)
  else if SEEN_CAP ≤ self.keys.length then (true, ⟨[key]⟩)
  else (true, ⟨key :: self.keys⟩)

def release (self : SeenCache) (key : String) : SeenCache := ⟨self.keys.erase key⟩

end SeenCache

/-- The engine with its lanes, and the node behind it. -/
structure SyncEngine (σ : Type) where
  seen : SeenCache
  headers : List Incoming
  blocks : List Incoming
  facade : σ

inductive PushOutcome where
  | queued
  | duplicate
  | full
deriving DecidableEq, Repr

namespace SyncEngine

variable {σ ε : Type} (crates : Crates) (view : BlockchainView σ ε)

/-- Whether the lane of the message has room. -/
def hasRoom (self : SyncEngine σ) : Incoming → Bool
  | .newHeaders _ => self.headers.length < HEADERS_INBOX_CAP
  | _ => self.blocks.length < BLOCKS_INBOX_CAP

/-- The message at the end of its lane. -/
def put (self : SyncEngine σ) (msg : Incoming) : SyncEngine σ :=
  match msg with
  | .newHeaders _ => { self with headers := self.headers ++ [msg] }
  | _ => { self with blocks := self.blocks ++ [msg] }

/-- `try_send`; a message that does not fit gives its key back. -/
def trySend (self : SyncEngine σ) (msg : Incoming) : PushOutcome × SyncEngine σ :=
  if self.hasRoom msg then (.queued, self.put msg)
  else
    match msg.dedupeKey crates with
    | some key => (.full, { self with seen := self.seen.release key })
    | none => (.full, self)

def enqueue (self : SyncEngine σ) (msg : Incoming) : PushOutcome × SyncEngine σ :=
  match msg.dedupeKey crates with
  | some key =>
    match self.seen.reserve key with
    | (false, _) => (.duplicate, self)
    | (true, seen) => trySend crates { self with seen := seen } msg
  | none => trySend crates self msg

/-- The node after an operation, and whether it succeeded. -/
def attempted {α : Type} (x : EStateM ε σ α) (s : σ) : Bool × σ :=
  match x.run s with
  | .ok _ s => (true, s)
  | .error _ s => (false, s)

/-- One transaction of a rejected candidate. -/
def salvage (s : σ) (tx : Transaction) : σ :=
  if view.chainContainsTx tx s = false ∧ view.mempoolContains (crates.txid tx) s = false then
    (attempted (view.applyTx tx) s).2
  else s

/-- Whether the node accepts the message, and the node after it; events and the saved state
are left out. -/
def process (s : σ) : Incoming → Bool × σ
  | .candidateChain chain balances mempoolTxs pendingTransactions difficulty =>
    match (view.adoptCandidate chain balances mempoolTxs difficulty).run s with
    | .ok true s => (true, s)
    | .ok false s => (false, (mempoolTxs ++ pendingTransactions).foldl (salvage crates view) s)
    | .error _ s => (false, s)
  | .newBlock block => attempted (view.addBlock block) s
  | .newTx tx => attempted (view.applyTx tx) s
  | .newHeaders _ => (true, s)

end SyncEngine

/-! ### Runs -/

/-- The engine, with the messages queued and those accepted so far. -/
structure SyncRun (σ : Type) where
  engine : SyncEngine σ
  queued : List Incoming
  accepted : List Incoming

inductive SyncEvent (σ : Type) where
  /-- A peer, or the node itself, pushes a message. -/
  | push (msg : Incoming)
  /-- The engine takes the next message, headers first. -/
  | process
  /-- The node changes by other means: a mined block, a command, the clock. -/
  | elsewhere (change : σ → σ)

namespace SyncRun

variable {σ ε : Type} (crates : Crates) (view : BlockchainView σ ε)

def start (facade : σ) : SyncRun σ := ⟨⟨⟨[]⟩, [], [], facade⟩, [], []⟩

/-- A message that was taken from its lane. -/
def handle (self : SyncRun σ) (msg : Incoming) : SyncRun σ :=
  let (accepted, facade) := SyncEngine.process crates view self.engine.facade msg
  { self with
    engine := { self.engine with facade := facade }
    accepted := if accepted then self.accepted ++ [msg] else self.accepted }

def next (self : SyncRun σ) : SyncEvent σ → SyncRun σ
  | .push msg =>
    let (outcome, engine) := self.engine.enqueue crates msg
    { self with
      engine := engine
      queued := if outcome = .queued then self.queued ++ [msg] else self.queued }
  | .process =>
    match self.engine.headers, self.engine.blocks with
    | msg :: headers, _ =>
      handle crates view { self with engine := { self.engine with headers := headers } } msg
    | [], msg :: blocks =>
      handle crates view { self with engine := { self.engine with blocks := blocks } } msg
    | [], [] => self
  | .elsewhere change =>
    { self with engine := { self.engine with facade := change self.engine.facade } }

/-- A property of every step of a run, of the state before it. -/
def Along (property : SyncRun σ → SyncEvent σ → Prop) (self : SyncRun σ) :
    List (SyncEvent σ) → Prop
  | [] => True
  | event :: events =>
    property self event ∧ Along property (self.next crates view event) events

/-- A block or a transaction, pushed under a key that was queued before, has the content of
every message queued under it, and they were all accepted. -/
def RepeatsAccepted (self : SyncRun σ) : SyncEvent σ → Prop
  | .push msg => msg.IsBlockOrTx → ∀ earlier ∈ self.queued,
      earlier.dedupeKey crates = msg.dedupeKey crates →
        earlier.SameContent msg ∧ earlier ∈ self.accepted
  | _ => True

/-- A block or a transaction that is dropped as a duplicate though the node would accept it
has the content of an accepted one. -/
def NotSuppressed (self : SyncRun σ) : SyncEvent σ → Prop
  | .push msg => msg.IsBlockOrTx → (self.engine.enqueue crates msg).1 = .duplicate →
      (SyncEngine.process crates view self.engine.facade msg).1 = true →
        ∃ earlier ∈ self.accepted, earlier.SameContent msg
  | _ => True

/-- The seen-set has no key that was not queued. -/
def KeysQueued (self : SyncRun σ) : Prop :=
  ∀ key ∈ self.engine.seen.keys, ∃ msg ∈ self.queued, msg.dedupeKey crates = some key

end SyncRun

variable {key : String} {self : SeenCache}

theorem SeenCache.reserve_seen (h : key ∈ self.keys) : (self.reserve key).1 = false := by
  rw [reserve, if_pos h]

theorem SeenCache.reserve_keys {k : String} (hk : k ∈ (self.reserve key).2.keys) :
    k = key ∨ k ∈ self.keys := by
  unfold reserve at hk
  split at hk
  · exact .inr hk
  · split at hk
    · exact .inl (mem_singleton.mp hk)
    · exact mem_cons.mp hk

/-- What is reserved and given back was there before. -/
theorem SeenCache.release_reserve_keys {k : String} (hfree : (self.reserve key).1 = true)
    (hk : k ∈ ((self.reserve key).2.release key).keys) : k ∈ self.keys := by
  unfold reserve at hfree hk
  split at hk
  · rename_i hin
    rw [if_pos hin] at hfree
    cases hfree
  · split at hk
    · rw [release, erase_cons_head] at hk
      cases hk
    · rwa [release, erase_cons_head] at hk

section

variable {σ ε : Type} {crates : Crates} {view : BlockchainView σ ε}

theorem SyncEngine.seen_put (self : SyncEngine σ) (msg : Incoming) :
    (self.put msg).seen = self.seen := by
  cases msg <;> rfl

/-- A message is queued, or its key is given back. -/
theorem SyncEngine.trySend_cases (crates : Crates) (self : SyncEngine σ) (msg : Incoming) :
    self.trySend crates msg = (.queued, self.put msg) ∨
    self.trySend crates msg = (.full, { self with
      seen := (msg.dedupeKey crates).elim self.seen self.seen.release }) := by
  unfold trySend
  split
  · exact .inl rfl
  · refine .inr ?_
    cases msg.dedupeKey crates <;> rfl

/-- A message with a key: a duplicate, or reserved and sent. -/
theorem SyncEngine.enqueue_of_key (self : SyncEngine σ) {msg : Incoming}
    (hkey : msg.dedupeKey crates = some key) :
    (key ∈ self.seen.keys ∧ self.enqueue crates msg = (.duplicate, self)) ∨
    (self.seen.reserve key).1 = true ∧ self.enqueue crates msg =
      { self with seen := (self.seen.reserve key).2 }.trySend crates msg := by
  unfold enqueue
  rw [hkey]
  dsimp only
  cases hreserve : self.seen.reserve key with
  | mk free seen =>
    cases free with
    | true => exact .inr ⟨rfl, rfl⟩
    | false =>
      refine .inl ⟨?_, rfl⟩
      unfold SeenCache.reserve at hreserve
      split at hreserve
      · assumption
      · split at hreserve <;> cases hreserve

/-- A new key in the seen-set belongs to the message that was queued. -/
theorem SyncEngine.enqueue_keys {self : SyncEngine σ} {msg : Incoming} {k : String}
    (hk : k ∈ (self.enqueue crates msg).2.seen.keys) :
    k ∈ self.seen.keys ∨
      (self.enqueue crates msg).1 = .queued ∧ msg.dedupeKey crates = some k := by
  cases hkey : msg.dedupeKey crates with
  | none =>
    refine .inl ?_
    rw [enqueue, hkey] at hk
    rcases trySend_cases crates self msg with hsend | hsend
    · rwa [hsend, seen_put] at hk
    · rwa [hsend, hkey] at hk
  | some key =>
    rcases enqueue_of_key self hkey with ⟨-, hsame⟩ | ⟨hfree, hreserved⟩
    · rw [hsame] at hk
      exact .inl hk
    · rw [hreserved] at hk ⊢
      rcases trySend_cases crates { self with seen := (self.seen.reserve key).2 } msg with
        hsend | hsend
      · rw [hsend, seen_put] at hk
        rcases SeenCache.reserve_keys hk with rfl | hold
        · exact .inr ⟨by rw [hsend], rfl⟩
        · exact .inl hold
      · rw [hsend, hkey] at hk
        exact .inl (SeenCache.release_reserve_keys hfree hk)

theorem SyncEngine.enqueue_duplicate {self : SyncEngine σ} {msg : Incoming}
    (h : (self.enqueue crates msg).1 = .duplicate) :
    ∃ key ∈ self.seen.keys, msg.dedupeKey crates = some key := by
  have hsent (self : SyncEngine σ) : (self.trySend crates msg).1 ≠ .duplicate := by
    rcases self.trySend_cases crates msg with hsend | hsend
    · rw [hsend]
      exact nofun
    · rw [hsend]
      exact nofun
  cases hkey : msg.dedupeKey crates with
  | none =>
    rw [enqueue, hkey] at h
    exact absurd h (hsent self)
  | some key =>
    rcases enqueue_of_key self hkey with ⟨hseen, -⟩ | ⟨-, hreserved⟩
    · exact ⟨key, hseen, rfl⟩
    · rw [hreserved] at h
      exact absurd h (hsent _)

theorem SyncRun.KeysQueued.next {run : SyncRun σ} (h : run.KeysQueued crates)
    (event : SyncEvent σ) : (run.next crates view event).KeysQueued crates := by
  cases event with
  | push msg =>
    intro key hkey
    rcases SyncEngine.enqueue_keys hkey with hold | ⟨hqueued, hmsg⟩
    · obtain ⟨earlier, hearlier, hk⟩ := h key hold
      refine ⟨earlier, ?_, hk⟩
      simp only [SyncRun.next]
      split
      · exact mem_append_left _ hearlier
      · exact hearlier
    · refine ⟨msg, ?_, hmsg⟩
      simp only [SyncRun.next, hqueued, if_true]
      exact mem_append_right _ (mem_singleton.mpr rfl)
  | process =>
    simp only [SyncRun.next]
    split <;> exact h
  | elsewhere change => exact h

end

/-! ### The node behind the engine -/

/-- A node and its clock. -/
structure NodeView where
  node : Blockchain
  now : UInt64

/-- An operation of the node under the lock of the facade. -/
def NodeView.locked {α : Type} (x : NodeView → EStateM Failure Blockchain α) :
    EStateM Failure NodeView α := fun view =>
  match (x view).run view.node with
  | .ok a node => .ok a { view with node := node }
  | .error e node => .error e { view with node := node }

/-- The facade of a node whose pending transactions are iterated in the given order. -/
def blockchainFacade {V : Type} (crates : Crates) (rt : Runtime V)
    (iterate : Mempool → List Transaction) : BlockchainView NodeView Failure where
  adoptCandidate chain balances mempoolTxs difficulty := NodeView.locked fun view =>
    Blockchain.tryAdoptCandidate crates rt chain balances mempoolTxs difficulty view.now
      (iterate view.node.mempool)
  applyTx tx := NodeView.locked fun _ => do
    let _ ← Blockchain.addTransaction crates rt tx
  addBlock block := NodeView.locked fun view => Blockchain.commitBlock crates rt block view.now
  chainContainsTx tx view := Blockchain.chainHasTx crates view.node.chain tx
  mempoolContains id view := view.node.mempool.txs.contains id

section

variable {V : Type} {crates : Crates} {rt : Runtime V} {iterate : Mempool → List Transaction}
  {node node' : Blockchain} {now : UInt64} {tx : Transaction}

theorem process_tx {node : Blockchain} :
    SyncEngine.process crates (blockchainFacade crates rt iterate) ⟨node, now⟩ (.newTx tx) =
      match (Blockchain.addTransaction crates rt tx).run node with
      | .ok _ node => (true, ⟨node, now⟩)
      | .error _ node => (false, ⟨node, now⟩) := by
  change SyncEngine.attempted (NodeView.locked _) _ = _
  have hlocked (α : Type) (x : NodeView → EStateM Failure Blockchain α) (view : NodeView) :
      (NodeView.locked x).run view = match (x view).run view.node with
        | .ok a node => .ok a { view with node := node }
        | .error e node => .error e { view with node := node } := rfl
  rw [SyncEngine.attempted, hlocked, EStateM.run_bind]
  cases (Blockchain.addTransaction crates rt tx).run node <;> rfl

theorem process_tx_rejected (hpool : node.mempool.Coherent)
    (h : succeeded ((Blockchain.addTransaction crates rt tx).run node) = false) :
    SyncEngine.process crates (blockchainFacade crates rt iterate) ⟨node, now⟩ (.newTx tx) =
      (false, ⟨node, now⟩) := by
  rw [process_tx]
  cases hrun : (Blockchain.addTransaction crates rt tx).run node with
  | ok outcome node' =>
    rw [hrun] at h
    cases h
  | error e node' => rw [(addTransaction_error hpool hrun).2]

end

/-- A transaction that comes too early is rejected; when the one before it was accepted the
node would take it, but its key is still set. -/
def earlyTransaction : List (SyncEvent NodeView) :=
  [.push (.newTx secondTransfer), .process, .push (.newTx firstTransfer), .process,
    .push (.newTx secondTransfer)]

/-- The facade of a regtest node. -/
def sampleFacade : BlockchainView NodeView Failure :=
  blockchainFacade nonzeroCrates registryRuntime fun _ => []

/-- The key of a transaction. -/
def txKey (tx : Transaction) : String := "t:" ++ hexEncode (nonzeroCrates.txid tx).toList

theorem txKey_ne {tx tx' : Transaction} (h : nonzeroCrates.txid tx ≠ nonzeroCrates.txid tx') :
    txKey tx ≠ txKey tx' := fun hkeys =>
  h (Vector.toList_inj.mp (hexEncode_injective ((String.append_right_inj "t:").mp hkeys)))

/-- A key that is not in the seen-set, and room in the lane. -/
theorem SyncRun.push_fresh {self : SyncRun NodeView} {tx : Transaction}
    (hfresh : txKey tx ∉ self.engine.seen.keys) (hseen : self.engine.seen.keys.length < SEEN_CAP)
    (hroom : self.engine.blocks.length < BLOCKS_INBOX_CAP) :
    self.next nonzeroCrates sampleFacade (.push (.newTx tx)) = { self with
      engine := { self.engine with
        seen := ⟨txKey tx :: self.engine.seen.keys⟩
        blocks := self.engine.blocks ++ [.newTx tx] }
      queued := self.queued ++ [.newTx tx] } := by
  have hkey : (Incoming.newTx tx).dedupeKey nonzeroCrates = some (txKey tx) := rfl
  simp only [SyncRun.next, SyncEngine.enqueue, hkey, SeenCache.reserve, if_neg hfresh,
    if_neg (Nat.not_le_of_lt hseen), SyncEngine.trySend]
  rw [if_pos (by simpa [SyncEngine.hasRoom] using hroom)]
  rfl

theorem SyncRun.process_block {seen : SeenCache} {facade facade' : NodeView} {msg : Incoming}
    {blocks queued done : List Incoming} {accepted : Bool}
    (h : SyncEngine.process nonzeroCrates sampleFacade facade msg = (accepted, facade')) :
    SyncRun.next nonzeroCrates sampleFacade ⟨⟨seen, [], msg :: blocks, facade⟩, queued, done⟩
      .process = ⟨⟨seen, [], blocks, facade'⟩, queued,
        if accepted then done ++ [msg] else done⟩ := by
  simp only [SyncRun.next, SyncRun.handle, h]

theorem process_firstTransfer : SyncEngine.process nonzeroCrates sampleFacade ⟨regtestNode, 0⟩
    (.newTx firstTransfer) = (true, ⟨onePending, 0⟩) := by
  obtain ⟨outcome, hrun⟩ := add_firstTransfer
  rw [sampleFacade, process_tx, hrun]

/-- The engine of that run when the second transaction comes again. -/
def beforeRepetition : SyncRun NodeView :=
  ⟨⟨⟨[txKey firstTransfer, txKey secondTransfer]⟩, [], [], ⟨onePending, 0⟩⟩,
    [.newTx secondTransfer, .newTx firstTransfer], [.newTx firstTransfer]⟩

theorem run_beforeRepetition :
    ((((SyncRun.start ⟨regtestNode, 0⟩).next nonzeroCrates sampleFacade
      (.push (.newTx secondTransfer))).next nonzeroCrates sampleFacade .process).next
      nonzeroCrates sampleFacade (.push (.newTx firstTransfer))).next
      nonzeroCrates sampleFacade .process = beforeRepetition := by
  have hkeys : txKey firstTransfer ∉ [txKey secondTransfer] :=
    not_mem_cons_of_ne_of_not_mem (txKey_ne txid_secondTransfer_ne.symm) not_mem_nil
  have hearly : SyncEngine.process nonzeroCrates sampleFacade ⟨regtestNode, 0⟩
      (.newTx secondTransfer) = (false, ⟨regtestNode, 0⟩) :=
    process_tx_rejected unflagged_regtestNode.sound.coherent (by
      rw [regtestNode, regtestReplay_eq, nonzeroCrates_eq]
      decide +kernel)
  have hone : (SyncRun.start ⟨regtestNode, 0⟩).next nonzeroCrates sampleFacade
      (.push (.newTx secondTransfer)) =
      ⟨⟨⟨[txKey secondTransfer]⟩, [], [.newTx secondTransfer], ⟨regtestNode, 0⟩⟩,
        [.newTx secondTransfer], []⟩ :=
    SyncRun.push_fresh not_mem_nil (by decide) (by decide)
  have htwo : SyncRun.next nonzeroCrates sampleFacade
      ⟨⟨⟨[txKey secondTransfer]⟩, [], [.newTx secondTransfer], ⟨regtestNode, 0⟩⟩,
        [.newTx secondTransfer], []⟩ .process =
      ⟨⟨⟨[txKey secondTransfer]⟩, [], [], ⟨regtestNode, 0⟩⟩, [.newTx secondTransfer], []⟩ :=
    SyncRun.process_block hearly
  have hthree : SyncRun.next nonzeroCrates sampleFacade
      ⟨⟨⟨[txKey secondTransfer]⟩, [], [], ⟨regtestNode, 0⟩⟩, [.newTx secondTransfer], []⟩
      (.push (.newTx firstTransfer)) =
      ⟨⟨⟨[txKey firstTransfer, txKey secondTransfer]⟩, [], [.newTx firstTransfer],
        ⟨regtestNode, 0⟩⟩, [.newTx secondTransfer, .newTx firstTransfer], []⟩ :=
    SyncRun.push_fresh hkeys (by decide) (by decide)
  rw [hone, htwo, hthree]
  exact SyncRun.process_block process_firstTransfer

theorem add_secondTransfer : succeeded ((Blockchain.addTransaction nonzeroCrates registryRuntime
    secondTransfer).run onePending) = true := by
  rw [onePending, regtestNode, regtestReplay_eq, nonzeroCrates_eq]
  decide +kernel

theorem second_acceptable : (SyncEngine.process nonzeroCrates sampleFacade ⟨onePending, 0⟩
    (.newTx secondTransfer)).1 = true := by
  obtain ⟨outcome, node', hrun⟩ := succeeded_iff.mp add_secondTransfer
  rw [sampleFacade, process_tx, hrun]

end Strangecoin
