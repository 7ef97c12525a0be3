import Strangecoin.PeerManager
import Strangecoin.SortedLists

/-! # Calls of the peer manager that overlap

The store and the pool have a lock each, and no call holds both.  A call is therefore a
sequence of sections, and between two of them any section of any other call may run:
`register_connection` looks at the ban under the store lock, inserts the session under
the pool lock and then refreshes the record under the store lock; a call that bans writes
the ban under the store lock and drops the session under the pool lock.
-/
namespace Strangecoin
open List Std

/-- The rest of a call: the section it runs next. -/
inductive Task where
  /-- `register_connection`, before the ban check. -/
  | checkBan (connection : PeerConnection)
  /-- `register_connection`, before the pool insertion. -/
  | insert (connection : PeerConnection)
  /-- `register_connection`, before the record is refreshed. -/
  | refresh (connection : PeerConnection)
  /-- A call that scores or bans, before its section under the store lock. -/
  | store (x : StoreSection)
  /-- The sessions a call has still to drop. -/
  | disconnect (nodeIds : List NodeId)

/-- The sessions a task will drop. -/
def Task.dropped : Task → List NodeId
  | .disconnect nodeIds => nodeIds
  | _ => []

/-- The session a task inserts next. -/
def Task.inserted : Task → Option PeerConnection
  | .insert connection => some connection
  | _ => none

/-- The manager with the calls in progress. -/
structure PeerManager where
  peerStore : PeerStore
  pool : ConnectionPool
  maxConnections : Nat
  localNodeId : NodeId
  tasks : List Task

/-- The calls the threads make. -/
inductive ManagerCall where
  | registerConnection (connection : PeerConnection)
  | banPeer (nodeId : NodeId) (reason : BanReason) (bannedUntil : Instant) (persistent : Bool)
  | recordEvent (nodeId : NodeId) (reason : BanReason) (counter : Counter) (decision : BanDecision)
  | tickAt (decisions : NodeId → BanDecision × BanReason)

def ManagerCall.task : ManagerCall → Task
  | .registerConnection connection => .checkBan connection
  | .banPeer nodeId reason bannedUntil persistent => .store (.ban nodeId reason bannedUntil persistent)
  | .recordEvent nodeId reason counter decision => .store (.event nodeId reason counter decision)
  | .tickAt decisions => .store (.tick decisions)

namespace PeerManager

/-- The pool's part of `register_connection`. -/
def insertConnection (m : PeerManager) (connection : PeerConnection) :
    Except PeerError ConnectionPool :=
  if m.pool.connections.size ≥ m.maxConnections then .error (.maxConnections m.maxConnections)
  else m.pool.addConnection connection

/-- One section of a call, and what is left of the call.  The `network.json` that some
calls write at their end is left out: writing it only reads the store. -/
def runTask (m : PeerManager) (now : Instant) : Task → PeerManager × Option Task
  | .checkBan connection =>
    if connection.nodeId = m.localNodeId then (m, none)
    else if m.peerStore.isBanned connection.nodeId then (m, none)
    else (m, some (.insert connection))
  | .insert connection =>
    match m.insertConnection connection with
    | .error _ => (m, none)
    | .ok pool => ({ m with pool := pool }, some (.refresh connection))
  | .refresh connection =>
    ({ m with peerStore :=
        m.peerStore.addPeer connection.nodeId connection.peerAddr true now }, none)
  | .store x =>
    let run := x.run m.peerStore now
    ({ m with peerStore := run.1 }, if run.2 = [] then none else some (.disconnect run.2))
  | .disconnect [] => (m, none)
  | .disconnect (nodeId :: rest) =>
    ({ m with pool := m.pool.removeConnection nodeId },
      if rest = [] then none else some (.disconnect rest))

end PeerManager

/-- A move of the schedule: a thread makes a call, or the call at a position runs its
next section. -/
inductive Move where
  | start (call : ManagerCall)
  | advance (i : Nat) (now : Instant)

namespace PeerManager

def step (m : PeerManager) : Move → PeerManager
  | .start call => { m with tasks := m.tasks ++ [call.task] }
  | .advance i now =>
    match m.tasks[i]? with
    | none => m
    | some task =>
      let run := m.runTask now task
      { run.1 with tasks := m.tasks.eraseIdx i ++ run.2.toList }

def dialCandidates (m : PeerManager) (maxCount : Nat) : List AddrEntry :=
  m.peerStore.knownAddrEntries maxCount

/-- The peer has a session in the pool. -/
def Connected (m : PeerManager) (nodeId : NodeId) : Prop :=
  m.pool.connections[nodeId]?.isSome = true

/-- Some call is about to drop the peer's session. -/
def Dropping (m : PeerManager) (nodeId : NodeId) : Prop :=
  ∃ task ∈ m.tasks, nodeId ∈ task.dropped

/-- Every connected peer that is banned is about to be dropped. -/
def Guarded (m : PeerManager) : Prop :=
  ∀ a, m.Connected a → m.peerStore.isBanned a = true → m.Dropping a

/-- A move does not insert the session of a peer that is banned by now, unless the
session is about to be dropped. -/
def InsertsUnbanned (m : PeerManager) : Move → Prop
  | .start _ => True
  | .advance i _ => ∀ connection ∈ m.tasks[i]?.bind Task.inserted,
      m.peerStore.isBanned connection.nodeId = true → m.Dropping connection.nodeId

/-- Every move of the schedule inserts unbanned peers only. -/
def AllInsertUnbanned : PeerManager → List Move → Prop
  | _, [] => True
  | m, move :: moves => m.InsertsUnbanned move ∧ AllInsertUnbanned (m.step move) moves

instance (m : PeerManager) (a : NodeId) : Decidable (m.Connected a) :=
  inferInstanceAs (Decidable (_ = true))

instance (m : PeerManager) (a : NodeId) : Decidable (m.Dropping a) :=
  inferInstanceAs (Decidable (∃ task ∈ m.tasks, a ∈ task.dropped))

instance (m : PeerManager) : ∀ move, Decidable (m.InsertsUnbanned move)
  | .start _ => .isTrue trivial
  | .advance i _ => inferInstanceAs (Decidable (∀ connection ∈ m.tasks[i]?.bind Task.inserted,
      m.peerStore.isBanned connection.nodeId = true → m.Dropping connection.nodeId))

instance decidableAllInsertUnbanned :
    ∀ (m : PeerManager) (moves : List Move), Decidable (m.AllInsertUnbanned moves)
  | _, [] => .isTrue trivial
  | m, move :: moves =>
    have := decidableAllInsertUnbanned (m.step move) moves
    inferInstanceAs (Decidable (_ ∧ _))

/-! ### The invariant -/

variable {m : PeerManager}

theorem insertConnection_ok {connection : PeerConnection} {pool : ConnectionPool}
    (h : m.insertConnection connection = .ok pool) :
    pool = { m.pool with
      connections := m.pool.connections.insert connection.nodeId connection } := by
  unfold insertConnection ConnectionPool.addConnection at h
  split at h
  · cases h
  · split at h
    · cases h
    · split at h
      · cases h
      · exact (Except.ok.inj h).symm

/-- Where a peer that is connected and banned after a section comes from: the call is
about to drop it; or it was so before and the section had not to drop it; or the section
has inserted it. -/
theorem runTask_spec {now : Instant} {task : Task} {a : NodeId}
    (hconnected : (m.runTask now task).1.Connected a)
    (hbanned : (m.runTask now task).1.peerStore.isBanned a = true) :
    (∃ rest, (m.runTask now task).2 = some rest ∧ a ∈ rest.dropped) ∨
      (m.Connected a ∧ m.peerStore.isBanned a = true ∧ a ∉ task.dropped) ∨
      ∃ connection, task = .insert connection ∧ connection.nodeId = a ∧
        m.peerStore.isBanned a = true := by
  cases task with
  | checkBan connection =>
    have hsame : (m.runTask now (.checkBan connection)).1 = m := by
      rw [runTask]
      split
      · rfl
      · split <;> rfl
    rw [hsame] at hconnected hbanned
    exact .inr (.inl ⟨hconnected, hbanned, not_mem_nil⟩)
  | insert connection =>
    cases hpool : m.insertConnection connection with
    | error e =>
      simp only [runTask, hpool] at hconnected hbanned
      exact .inr (.inl ⟨hconnected, hbanned, not_mem_nil⟩)
    | ok pool =>
      simp only [runTask, hpool] at hconnected hbanned
      have hconnected : pool.connections[a]?.isSome = true := hconnected
      rw [insertConnection_ok hpool, HashMap.get?_insert] at hconnected
      by_cases ha : a = connection.nodeId
      · exact .inr (.inr ⟨connection, rfl, ha.symm, hbanned⟩)
      · rw [if_neg ha] at hconnected
        exact .inr (.inl ⟨hconnected, hbanned, not_mem_nil⟩)
  | refresh connection => exact .inr (.inl ⟨hconnected, hbanned, not_mem_nil⟩)
  | store x =>
    rcases StoreSection.run_banned hbanned with hold | hdropped
    · exact .inr (.inl ⟨hconnected, hold, not_mem_nil⟩)
    · exact .inl ⟨_, if_neg (ne_nil_of_mem hdropped), hdropped⟩
  | disconnect nodeIds =>
    cases nodeIds with
    | nil => exact .inr (.inl ⟨hconnected, hbanned, not_mem_nil⟩)
    | cons b rest =>
      have hconnected : (m.pool.connections.erase b)[a]?.isSome = true := hconnected
      rw [HashMap.get?_erase] at hconnected
      split at hconnected
      · cases hconnected
      · rename_i hne
        by_cases hrest : a ∈ rest
        · exact .inl ⟨.disconnect rest, if_neg (ne_nil_of_mem hrest), hrest⟩
        · refine .inr (.inl ⟨hconnected, hbanned, fun hmem => ?_⟩)
          exact (mem_cons.mp hmem).elim hne hrest

/-- A task other than the one that ran is still there. -/
theorem mem_eraseIdx_of_ne {tasks : List Task} {i : Nat} {task other : Task}
    (hi : tasks[i]? = some task) (h : other ∈ tasks) (hne : other ≠ task) :
    other ∈ tasks.eraseIdx i := by
  obtain ⟨j, hj⟩ := mem_iff_getElem?.mp h
  refine mem_eraseIdx_iff_getElem?.mpr ⟨j, ?_, hj⟩
  rintro rfl
  exact hne (Option.some.inj (hj.symm.trans hi))

/-- **One section of one call keeps the invariant.** -/
theorem Guarded.step {move : Move} (h : m.Guarded) (hinsert : m.InsertsUnbanned move) :
    (m.step move).Guarded := by
  intro a hconnected hbanned
  cases move with
  | start call =>
    obtain ⟨task, hmem, ha⟩ := h a hconnected hbanned
    exact ⟨task, mem_append_left _ hmem, ha⟩
  | advance i now =>
    cases htask : m.tasks[i]? with
    | none =>
      simp only [PeerManager.step, htask] at hconnected hbanned ⊢
      exact h a hconnected hbanned
    | some task =>
      simp only [PeerManager.step, htask] at hconnected hbanned ⊢
      rcases runTask_spec hconnected hbanned with ⟨rest, hrest, ha⟩ | ⟨hconnected, hbanned, hkept⟩ |
        ⟨connection, rfl, rfl, hbanned⟩
      · exact ⟨rest, mem_append_right _ (by simp [hrest]), ha⟩
      · obtain ⟨other, hmem, ha⟩ := h a hconnected hbanned
        refine ⟨other, mem_append_left _ (mem_eraseIdx_of_ne htask hmem ?_), ha⟩
        rintro rfl
        exact hkept ha
      · obtain ⟨other, hmem, ha⟩ := hinsert connection (by simp [htask, Task.inserted]) hbanned
        refine ⟨other, mem_append_left _ (mem_eraseIdx_of_ne htask hmem ?_), ha⟩
        rintro rfl
        exact absurd ha not_mem_nil

theorem Guarded.run {moves : List Move} (h : m.Guarded) (hinsert : m.AllInsertUnbanned moves) :
    (moves.foldl PeerManager.step m).Guarded := by
  induction moves generalizing m with
  | nil => exact h
  | cons move moves ih => exact ih (h.step hinsert.1) hinsert.2

/-! ### Candidates for dialing -/

/-- How many known peers come before an identity. -/
def knownBefore (m : PeerManager) (a : NodeId) : Nat :=
  (m.peerStore.peers.keys.filter fun b => compare b a = .lt).length

/-- **Who is offered for dialing**: a known peer with fewer than `maxCount` known peers
before it, whether it is banned or not. -/
theorem mem_dialCandidates {maxCount : Nat} {a : NodeId} :
    (∃ entry ∈ m.dialCandidates maxCount, entry.nodeId = a) ↔
      m.peerStore.peers[a]?.isSome = true ∧ m.knownBefore a < maxCount := by
  have hkeys : (m.dialCandidates maxCount).map AddrEntry.nodeId =
      m.peerStore.peers.keys.take maxCount := by
    simp only [dialCandidates, PeerStore.knownAddrEntries, map_take, map_map,
      ← ExtTreeMap.map_fst_toList_eq_keys]
    rfl
  rw [← mem_map, hkeys]
  have hknown : a ∈ m.peerStore.peers.keys ↔ m.peerStore.peers[a]?.isSome = true := by
    rw [ExtTreeMap.mem_keys, ExtTreeMap.isSome_getElem?_iff_mem]
  rw [← hknown]
  constructor
  · intro h
    have hmem := mem_of_mem_take h
    exact ⟨hmem, (mem_take_iff_of_ascending ExtTreeMap.ordered_keys hmem _).mp h⟩
  · rintro ⟨hmem, hlt⟩
    exact (mem_take_iff_of_ascending ExtTreeMap.ordered_keys hmem _).mpr hlt

/-- **No banned peer is connected**, once every call has returned, after every schedule
that inserts no session of a peer that was banned since its check; and no banned peer is
offered for dialing iff every banned peer is unknown or comes too late in the order. -/
theorem no_banned_peer_connected (m : PeerManager) (moves : List Move)
    (hstart : ∀ a, m.Connected a → m.peerStore.isBanned a = false)
    (hinsert : m.AllInsertUnbanned moves) :
    ((moves.foldl PeerManager.step m).tasks = [] → ∀ a,
      (moves.foldl PeerManager.step m).Connected a →
        (moves.foldl PeerManager.step m).peerStore.isBanned a = false) ∧
    ∀ maxCount,
      (∀ entry ∈ (moves.foldl PeerManager.step m).dialCandidates maxCount,
        (moves.foldl PeerManager.step m).peerStore.isBanned entry.nodeId = false) ↔
      ∀ a, (moves.foldl PeerManager.step m).peerStore.isBanned a = true →
        (moves.foldl PeerManager.step m).peerStore.peers[a]?.isSome = true →
        maxCount ≤ (moves.foldl PeerManager.step m).knownBefore a := by
  have hguarded : m.Guarded := by
    intro a hconnected hbanned
    rw [hstart a hconnected] at hbanned
    cases hbanned
  have hend := hguarded.run hinsert
  generalize moves.foldl PeerManager.step m = final at hend ⊢
  refine ⟨fun hquiet a hconnected => ?_, fun maxCount => ⟨fun h a hbanned hknown => ?_, ?_⟩⟩
  · by_contra hbanned
    obtain ⟨ids, hmem, -⟩ := hend a hconnected (Bool.not_eq_false _ ▸ hbanned)
    rw [hquiet] at hmem
    cases hmem
  · by_contra hlt
    obtain ⟨entry, hentry, rfl⟩ := mem_dialCandidates.mpr ⟨hknown, Nat.lt_of_not_le hlt⟩
    rw [h entry hentry] at hbanned
    cases hbanned
  · intro h entry hentry
    by_contra hbanned
    obtain ⟨hknown, hlt⟩ := mem_dialCandidates.mp ⟨entry, hentry, rfl⟩
    exact absurd (h _ (Bool.not_eq_false _ ▸ hbanned) hknown) (Nat.not_le.mpr hlt)

end PeerManager

/-- A new manager. -/
def PeerManager.fresh : PeerManager :=
  ⟨⟨∅, ∅, []⟩, ⟨∅, 4⟩, 64, Vector.replicate 32 1, []⟩

def onePeerConnection : PeerConnection := ⟨zeroDigest, .v4 (Vector.replicate 4 1) 8081, 0⟩

/-- A session is registered and the peer banned afterwards. -/
def registerThenBan : List Move :=
  [.start (.registerConnection onePeerConnection), .advance 0 0, .advance 0 0, .advance 0 0,
    .start (.banPeer zeroDigest .manual 10 false), .advance 0 0, .advance 0 0]

theorem registered_peer_dropped :
    let final := registerThenBan.foldl PeerManager.step PeerManager.fresh
    final.tasks = [] ∧ ∀ a, final.Connected a → final.peerStore.isBanned a = false := by
  have hquiet : (registerThenBan.foldl PeerManager.step PeerManager.fresh).tasks = [] :=
    isEmpty_iff.mp (by decide)
  refine ⟨hquiet, (PeerManager.no_banned_peer_connected PeerManager.fresh registerThenBan
    (fun a h => ?_) (by decide)).1 hquiet⟩
  cases (h : (∅ : HashMap NodeId PeerConnection)[a]?.isSome = true)

/-- The ban and the disconnect fall between the ban check and the pool insertion. -/
def banDuringRegister : List Move :=
  [.start (.registerConnection onePeerConnection), .advance 0 0,
    .start (.banPeer zeroDigest .manual 10 false), .advance 1 0, .advance 1 0,
    .advance 0 0, .advance 0 0]

/-- No call is in progress, the peer is connected and banned; and it is offered for
dialing. -/
theorem banned_peer_connected :
    let final := banDuringRegister.foldl PeerManager.step PeerManager.fresh
    final.tasks = [] ∧ final.Connected zeroDigest ∧ final.peerStore.isBanned zeroDigest = true ∧
      (final.dialCandidates 1).map AddrEntry.nodeId = [zeroDigest] :=
  ⟨isEmpty_iff.mp (by decide +kernel), by decide +kernel, by decide +kernel,
    by decide⟩

end Strangecoin
