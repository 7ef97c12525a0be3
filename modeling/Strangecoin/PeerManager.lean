import Strangecoin.Bytes
import Strangecoin.FiniteMap

/-! # The peer manager

A `PeerStore` holds what the node knows about its peers and the active bans, a
`ConnectionPool` the live sessions; the `PeerManager` guards each with a lock of its own.
The scoring formula works on floating-point numbers; here a decision is an input of the
event it follows, so that whatever is proved holds for every score.  Of a peer's record
only the score and the latency average are left out.

Each definition below that takes a clock reading is one section under one lock.
-/
namespace Strangecoin

/-- The 32 bytes of a node's identity, ordered as bytes. -/
abbrev NodeId := Digest

/-- A reading of the monotonic clock, in nanoseconds. -/
abbrev Instant := Nat

inductive SocketAddr where
  | v4 (octets : Vector UInt8 4) (port : UInt16)
  | v6 (octets : Vector UInt8 16) (port : UInt16)
deriving DecidableEq, Repr

inductive BanReason where
  | invalidBlocks
  | protocolViolation
  | rateLimit
  | manual
deriving DecidableEq, Repr

structure BanRecord where
  bannedUntil : Instant
  reason : BanReason
  bannedAt : Instant
  persistent : Bool
deriving DecidableEq, Repr

structure PeerRecord where
  addr : SocketAddr
  lastSeen : Instant
  invalidCount : UInt32
  violationCount : UInt32
  uptimeSeconds : UInt64
  observedSeconds : UInt64
  uptimeAnchor : Instant
  responsiveSinceAnchor : Bool
  verified : Bool
deriving DecidableEq, Repr

structure PeerStore where
  peers : HashMap NodeId PeerRecord
  banState : HashMap NodeId BanRecord
  historicalBans : List (NodeId × BanRecord)

structure AddrEntry where
  nodeId : NodeId
  addr : SocketAddr
deriving DecidableEq, Repr

/-! ### The store -/

namespace PeerStore

def addPeer (store : PeerStore) (nodeId : NodeId) (addr : SocketAddr) (verified : Bool)
    (now : Instant) : PeerStore :=
  let record : PeerRecord :=
    match store.peers[nodeId]? with
    | some record =>
      { record with
        addr := addr
        verified := record.verified || verified
        lastSeen := now
        responsiveSinceAnchor := verified || record.responsiveSinceAnchor }
    | none => ⟨addr, now, 0, 0, 0, 0, now, verified, verified⟩
  { store with peers := store.peers.insert nodeId record }

/-- A ban replaces the one that was there. -/
def banPeer (store : PeerStore) (nodeId : NodeId) (reason : BanReason) (bannedUntil : Instant)
    (bannedAt : Instant) (persistent : Bool) : PeerStore :=
  { store with banState := store.banState.insert nodeId ⟨bannedUntil, reason, bannedAt, persistent⟩ }

def unbanPeer (store : PeerStore) (nodeId : NodeId) : PeerStore :=
  match store.banState[nodeId]? with
  | none => store
  | some record =>
    { store with
      banState := store.banState.erase nodeId
      historicalBans := store.historicalBans ++ [(nodeId, record)] }

def isBanned (store : PeerStore) (nodeId : NodeId) : Bool := store.banState[nodeId]?.isSome

def ban (store : PeerStore) (nodeId : NodeId) : Option BanRecord := store.banState[nodeId]?

/-- Lifts the bans that have expired. -/
def expireBans (store : PeerStore) (now : Instant) : PeerStore × List NodeId :=
  let expired := (store.banState.toList.filter fun e => e.2.bannedUntil < now).map Prod.fst
  (expired.foldl unbanPeer store, expired)

/-- The known peers in the order of their identities, at most `maxCount` of them. -/
def knownAddrEntries (store : PeerStore) (maxCount : Nat) : List AddrEntry :=
  (store.peers.toList.map fun e => ⟨e.1, e.2.addr⟩).take maxCount

end PeerStore

/-! ### Scores -/

/-- The bands of the score. -/
inductive BanDecision where
  | noAction
  | warn
  | tempBan (bannedUntil : Instant)
  | persistentBan (bannedUntil : Instant)
deriving DecidableEq, Repr

inductive Counter where
  | invalid
  | violation
deriving DecidableEq, Repr

def noteMessage (record : PeerRecord) : PeerRecord := { record with responsiveSinceAnchor := true }

/-- `u64::saturating_add` of the seconds since the anchor. -/
def addSeconds (total : UInt64) (elapsed : Nat) : UInt64 :=
  if total.toNat + elapsed < 2 ^ 64 then total + UInt64.ofNat elapsed else 0 - 1

def accrueUptime (record : PeerRecord) (now : Instant) : PeerRecord :=
  let elapsed := (now - record.uptimeAnchor) / 1000000000
  if elapsed = 0 then record
  else
    { record with
      observedSeconds := addSeconds record.observedSeconds elapsed
      uptimeSeconds :=
        if record.responsiveSinceAnchor then addSeconds record.uptimeSeconds elapsed
        else record.uptimeSeconds
      uptimeAnchor := now
      responsiveSinceAnchor := false }

structure DecisionOutcome where
  banned : Bool
  needsSave : Bool
deriving DecidableEq, Repr

def applyDecision (store : PeerStore) (nodeId : NodeId) (reason : BanReason)
    (decision : BanDecision) (now : Instant) : PeerStore × DecisionOutcome :=
  match decision with
  | .noAction => (store, ⟨false, false⟩)
  | .warn => (store, ⟨false, false⟩)
  | .tempBan bannedUntil => (store.banPeer nodeId reason bannedUntil now false, ⟨true, false⟩)
  | .persistentBan bannedUntil => (store.banPeer nodeId reason bannedUntil now true, ⟨true, true⟩)

/-! ### Sections under the store lock

Each returns the peers whose sessions are dropped once the lock is released. -/

/-- The store's part of `record_event` and `record_latency`: the record is updated, then
the decision applied.  An event of an unknown peer is ignored. -/
def scoredUpdate (store : PeerStore) (nodeId : NodeId) (update : PeerRecord → PeerRecord)
    (reason : BanReason) (decision : BanDecision) (now : Instant) : PeerStore × List NodeId :=
  match store.peers[nodeId]? with
  | none => (store, [])
  | some record =>
    let record := { noteMessage (update record) with lastSeen := now }
    let store := { store with peers := store.peers.insert nodeId record }
    let (store, outcome) := applyDecision store nodeId reason decision now
    (store, if outcome.banned then [nodeId] else [])

def recordEvent (store : PeerStore) (nodeId : NodeId) (reason : BanReason) (counter : Counter)
    (decision : BanDecision) (now : Instant) : PeerStore × List NodeId :=
  scoredUpdate store nodeId (fun record =>
    match counter with
    | .invalid => { record with invalidCount := record.invalidCount + 1 }
    | .violation => { record with violationCount := record.violationCount + 1 })
    reason decision now

def recordLatency (store : PeerStore) (nodeId : NodeId) (reason : BanReason)
    (decision : BanDecision) (now : Instant) : PeerStore × List NodeId :=
  scoredUpdate store nodeId id reason decision now

structure TickReport where
  expiredBans : Nat
  newlyBanned : Nat
  warned : Nat
deriving DecidableEq, Repr

/-- What `tick_at` has gathered when it comes to the next peer. -/
structure TickState where
  store : PeerStore
  report : TickReport
  toDisconnect : List NodeId
  needsSave : Bool

/-- One peer of the `tick_at` loop: uptime accrues, and the score of a peer that is not
banned, and was not until this pass, is looked at. -/
def tickPeer (decisions : NodeId → BanDecision × BanReason) (now : Instant) (expired : List NodeId)
    (state : TickState) (nodeId : NodeId) : TickState :=
  match state.store.peers[nodeId]? with
  | none => state
  | some record =>
    let bannedNow := state.store.isBanned nodeId
    let store := { state.store with
      peers := state.store.peers.insert nodeId (accrueUptime record now) }
    if bannedNow || expired.contains nodeId then { state with store := store }
    else
      let decision := (decisions nodeId).1
      let applied := applyDecision store nodeId (decisions nodeId).2 decision now
      match decision with
      | .noAction => { state with store := applied.1 }
      | .warn => { state with
          store := applied.1
          report := { state.report with warned := state.report.warned + 1 } }
      | .tempBan _ | .persistentBan _ => { state with
          store := applied.1
          report := { state.report with newlyBanned := state.report.newlyBanned + 1 }
          toDisconnect := state.toDisconnect ++ [nodeId]
          needsSave := state.needsSave || applied.2.needsSave }

/-- `tick_at` up to the release of the store lock; peers are visited in the order of
their identities. -/
def tickAt (store : PeerStore) (decisions : NodeId → BanDecision × BanReason) (now : Instant) :
    TickState :=
  let (store, expired) := store.expireBans now
  store.peers.keys.foldl (tickPeer decisions now expired)
    ⟨store, ⟨expired.length, 0, 0⟩, [], !expired.isEmpty⟩

/-! ### The pool -/

/-- A live session, without its transport and its socket. -/
structure PeerConnection where
  nodeId : NodeId
  peerAddr : SocketAddr
  capabilities : UInt32
deriving DecidableEq, Repr

structure ConnectionPool where
  connections : HashMap NodeId PeerConnection
  maxPerIpRange : Nat

/-- Why `register_connection` refuses a session. -/
inductive PeerError where
  /-- `refusing to register self` -/
  | registerSelf
  /-- `peer {node_id} is banned` -/
  | banned (nodeId : NodeId)
  /-- `max_connections {} reached` -/
  | maxConnections (limit : Nat)
  /-- `peer {node_id} is already connected` -/
  | alreadyConnected (nodeId : NodeId)
  /-- `per-IP-range connection limit reached for {ip} (max {})` -/
  | ipRangeFull (addr : SocketAddr) (limit : Nat)
deriving DecidableEq, Repr

/-- The range of an address: the first three octets, or the first eight bytes. -/
def ipRangeKey : SocketAddr → List UInt8
  | .v4 octets _ => octets.toList.take 3
  | .v6 octets _ => octets.toList.take 8

namespace ConnectionPool

def countByIpRange (pool : ConnectionPool) (addr : SocketAddr) : Nat :=
  (pool.connections.toList.filter fun e => ipRangeKey e.2.peerAddr = ipRangeKey addr).length

def addConnection (pool : ConnectionPool) (connection : PeerConnection) :
    Except PeerError ConnectionPool :=
  if pool.connections[connection.nodeId]?.isSome then
    .error (.alreadyConnected connection.nodeId)
  else if pool.countByIpRange connection.peerAddr ≥ pool.maxPerIpRange then
    .error (.ipRangeFull connection.peerAddr pool.maxPerIpRange)
  else
    .ok { pool with connections := pool.connections.insert connection.nodeId connection }

def removeConnection (pool : ConnectionPool) (nodeId : NodeId) : ConnectionPool :=
  { pool with connections := pool.connections.erase nodeId }

end ConnectionPool

/-! ### What the sections do to the bans -/

namespace PeerStore

@[simp] theorem ban_addPeer (store : PeerStore) (a : NodeId) (addr : SocketAddr) (verified : Bool)
    (now : Instant) (b : NodeId) : (store.addPeer a addr verified now).ban b = store.ban b :=
  rfl

@[simp] theorem ban_banPeer (store : PeerStore) (a : NodeId) (reason : BanReason)
    (bannedUntil bannedAt : Instant) (persistent : Bool) (b : NodeId) :
    (store.banPeer a reason bannedUntil bannedAt persistent).ban b =
      if b = a then some ⟨bannedUntil, reason, bannedAt, persistent⟩ else store.ban b :=
  HashMap.get?_insert _ _ _ _

theorem ban_unbanPeer (store : PeerStore) (a b : NodeId) :
    (store.unbanPeer a).ban b = if b = a then none else store.ban b := by
  unfold unbanPeer ban
  split
  · rename_i hnone
    split
    · subst_vars
      exact hnone
    · rfl
  · exact HashMap.get?_erase _ _ _

theorem ban_foldl_unbanPeer (ids : List NodeId) (store : PeerStore) (b : NodeId) :
    (ids.foldl unbanPeer store).ban b = if b ∈ ids then none else store.ban b := by
  induction ids generalizing store with
  | nil => simp
  | cons a ids ih =>
    rw [List.foldl_cons, ih, ban_unbanPeer]
    by_cases ha : b = a <;> by_cases hids : b ∈ ids <;> simp [ha, hids]

theorem isBanned_iff {store : PeerStore} {a : NodeId} :
    store.isBanned a = true ↔ ∃ ban, store.ban a = some ban :=
  Option.isSome_iff_exists

theorem mem_expireBans {store : PeerStore} {now : Instant} {a : NodeId} :
    a ∈ (store.expireBans now).2 ↔ ∃ ban, store.ban a = some ban ∧ ban.bannedUntil < now := by
  simp only [expireBans, List.mem_map, List.mem_filter, decide_eq_true_eq, Prod.exists,
    exists_and_right, exists_eq_right, ban]
  constructor
  · rintro ⟨record, hmem, hlt⟩
    exact ⟨record, Std.ExtTreeMap.mem_toList_iff_getElem?_eq_some.mp hmem, hlt⟩
  · rintro ⟨record, hban, hlt⟩
    exact ⟨record, Std.ExtTreeMap.mem_toList_iff_getElem?_eq_some.mpr hban, hlt⟩

/-- Expiry lifts exactly the bans whose end has passed. -/
theorem ban_expireBans (store : PeerStore) (now : Instant) (a : NodeId) :
    (store.expireBans now).1.ban a =
      (store.ban a).filter fun ban => decide (now ≤ ban.bannedUntil) := by
  have hmem := @mem_expireBans store now a
  change ((store.expireBans now).2.foldl unbanPeer store).ban a = _
  rw [ban_foldl_unbanPeer]
  cases hban : store.ban a with
  | none => simp
  | some ban =>
    simp only [hban, Option.some.injEq, exists_eq_left'] at hmem
    by_cases hlt : ban.bannedUntil < now
    · rw [if_pos (hmem.mpr hlt), Option.filter_some_neg (by simpa using hlt)]
    · rw [if_neg fun h => hlt (hmem.mp h), Option.filter_some_pos (by simpa using hlt)]

end PeerStore

/-- The ban a decision stands for. -/
def BanDecision.record (decision : BanDecision) (reason : BanReason) (now : Instant) :
    Option BanRecord :=
  match decision with
  | .noAction | .warn => none
  | .tempBan bannedUntil => some ⟨bannedUntil, reason, now, false⟩
  | .persistentBan bannedUntil => some ⟨bannedUntil, reason, now, true⟩

/-- A decision changes the bans of its peer only, and only if it bans. -/
theorem ban_applyDecision (store : PeerStore) (a : NodeId) (reason : BanReason)
    (decision : BanDecision) (now : Instant) (b : NodeId) :
    (applyDecision store a reason decision now).1.ban b =
      if b = a then (decision.record reason now).or (store.ban b) else store.ban b := by
  cases decision <;> simp [applyDecision, BanDecision.record]

theorem banned_applyDecision (store : PeerStore) (a : NodeId) (reason : BanReason)
    (decision : BanDecision) (now : Instant) :
    (applyDecision store a reason decision now).2.banned = (decision.record reason now).isSome := by
  cases decision <;> rfl

theorem ban_scoredUpdate (store : PeerStore) (a : NodeId) (update : PeerRecord → PeerRecord)
    (reason : BanReason) (decision : BanDecision) (now : Instant) (b : NodeId) :
    (scoredUpdate store a update reason decision now).1.ban b =
      if b = a ∧ store.peers[a]?.isSome then (decision.record reason now).or (store.ban b)
      else store.ban b := by
  unfold scoredUpdate
  split
  · rename_i hnone
    simp [hnone]
  · rename_i record hsome
    simp only [hsome, Option.isSome_some, and_true]
    exact ban_applyDecision _ a reason decision now b

theorem mem_scoredUpdate {store : PeerStore} {a : NodeId} {update : PeerRecord → PeerRecord}
    {reason : BanReason} {decision : BanDecision} {now : Instant} {b : NodeId} :
    b ∈ (scoredUpdate store a update reason decision now).2 ↔
      b = a ∧ store.peers[a]?.isSome ∧ (decision.record reason now).isSome := by
  unfold scoredUpdate
  split
  · rename_i hnone
    simp [hnone]
  · rename_i record hsome
    simp only [hsome, Option.isSome_some, banned_applyDecision, true_and]
    split <;> simp_all

/-! ### The tick -/

/-- What a pass over the peers has done to the bans: an old ban is as it was, and a new
one is that of a peer whose session will be dropped. -/
structure TickInv (start : PeerStore) (state : TickState) : Prop where
  kept : ∀ a ban, start.ban a = some ban → state.store.ban a = some ban
  new : ∀ a ban, state.store.ban a = some ban → start.ban a = some ban ∨ a ∈ state.toDisconnect

/-- A peer's turn leaves the bans alone, or bans it for the first time. -/
theorem tickPeer_ban (decisions : NodeId → BanDecision × BanReason) (now : Instant)
    (expired : List NodeId) (state : TickState) (a : NodeId) :
    (∀ b, (tickPeer decisions now expired state a).store.ban b = state.store.ban b) ∧
        (tickPeer decisions now expired state a).toDisconnect = state.toDisconnect ∨
      state.store.ban a = none ∧
        (∃ ban, ∀ b, (tickPeer decisions now expired state a).store.ban b =
          if b = a then some ban else state.store.ban b) ∧
        (tickPeer decisions now expired state a).toDisconnect = state.toDisconnect ++ [a] := by
  unfold tickPeer
  split
  · exact .inl ⟨fun _ => rfl, rfl⟩
  · rename_i record _
    dsimp only
    split
    · exact .inl ⟨fun _ => rfl, rfl⟩
    · rename_i hfree
      have hban := ban_applyDecision { state.store with
        peers := state.store.peers.insert a (accrueUptime record now) } a (decisions a).2
        (decisions a).1 now
      have hnone : state.store.ban a = none := by
        have hbanned : ¬ state.store.isBanned a := fun hb => hfree (by simp [hb])
        exact Option.not_isSome_iff_eq_none.mp hbanned
      generalize decisions a = d at hban ⊢
      obtain ⟨decision, reason⟩ := d
      cases decision with
      | noAction => exact .inl ⟨fun _ => rfl, rfl⟩
      | warn => exact .inl ⟨fun _ => rfl, rfl⟩
      | tempBan bannedUntil => exact .inr ⟨hnone, ⟨_, hban⟩, rfl⟩
      | persistentBan bannedUntil => exact .inr ⟨hnone, ⟨_, hban⟩, rfl⟩

theorem TickInv.step {start : PeerStore} {state : TickState} (h : TickInv start state)
    (decisions : NodeId → BanDecision × BanReason) (now : Instant) (expired : List NodeId)
    (a : NodeId) : TickInv start (tickPeer decisions now expired state a) := by
  rcases tickPeer_ban decisions now expired state a with ⟨hsame, hdrop⟩ | ⟨hnone, ⟨ban, hban⟩, hdrop⟩
  · refine ⟨fun b old hb => ?_, fun b new hb => ?_⟩
    · rw [hsame]
      exact h.kept b old hb
    · rw [hsame] at hb
      rw [hdrop]
      exact h.new b new hb
  · refine ⟨fun b old hb => ?_, fun b new hb => ?_⟩
    · have hkept := h.kept b old hb
      rw [hban, if_neg, hkept]
      rintro rfl
      rw [hnone] at hkept
      cases hkept
    · rw [hban] at hb
      rw [hdrop]
      split at hb
      · exact .inr (by simp [‹b = a›])
      · exact (h.new b new hb).imp id fun hmem => List.mem_append_left _ hmem

theorem tickInv_tickAt (store : PeerStore) (decisions : NodeId → BanDecision × BanReason)
    (now : Instant) : TickInv (store.expireBans now).1 (tickAt store decisions now) := by
  have hrun : ∀ (ids : List NodeId) (state : TickState), TickInv (store.expireBans now).1 state →
      TickInv (store.expireBans now).1
        (ids.foldl (tickPeer decisions now (store.expireBans now).2) state) := by
    intro ids
    induction ids with
    | nil => exact fun _ h => h
    | cons a ids ih => exact fun state h => ih _ (h.step decisions now _ a)
  exact hrun _ _ ⟨fun _ _ h => h, fun _ _ h => .inl h⟩

/-! ### The sections as data -/

/-- What a call does under the store lock. -/
inductive StoreSection where
  | event (nodeId : NodeId) (reason : BanReason) (counter : Counter) (decision : BanDecision)
  | latency (nodeId : NodeId) (reason : BanReason) (decision : BanDecision)
  | ban (nodeId : NodeId) (reason : BanReason) (bannedUntil : Instant) (persistent : Bool)
  | tick (decisions : NodeId → BanDecision × BanReason)

/-- The section's effect on the store, and the peers whose sessions the call drops once
it has released the lock. -/
def StoreSection.run (store : PeerStore) (now : Instant) : StoreSection → PeerStore × List NodeId
  | .event nodeId reason counter decision => recordEvent store nodeId reason counter decision now
  | .latency nodeId reason decision => recordLatency store nodeId reason decision now
  | .ban nodeId reason bannedUntil persistent =>
    (store.banPeer nodeId reason bannedUntil now persistent, [nodeId])
  | .tick decisions =>
    let state := tickAt store decisions now
    (state.store, state.toDisconnect)

/-- Who is banned after a section was banned before or loses its session. -/
theorem StoreSection.run_banned {store : PeerStore} {now : Instant} {x : StoreSection} {a : NodeId}
    (h : (x.run store now).1.isBanned a) : store.isBanned a ∨ a ∈ (x.run store now).2 := by
  obtain ⟨ban, hban⟩ := PeerStore.isBanned_iff.mp h
  have hscored : ∀ id update reason decision,
      (scoredUpdate store id update reason decision now).1.ban a = some ban →
      store.isBanned a ∨ a ∈ (scoredUpdate store id update reason decision now).2 := by
    intro id update reason decision hban
    rw [ban_scoredUpdate] at hban
    rw [mem_scoredUpdate]
    split at hban
    · rename_i hknown
      cases hrecord : decision.record reason now with
      | none =>
        rw [hrecord, Option.none_or] at hban
        exact .inl (PeerStore.isBanned_iff.mpr ⟨ban, hban⟩)
      | some new => exact .inr ⟨hknown.1, hknown.2, rfl⟩
    · exact .inl (PeerStore.isBanned_iff.mpr ⟨ban, hban⟩)
  cases x with
  | event id reason counter decision => exact hscored id _ reason decision hban
  | latency id reason decision => exact hscored id _ reason decision hban
  | ban id reason bannedUntil persistent =>
    change (store.banPeer id reason bannedUntil now persistent).ban a = some ban at hban
    rw [PeerStore.ban_banPeer] at hban
    split at hban
    · exact .inr (by simp [run, ‹a = id›])
    · exact .inl (PeerStore.isBanned_iff.mpr ⟨ban, hban⟩)
  | tick decisions =>
    refine ((tickInv_tickAt store decisions now).new a ban hban).imp (fun hold => ?_) id
    rw [PeerStore.ban_expireBans] at hold
    exact PeerStore.isBanned_iff.mpr ⟨ban, (Option.filter_eq_some_iff.mp hold).1⟩

end Strangecoin
