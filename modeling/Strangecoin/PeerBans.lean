import Strangecoin.PeerManager

/-! # Bans over time

A ban is one record per peer, and every event that decides to ban writes it anew.  The
tick leaves an active ban alone; the events do not look at it.  So a temporary ban can
replace a persistent one, and the verdict of the rate limiter the ban that its own violation
has just brought about.
-/
namespace Strangecoin

/-- The answers of the rate limiter. -/
inductive RateVerdict where
  | ok
  | exceeded
  | ban
deriving DecidableEq, Repr

/-- The calls that score a peer, with the decision of the score and the clock readings
each of them makes. -/
inductive PeerCall where
  | recordInvalidBlock (nodeId : NodeId) (decision : BanDecision) (now : Instant)
  | recordProtocolViolation (nodeId : NodeId) (decision : BanDecision) (now : Instant)
  | recordRateViolation (nodeId : NodeId) (decision : BanDecision) (now : Instant)
  | recordLatency (nodeId : NodeId) (reason : BanReason) (decision : BanDecision) (now : Instant)
  | applyRateVerdict (nodeId : NodeId) (verdict : RateVerdict) (banDuration : Nat)
      (decision : BanDecision) (now later bannedAt : Instant)
  | tickAt (decisions : NodeId → BanDecision × BanReason) (now : Instant)

/-- The sections of a call under the store lock.  A `Ban` verdict takes the lock twice. -/
def PeerCall.sections : PeerCall → List (Instant × StoreSection)
  | .recordInvalidBlock nodeId decision now =>
    [(now, .event nodeId .invalidBlocks .invalid decision)]
  | .recordProtocolViolation nodeId decision now =>
    [(now, .event nodeId .protocolViolation .violation decision)]
  | .recordRateViolation nodeId decision now =>
    [(now, .event nodeId .rateLimit .violation decision)]
  | .recordLatency nodeId reason decision now => [(now, .latency nodeId reason decision)]
  | .applyRateVerdict _ .ok _ _ _ _ _ => []
  | .applyRateVerdict nodeId .exceeded _ decision now _ _ =>
    [(now, .event nodeId .rateLimit .violation decision)]
  | .applyRateVerdict nodeId .ban banDuration decision now later bannedAt =>
    [(now, .event nodeId .rateLimit .violation decision),
      (bannedAt, .ban nodeId .rateLimit (later + banDuration) true)]
  | .tickAt decisions now => [(now, .tick decisions)]

/-- The sections of a sequence of calls. -/
def sectionsOf (calls : List PeerCall) : List (Instant × StoreSection) :=
  calls.flatMap PeerCall.sections

/-- A ban is at least as long and as persistent as another. -/
structure BanRecord.Outlasts (new old : BanRecord) : Prop where
  ends : old.bannedUntil ≤ new.bannedUntil
  persists : old.persistent = true → new.persistent = true

theorem BanRecord.Outlasts.refl (ban : BanRecord) : ban.Outlasts ban := ⟨Nat.le_refl _, id⟩

/-- Every ban that has not expired is still there, or a longer one. -/
def KeepsBans (now : Instant) (before after : PeerStore) : Prop :=
  ∀ a old, before.ban a = some old → now ≤ old.bannedUntil →
    ∃ new, after.ban a = some new ∧ new.Outlasts old

/-- No section of the run weakens a ban. -/
def NeverWeakened : PeerStore → List (Instant × StoreSection) → Prop
  | _, [] => True
  | store, (now, x) :: xs =>
    KeepsBans now store (x.run store now).1 ∧ NeverWeakened (x.run store now).1 xs

/-! ### When a section weakens no ban -/

/-- The decision does not ban, or for at least as long as the ban it replaces. -/
def BanDecision.Extends (old : BanRecord) : BanDecision → Prop
  | .noAction => True
  | .warn => True
  | .tempBan bannedUntil => old.bannedUntil ≤ bannedUntil ∧ old.persistent = false
  | .persistentBan bannedUntil => old.bannedUntil ≤ bannedUntil

/-- The ban a section writes is not shorter than one of the peer that has not expired.
A tick writes none. -/
def StoreSection.Extends (store : PeerStore) (now : Instant) : StoreSection → Prop
  | .event nodeId _ _ decision | .latency nodeId _ decision =>
    store.peers[nodeId]?.isSome → ∀ old, store.ban nodeId = some old → now ≤ old.bannedUntil →
      decision.Extends old
  | .ban nodeId _ bannedUntil persistent =>
    ∀ old, store.ban nodeId = some old → now ≤ old.bannedUntil →
      old.bannedUntil ≤ bannedUntil ∧ (old.persistent = true → persistent = true)
  | .tick _ => True

/-- Every section of the run extends the bans it replaces. -/
def AllExtend : PeerStore → List (Instant × StoreSection) → Prop
  | _, [] => True
  | store, (now, x) :: xs => x.Extends store now ∧ AllExtend (x.run store now).1 xs

variable {after before : PeerStore} {now : Instant}

theorem KeepsBans.of_same (h : ∀ a, after.ban a = before.ban a) : KeepsBans now before after := by
  intro a old hold _
  exact ⟨old, (h a).trans hold, .refl old⟩

theorem keepsBans_write {a : NodeId} {new : BanRecord}
    (h : ∀ b, after.ban b = if b = a then some new else before.ban b) :
    KeepsBans now before after ↔
      ∀ old, before.ban a = some old → now ≤ old.bannedUntil → new.Outlasts old := by
  constructor
  · intro hkeeps old hold hactive
    obtain ⟨new', hnew, houtlasts⟩ := hkeeps a old hold hactive
    rw [h, if_pos rfl] at hnew
    cases hnew
    exact houtlasts
  · intro hnew b old hold hactive
    rw [h]
    by_cases hb : b = a
    · subst hb
      exact ⟨new, if_pos rfl, hnew old hold hactive⟩
    · exact ⟨old, by rw [if_neg hb, hold], .refl old⟩

theorem keepsBans_scoredUpdate_iff {store : PeerStore} {a : NodeId}
    {update : PeerRecord → PeerRecord} {reason : BanReason} {decision : BanDecision} :
    KeepsBans now store (scoredUpdate store a update reason decision now).1 ↔
      (store.peers[a]?.isSome → ∀ old, store.ban a = some old → now ≤ old.bannedUntil →
        decision.Extends old) := by
  have hban := ban_scoredUpdate store a update reason decision now
  by_cases hknown : store.peers[a]?.isSome
  · simp only [hknown, and_true, forall_const] at hban ⊢
    cases decision with
    | noAction => exact iff_of_true (.of_same fun b => by rw [hban]; exact ite_self _) fun _ _ _ => trivial
    | warn => exact iff_of_true (.of_same fun b => by rw [hban]; exact ite_self _) fun _ _ _ => trivial
    | tempBan bannedUntil =>
      rw [keepsBans_write hban]
      refine forall_congr' fun old => forall_congr' fun _ => forall_congr' fun _ => ?_
      exact ⟨fun h => ⟨h.ends, by simpa using h.persists⟩, fun h => ⟨h.1, by simp [h.2]⟩⟩
    | persistentBan bannedUntil =>
      rw [keepsBans_write hban]
      refine forall_congr' fun old => forall_congr' fun _ => forall_congr' fun _ => ?_
      exact ⟨fun h => h.ends, fun h => ⟨h, fun _ => rfl⟩⟩
  · refine iff_of_true (.of_same fun b => ?_) fun h => absurd h hknown
    rw [hban, if_neg fun h => hknown h.2]

/-- **A tick weakens no ban**: it lifts the expired ones and passes over the others. -/
theorem keepsBans_tickAt (store : PeerStore) (decisions : NodeId → BanDecision × BanReason)
    (now : Instant) : KeepsBans now store (tickAt store decisions now).store := by
  intro a old hold hactive
  refine ⟨old, (tickInv_tickAt store decisions now).kept a old ?_, .refl old⟩
  rw [PeerStore.ban_expireBans, hold, Option.filter_some_pos (by simpa using hactive)]

theorem StoreSection.keepsBans_iff (x : StoreSection) (store : PeerStore) (now : Instant) :
    KeepsBans now store (x.run store now).1 ↔ x.Extends store now := by
  cases x with
  | event nodeId reason counter decision => exact keepsBans_scoredUpdate_iff
  | latency nodeId reason decision => exact keepsBans_scoredUpdate_iff
  | ban nodeId reason bannedUntil persistent =>
    refine (keepsBans_write (store.ban_banPeer nodeId reason bannedUntil now persistent)).trans ?_
    refine forall_congr' fun old => forall_congr' fun _ => forall_congr' fun _ => ?_
    exact ⟨fun h => ⟨h.ends, h.persists⟩, fun h => ⟨h.1, h.2⟩⟩
  | tick decisions => exact iff_of_true (keepsBans_tickAt store decisions now) trivial

/-- **When no ban is ever weakened**, over every sequence of calls from every store. -/
theorem bans_never_weakened_iff (store : PeerStore) (calls : List PeerCall) :
    NeverWeakened store (sectionsOf calls) ↔ AllExtend store (sectionsOf calls) := by
  generalize sectionsOf calls = sections
  induction sections generalizing store with
  | nil => exact Iff.rfl
  | cons entry rest ih => exact and_congr (entry.2.keepsBans_iff store entry.1) (ih _)

/-- A store with one known peer. -/
def onePeer : PeerStore :=
  PeerStore.addPeer ⟨∅, ∅, []⟩ zeroDigest (.v4 (Vector.replicate 4 1) 8081) true 0

/-- The persistent ban of 30 days that a peer's violation has brought about is replaced by
the hour of the rate limiter's verdict, in one call; and by a temporary ban at the next
violation. -/
theorem ban_weakened :
    let second := 1000000000
    let month := 30 * 86400 * second
    let verdict := PeerCall.applyRateVerdict zeroDigest .ban (3600 * second) (.persistentBan month)
      0 0 0
    let violation := fun decision now => PeerCall.recordProtocolViolation zeroDigest decision now
    ¬ NeverWeakened onePeer (sectionsOf [verdict]) ∧
      ¬ NeverWeakened onePeer (sectionsOf [violation (.persistentBan month) 0,
        violation (.tempBan (3601 * second)) second]) := by
  have hbanned : (recordEvent onePeer zeroDigest .rateLimit .violation
      (.persistentBan (30 * 86400 * 1000000000)) 0).1.ban zeroDigest =
        some ⟨30 * 86400 * 1000000000, .rateLimit, 0, true⟩ := by decide +kernel
  have hviolation : (recordEvent onePeer zeroDigest .protocolViolation .violation
      (.persistentBan (30 * 86400 * 1000000000)) 0).1.ban zeroDigest =
        some ⟨30 * 86400 * 1000000000, .protocolViolation, 0, true⟩ := by decide +kernel
  have hknown : (recordEvent onePeer zeroDigest .protocolViolation .violation
      (.persistentBan (30 * 86400 * 1000000000)) 0).1.peers[zeroDigest]?.isSome := by
    decide +kernel
  constructor
  · rintro ⟨-, hkeeps, -⟩
    have hextends := (StoreSection.keepsBans_iff _ _ _).mp hkeeps _ hbanned (Nat.zero_le _)
    exact absurd hextends.1 (by decide)
  · rintro ⟨-, hkeeps, -⟩
    have hextends := (StoreSection.keepsBans_iff _ _ _).mp hkeeps hknown _ hviolation (by decide)
    exact absurd hextends.1 (by decide)

end Strangecoin
