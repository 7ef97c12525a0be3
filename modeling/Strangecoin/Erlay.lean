import Strangecoin.PeerManager
import Strangecoin.SortedLists
import Strangecoin.NodeError
import Strangecoin.WideArithmetic

/-! # Erlay reconciliation

Two peers find out which transactions one of them lacks by exchanging sketches of the
sets they know.  A transaction stands in a sketch by the first eight bytes of its id.  The
difference of two sketches can be decoded if it is not larger than both capacities; each
side then announces those of its own transactions that are in the difference.
-/
namespace Strangecoin
open List

def SKETCH_BITS : Nat := 64
def IMPL_STUB : UInt8 := 0

/-- `b"ERS1"`. -/
def MAGIC : List UInt8 := [0x45, 0x52, 0x53, 0x31]

def ENVELOPE_HEADER_LEN : Nat := 15

/-- `u32::MAX`. -/
def U32_MAX : Nat := 2 ^ 32 - 1

/-- A hash set of transaction ids, in the order in which it is iterated. -/
structure TxidSet where
  elems : List Digest
  nodup : elems.Nodup

/-- The id as a number, `none` for zero. -/
def shortId (txid : Digest) : Option UInt64 :=
  let id := fromBeBytes (txid.toList.take 8)
  if id ≠ 0 then some id else none

/-- `capacity.clamp(1, u32::MAX as usize)`. -/
def clampCapacity (capacity : Nat) : Nat := min (max capacity 1) U32_MAX

/-- The elements of a sketch. -/
def sketchElements (set : TxidSet) : List UInt64 := dedupList (sortList (set.elems.filterMap shortId))

def createSketch (set : TxidSet) (capacity : Nat) : List UInt8 :=
  let elements := sketchElements set
  MAGIC ++ [IMPL_STUB] ++ leBytes 2 SKETCH_BITS ++ leBytes 4 (clampCapacity capacity) ++
    leBytes 4 (min elements.length U32_MAX) ++ elements.flatMap toLeBytes

structure Envelope where
  capacity : Nat
  elements : List UInt64

def malformedSketch (detail : String) : NetError := .protocol ("erlay: sketch " ++ detail)

/-- The loop over the payload, eight bytes at a time; `prev` is the last element. -/
def parseElements : Option UInt64 → Nat → List UInt8 → Except NetError (List UInt64)
  | _, 0, _ => .ok []
  | prev, count + 1, payload => do
    let element := UInt64.ofNat (leNat (payload.take 8))
    guardWith (∀ p ∈ prev, p < element) (malformedSketch "elements not strictly ascending")
    let elements ← parseElements (some element) count (payload.drop 8)
    return element :: elements

def parseEnvelope (bytes : List UInt8) : Except NetError Envelope := do
  guardWith (ENVELOPE_HEADER_LEN ≤ bytes.length) (malformedSketch "header truncated")
  guardWith (bytes.take 4 = MAGIC) (malformedSketch "bad magic")
  let implId := bytes.getD 4 0
  guardWith (implId = IMPL_STUB)
    (.protocol ("erlay: unsupported sketch implementation " ++ toString implId.toNat))
  let bits := leNat ((bytes.drop 5).take 2)
  guardWith (bits = SKETCH_BITS)
    (.protocol ("erlay: unsupported field size " ++ toString bits ++ " bits"))
  let capacity := leNat ((bytes.drop 7).take 4)
  let count := leNat ((bytes.drop 11).take 4)
  let payload := bytes.drop ENVELOPE_HEADER_LEN
  guardWith (count * 8 = payload.length) (malformedSketch "count exceeds payload length")
  let elements ← parseElements none count payload
  return ⟨capacity, elements⟩

def decodeDifference (localSketch remoteSketch : List UInt8) : Except NetError (List UInt64) := do
  let ours ← parseEnvelope localSketch
  let theirs ← parseEnvelope remoteSketch
  let capacity := min ours.capacity theirs.capacity
  let difference := xorSorted ours.elements theirs.elements
  guardWith (difference.length ≤ capacity)
    (.protocol ("erlay: difference " ++ toString difference.length ++ " exceeds capacity " ++
      toString capacity))
  return difference

/-! ### The state of a node -/

def INITIAL_SKETCH_CAPACITY : Nat := 100
def MAX_SKETCH_CAPACITY : Nat := 10000
def CAPACITY_GROW_FAILURES : Nat := 2

structure ReconciliationConfig where
  interval : Nat
  newTxTrigger : UInt64
  initialCapacity : Nat

structure PeerReconciliation where
  lastSetSize : Nat
  lastSketch : List UInt8
  reconciliationInterval : Nat
  currentCapacity : Nat
  consecutiveFailures : Nat
  mismatchCount : Nat

def PeerReconciliation.new (config : ReconciliationConfig) : PeerReconciliation :=
  ⟨0, [], config.interval, config.initialCapacity, 0, 0⟩

/-- The record after a decoded difference: the capacity comes down towards twice its
size. -/
def PeerReconciliation.succeed (record : PeerReconciliation) (size : Nat) : PeerReconciliation :=
  { record with
    consecutiveFailures := 0
    currentCapacity := min record.currentCapacity (max (size * 2) INITIAL_SKETCH_CAPACITY) }

/-- The record after a failure: every second one in a row doubles the capacity.  The
counters and the product saturate. -/
def PeerReconciliation.fail (record : PeerReconciliation) : PeerReconciliation :=
  let failures := min (record.consecutiveFailures + 1) U32_MAX
  let record := { record with mismatchCount := min (record.mismatchCount + 1) (2 ^ 64 - 1) }
  if failures ≥ CAPACITY_GROW_FAILURES then
    { record with
      currentCapacity := min (min (record.currentCapacity * 2) (2 ^ 64 - 1)) MAX_SKETCH_CAPACITY
      consecutiveFailures := 0 }
  else { record with consecutiveFailures := failures }

structure ReconciliationState where
  knownSet : TxidSet
  newTxsSinceReconcile : UInt64
  lastReconciled : Option Instant
  peerState : HashMap NodeId PeerReconciliation
  config : ReconciliationConfig

namespace ReconciliationState

/-- `peer_state.entry(peer).or_insert_with(..)`. -/
def record (state : ReconciliationState) (peer : NodeId) : PeerReconciliation :=
  state.peerState[peer]?.getD (.new state.config)

/-- The transactions of the set that are in the difference, in the order of their ids. -/
def exclusive (set : TxidSet) (difference : List UInt64) : List Digest :=
  sortList (set.elems.filter fun txid => (shortId txid).any fun id => difference.contains id)

def reconcileAt (state : ReconciliationState) (peer : NodeId) (peerSketch : List UInt8)
    (now : Instant) : Except NetError (List Digest) × ReconciliationState :=
  let localSketch := createSketch state.knownSet (state.record peer).currentCapacity
  let record := { state.record peer with
    lastSketch := localSketch
    lastSetSize := state.knownSet.elems.length }
  match decodeDifference localSketch peerSketch with
  | .ok difference =>
    (.ok (exclusive state.knownSet difference),
      { state with
        peerState := state.peerState.insert peer
          (record.succeed difference.length)
        lastReconciled := some now
        newTxsSinceReconcile := 0 })
  | .error e =>
    (.error e,
      { state with peerState := state.peerState.insert peer record.fail })

end ReconciliationState

/-! ### The envelope -/

theorem leNat_toLeBytes (x : UInt64) : leNat (toLeBytes x) = x.toNat := by
  have hx := x.toNat_lt
  exact leNat_leBytes (by omega)

theorem length_flatMap_toLeBytes (xs : List UInt64) : (xs.flatMap toLeBytes).length = xs.length * 8 := by
  induction xs with
  | nil => rfl
  | cons x xs ih =>
    rw [flatMap_cons, length_append, ih, length_toLeBytes, length_cons]
    omega

/-- The elements of an ascending list are read back. -/
theorem parseElements_flatMap {xs : List UInt64} (hx : Ascending xs) {prev : Option UInt64}
    (hprev : ∀ p ∈ prev, ∀ x ∈ xs, p < x) :
    parseElements prev xs.length (xs.flatMap toLeBytes) = .ok xs := by
  induction xs generalizing prev with
  | nil => rfl
  | cons x xs ih =>
    obtain ⟨hlt, hxs⟩ := pairwise_cons.mp hx
    have htake : (toLeBytes x ++ xs.flatMap toLeBytes).take 8 = toLeBytes x :=
      take_left' (length_toLeBytes x)
    have hdrop : (toLeBytes x ++ xs.flatMap toLeBytes).drop 8 = xs.flatMap toLeBytes :=
      drop_left' (length_toLeBytes x)
    have hrest : parseElements (some x) xs.length (xs.flatMap toLeBytes) = .ok xs := by
      refine ih hxs ?_
      rintro p hp y hy
      cases hp
      exact Std.compare_eq_lt.mp (hlt y hy)
    rw [flatMap_cons, length_cons, parseElements, htake, hdrop, leNat_toLeBytes,
      UInt64.ofNat_toNat, hrest, guardWith, if_pos fun p hp => hprev p hp x (by simp)]
    rfl

theorem ascending_sketchElements (set : TxidSet) : Ascending (sketchElements set) :=
  ascending_dedupList (pairwise_sortList _)

theorem mem_sketchElements {set : TxidSet} {id : UInt64} :
    id ∈ sketchElements set ↔ ∃ txid ∈ set.elems, shortId txid = some id := by
  rw [sketchElements, mem_dedupList, (sortList_perm _).mem_iff, mem_filterMap]

theorem length_sketchElements_le (set : TxidSet) :
    (sketchElements set).length ≤ set.elems.length := by
  have hnodup := (ascending_sketchElements set).nodup
  have hsub : sketchElements set ⊆ set.elems.filterMap shortId := by
    intro id hid
    exact mem_filterMap.mpr (mem_sketchElements.mp hid)
  exact (hnodup.subperm hsub).length_le.trans (length_filterMap_le _ _)

/-- **A sketch is read back** as its elements and its capacity. -/
theorem parseEnvelope_createSketch {set : TxidSet} (hsize : set.elems.length < 2 ^ 32)
    (capacity : Nat) : parseEnvelope (createSketch set capacity) =
      .ok ⟨clampCapacity capacity, sketchElements set⟩ := by
  have hlength := length_sketchElements_le set
  have hcount : min (sketchElements set).length U32_MAX = (sketchElements set).length := by
    rw [U32_MAX]
    omega
  have hcapacity : clampCapacity capacity < 256 ^ 4 := by
    rw [clampCapacity, U32_MAX]
    omega
  have hcountnat : leNat (leBytes 4 (sketchElements set).length) = (sketchElements set).length :=
    leNat_leBytes (by omega)
  have hpayload := length_flatMap_toLeBytes (sketchElements set)
  have helements := @parseElements_flatMap _ (ascending_sketchElements set) none (by simp)
  -- the seven bytes before the two numbers are fixed
  have hsketch : createSketch set capacity = [0x45, 0x52, 0x53, 0x31, 0, 64, 0] ++
      (leBytes 4 (clampCapacity capacity) ++ (leBytes 4 (sketchElements set).length ++
        (sketchElements set).flatMap toLeBytes)) := by
    simp only [createSketch, hcount, append_assoc]
    rfl
  have hdrop7 : (createSketch set capacity).drop 7 = leBytes 4 (clampCapacity capacity) ++
      (leBytes 4 (sketchElements set).length ++ (sketchElements set).flatMap toLeBytes) := by
    rw [hsketch]
    rfl
  have hdrop11 : (createSketch set capacity).drop 11 =
      leBytes 4 (sketchElements set).length ++ (sketchElements set).flatMap toLeBytes := by
    rw [show 11 = 7 + 4 from rfl, ← drop_drop, hdrop7, drop_left' (length_leBytes _ _)]
  have hdrop15 : (createSketch set capacity).drop 15 = (sketchElements set).flatMap toLeBytes := by
    rw [show 15 = 11 + 4 from rfl, ← drop_drop, hdrop11, drop_left' (length_leBytes _ _)]
  have hheader : 15 ≤ (createSketch set capacity).length := by
    rw [hsketch]
    simp only [length_append, length_leBytes, length_cons, length_nil]
    omega
  have hmagic : (createSketch set capacity).take 4 = MAGIC := by
    rw [hsketch]
    rfl
  have himpl : (createSketch set capacity).getD 4 0 = IMPL_STUB := by
    rw [hsketch]
    rfl
  have hbits : leNat (((createSketch set capacity).drop 5).take 2) = SKETCH_BITS := by
    rw [hsketch]
    rfl
  have hcapacitynat : leNat (((createSketch set capacity).drop 7).take 4) = clampCapacity capacity := by
    rw [hdrop7, take_left' (length_leBytes _ _), leNat_leBytes hcapacity]
  have hcountbytes : leNat (((createSketch set capacity).drop 11).take 4) =
      (sketchElements set).length := by
    rw [hdrop11, take_left' (length_leBytes _ _), hcountnat]
  simp only [parseEnvelope, guardWith, hheader, hmagic, himpl, hbits, hcapacitynat, hcountbytes,
    ENVELOPE_HEADER_LEN, hdrop15, hpayload, helements, if_true]
  rfl

variable {a b : TxidSet}

/-- Decoding compares the two lists of elements and the smaller capacity. -/
theorem decodeDifference_createSketch (ha : a.elems.length < 2 ^ 32) (hb : b.elems.length < 2 ^ 32)
    (ca cb : Nat) {difference : List UInt64} :
    decodeDifference (createSketch a ca) (createSketch b cb) = .ok difference ↔
      difference = xorSorted (sketchElements a) (sketchElements b) ∧
        difference.length ≤ min (clampCapacity ca) (clampCapacity cb) := by
  rw [decodeDifference, parseEnvelope_createSketch ha, parseEnvelope_createSketch hb]
  simp only [bind_eq_ok, guardWith_eq_ok]
  constructor
  · rintro ⟨_, ⟨⟩, _, ⟨⟩, _, hle, ⟨⟩⟩
    exact ⟨rfl, hle⟩
  · rintro ⟨rfl, hle⟩
    exact ⟨_, rfl, _, rfl, (), hle, rfl⟩

/-! ### The difference -/

/-- The transactions of one set that are not in the other. -/
def TxidSet.minus (a b : TxidSet) : List Digest := a.elems.filter fun txid => txid ∉ b.elems

/-- The size of the symmetric difference. -/
def differenceSize (a b : TxidSet) : Nat := (a.minus b).length + (b.minus a).length

/-- On the union of the sets, short ids are not zero and differ. -/
structure DistinctShortIds (a b : TxidSet) : Prop where
  nonzero : ∀ txid ∈ a.elems ++ b.elems, (shortId txid).isSome = true
  distinct : ∀ txid ∈ a.elems ++ b.elems, ∀ other ∈ a.elems ++ b.elems,
    shortId txid = shortId other → txid = other

section
variable (h : DistinctShortIds a b)
include h

theorem DistinctShortIds.symm : DistinctShortIds b a := by
  have hmem : ∀ {txid}, txid ∈ b.elems ++ a.elems → txid ∈ a.elems ++ b.elems := by
    intro txid h
    rw [mem_append] at h ⊢
    exact h.symm
  exact ⟨fun txid ht => h.nonzero txid (hmem ht),
    fun txid ht other ho => h.distinct txid (hmem ht) other (hmem ho)⟩

/-- A transaction is in a set iff its short id is in the set's sketch. -/
theorem DistinctShortIds.mem_iff {txid : Digest} {id : UInt64}
    (htxid : txid ∈ a.elems) (hid : shortId txid = some id) :
    id ∈ sketchElements b ↔ txid ∈ b.elems := by
  rw [mem_sketchElements]
  constructor
  · rintro ⟨other, hother, hsame⟩
    obtain rfl := h.distinct txid (mem_append_left _ htxid) other
      (mem_append_right _ hother) (hid.trans hsame.symm)
    exact hother
  · exact fun hmem => ⟨txid, hmem, hid⟩

/-- **The decoded difference** is the list of the short ids of the transactions that one
side lacks. -/
theorem xorSorted_perm :
    (xorSorted (sketchElements a) (sketchElements b)).Perm
      ((a.minus b ++ b.minus a).filterMap shortId) := by
  have hsub : ∀ txid ∈ a.minus b ++ b.minus a, txid ∈ a.elems ++ b.elems := by
    intro txid hmem
    rw [mem_append] at hmem ⊢
    exact hmem.imp mem_of_mem_filter mem_of_mem_filter
  have hnodup : (a.minus b ++ b.minus a).Nodup := by
    refine nodup_append.mpr ⟨a.nodup.filter _, b.nodup.filter _, ?_⟩
    rintro txid ha _ hb rfl
    have hnot := (mem_filter.mp ha).2
    simp only [decide_eq_true_eq] at hnot
    exact hnot (mem_of_mem_filter hb)
  refine (perm_ext_iff_of_nodup (ascending_xorSorted (ascending_sketchElements a)
    (ascending_sketchElements b)).nodup ?_).mpr fun id => ?_
  · rw [List.Nodup, pairwise_filterMap]
    refine hnodup.imp_of_mem fun ha hb hne id hid id' hid' heq => ?_
    subst heq
    exact hne (h.distinct _ (hsub _ ha) _ (hsub _ hb) (hid.trans hid'.symm))
  · rw [mem_xorSorted (ascending_sketchElements a) (ascending_sketchElements b)]
    simp only [filterMap_append, mem_append, mem_filterMap, TxidSet.minus,
      mem_filter, decide_eq_true_eq]
    refine or_congr ?_ ?_
    · rw [mem_sketchElements]
      constructor
      · rintro ⟨⟨txid, hmem, hid⟩, hnot⟩
        exact ⟨txid, ⟨hmem, fun hb => hnot ((h.mem_iff hmem hid).mpr hb)⟩, hid⟩
      · rintro ⟨txid, ⟨hmem, hnot⟩, hid⟩
        exact ⟨⟨txid, hmem, hid⟩, fun hb => hnot ((h.mem_iff hmem hid).mp hb)⟩
    · rw [mem_sketchElements]
      constructor
      · rintro ⟨⟨txid, hmem, hid⟩, hnot⟩
        exact ⟨txid, ⟨hmem, fun ha => hnot ((h.symm.mem_iff hmem hid).mpr ha)⟩, hid⟩
      · rintro ⟨txid, ⟨hmem, hnot⟩, hid⟩
        exact ⟨⟨txid, hmem, hid⟩, fun ha => hnot ((h.symm.mem_iff hmem hid).mp ha)⟩

theorem length_xorSorted :
    (xorSorted (sketchElements a) (sketchElements b)).length = differenceSize a b := by
  rw [(xorSorted_perm h).length_eq, differenceSize, ← length_append]
  refine filterMap_length_eq_length.mpr fun txid hmem => h.nonzero txid ?_
  rw [mem_append] at hmem ⊢
  exact hmem.imp mem_of_mem_filter mem_of_mem_filter

/-- The difference can be decoded iff it is within both capacities. -/
theorem decodeDifference_ok_iff (ha : a.elems.length < 2 ^ 32)
    (hb : b.elems.length < 2 ^ 32) (ca cb : Nat) :
    (∃ difference, decodeDifference (createSketch a ca) (createSketch b cb) = .ok difference) ↔
      differenceSize a b ≤ min (clampCapacity ca) (clampCapacity cb) := by
  rw [← length_xorSorted h]
  constructor
  · rintro ⟨difference, hok⟩
    obtain ⟨rfl, hle⟩ := (decodeDifference_createSketch ha hb ca cb).mp hok
    exact hle
  · exact fun hle => ⟨_, (decodeDifference_createSketch ha hb ca cb).mpr ⟨rfl, hle⟩⟩

/-- Each side keeps those of its transactions that the other lacks. -/
theorem exclusive_eq :
    ReconciliationState.exclusive a (xorSorted (sketchElements a) (sketchElements b)) =
      sortList (a.minus b) := by
  rw [ReconciliationState.exclusive, TxidSet.minus]
  congr 1
  refine filter_congr fun txid htxid => ?_
  obtain ⟨id, hid⟩ := Option.isSome_iff_exists.mp (h.nonzero txid (mem_append_left _ htxid))
  have hours : id ∈ sketchElements a := mem_sketchElements.mpr ⟨txid, htxid, hid⟩
  rw [hid, Option.any_some, Bool.eq_iff_iff, contains_iff_mem, decide_eq_true_eq,
    mem_xorSorted (ascending_sketchElements a) (ascending_sketchElements b), h.mem_iff htxid hid]
  simp [hours]

/-- One side's round, when the difference is within both capacities. -/
theorem reconcileAt_ok (ha : a.elems.length < 2 ^ 32)
    (hb : b.elems.length < 2 ^ 32) {state : ReconciliationState} {peer : NodeId} {now : Instant}
    {cb : Nat} (hknown : state.knownSet = a) (hle : differenceSize a b ≤
      min (clampCapacity (state.record peer).currentCapacity) (clampCapacity cb)) :
    ∃ txids, (state.reconcileAt peer (createSketch b cb) now).1 = .ok txids ∧ Ascending txids ∧
      ∀ txid, txid ∈ txids ↔ txid ∈ a.elems ∧ txid ∉ b.elems := by
  have hdecode := (decodeDifference_createSketch ha hb (state.record peer).currentCapacity cb).mpr
    ⟨rfl, (length_xorSorted h).le.trans hle⟩
  subst hknown
  refine ⟨sortList (state.knownSet.minus b), ?_, ?_, fun txid => ?_⟩
  · simp only [ReconciliationState.reconcileAt, hdecode, exclusive_eq h]
  · exact ascending_sortList (state.knownSet.nodup.filter _)
  · rw [(sortList_perm _).mem_iff, TxidSet.minus, mem_filter, decide_eq_true_eq]

end

/-- **Reconciliation is exact.** Decoding succeeds, on either side, iff the symmetric
difference is within both clamped capacities; and then each side's round returns exactly
what the other side lacks, in ascending order. -/
theorem erlay_reconciliation_exact (a b : TxidSet) (hdistinct : DistinctShortIds a b)
    (ha : a.elems.length < 2 ^ 32) (hb : b.elems.length < 2 ^ 32) (ca cb : Nat) :
    ((∃ difference, decodeDifference (createSketch a ca) (createSketch b cb) = .ok difference) ↔
      differenceSize a b ≤ min (clampCapacity ca) (clampCapacity cb)) ∧
    ((∃ difference, decodeDifference (createSketch b cb) (createSketch a ca) = .ok difference) ↔
      differenceSize a b ≤ min (clampCapacity ca) (clampCapacity cb)) ∧
    (differenceSize a b ≤ min (clampCapacity ca) (clampCapacity cb) →
      ∀ (sa sb : ReconciliationState) (peerOfA peerOfB : NodeId) (nowA nowB : Instant),
        sa.knownSet = a → (sa.record peerOfA).currentCapacity = ca →
        sb.knownSet = b → (sb.record peerOfB).currentCapacity = cb →
        (∃ txids, (sa.reconcileAt peerOfA (createSketch b cb) nowA).1 = .ok txids ∧
          Ascending txids ∧ ∀ txid, txid ∈ txids ↔ txid ∈ a.elems ∧ txid ∉ b.elems) ∧
        ∃ txids, (sb.reconcileAt peerOfB (createSketch a ca) nowB).1 = .ok txids ∧
          Ascending txids ∧ ∀ txid, txid ∈ txids ↔ txid ∈ b.elems ∧ txid ∉ a.elems) := by
  have hsymm : differenceSize b a = differenceSize a b := Nat.add_comm _ _
  have hother := decodeDifference_ok_iff hdistinct.symm hb ha cb ca
  rw [hsymm, min_comm] at hother
  refine ⟨decodeDifference_ok_iff hdistinct ha hb ca cb, hother, ?_⟩
  intro hle sa sb peerOfA peerOfB nowA nowB hsa hca hsb hcb
  refine ⟨reconcileAt_ok hdistinct ha hb hsa (hca ▸ hle), ?_⟩
  refine reconcileAt_ok hdistinct.symm hb ha hsb ?_
  rw [hsymm, hcb, min_comm]
  exact hle

/-! ### Numbered transactions -/

/-- An id whose short id is a given number. -/
def numberedTxid (n : Nat) : Digest :=
  ⟨(toBeBytes (UInt64.ofNat n) ++ List.replicate 24 0).toArray, by simp⟩

theorem shortId_numberedTxid {n : Nat} (hpos : 0 < n) (hlt : n < 2 ^ 64) :
    shortId (numberedTxid n) = some (UInt64.ofNat n) := by
  have htake : (numberedTxid n).toList.take 8 = toBeBytes (UInt64.ofNat n) := by
    have hlist : (numberedTxid n).toList = toBeBytes (UInt64.ofNat n) ++ List.replicate 24 0 := by
      simp [numberedTxid]
    rw [hlist, take_left' (length_toBeBytes _)]
  have hne : UInt64.ofNat n ≠ 0 := by
    intro hzero
    have hnat := congrArg UInt64.toNat hzero
    rw [UInt64.toNat_ofNat', UInt64.toNat_zero, Nat.mod_eq_of_lt hlt] at hnat
    omega
  simp only [shortId, htake, fromBeBytes_toBeBytes, if_pos hne]

theorem shortId_numberedTxid_inj {m n : Nat} (hm : 0 < m) (hm' : m < 2 ^ 64) (hn : 0 < n)
    (hn' : n < 2 ^ 64) (h : shortId (numberedTxid m) = shortId (numberedTxid n)) : m = n := by
  rw [shortId_numberedTxid hm hm', shortId_numberedTxid hn hn'] at h
  have hnat := congrArg UInt64.toNat (Option.some.inj h)
  rwa [UInt64.toNat_ofNat', UInt64.toNat_ofNat', Nat.mod_eq_of_lt hm', Nat.mod_eq_of_lt hn'] at hnat

/-- The set of the ids numbered from `first` on. -/
def numberedSet (first count : Nat) (hpos : 0 < first) (hend : first + count ≤ 2 ^ 64) : TxidSet where
  elems := (List.range' first count).map numberedTxid
  nodup := by
    refine List.Nodup.map_on (fun m hm n hn h => ?_) nodup_range'
    rw [mem_range'_1] at hm hn
    exact shortId_numberedTxid_inj (by omega) (by omega) (by omega) (by omega)
      (congrArg shortId h)

theorem mem_numberedSet {first count : Nat} {hpos : 0 < first} {hend : first + count ≤ 2 ^ 64}
    {txid : Digest} : txid ∈ (numberedSet first count hpos hend).elems ↔
      ∃ n, (first ≤ n ∧ n < first + count) ∧ numberedTxid n = txid := by
  simp only [numberedSet, mem_map, mem_range'_1]

theorem distinct_numberedSets {first count first' count' : Nat} (hpos : 0 < first)
    (hend : first + count ≤ 2 ^ 64) (hpos' : 0 < first') (hend' : first' + count' ≤ 2 ^ 64) :
    DistinctShortIds (numberedSet first count hpos hend) (numberedSet first' count' hpos' hend') := by
  have hnumber : ∀ txid ∈ (numberedSet first count hpos hend).elems ++
      (numberedSet first' count' hpos' hend').elems,
      ∃ n, 0 < n ∧ n < 2 ^ 64 ∧ numberedTxid n = txid := by
    intro txid h
    rcases mem_append.mp h with h | h
    · obtain ⟨n, hn, rfl⟩ := mem_numberedSet.mp h
      exact ⟨n, by omega, by omega, rfl⟩
    · obtain ⟨n, hn, rfl⟩ := mem_numberedSet.mp h
      exact ⟨n, by omega, by omega, rfl⟩
  refine ⟨fun txid h => ?_, fun txid h other h' heq => ?_⟩
  · obtain ⟨n, hn, hn', rfl⟩ := hnumber txid h
    rw [shortId_numberedTxid hn hn']
    rfl
  · obtain ⟨m, hm, hm', rfl⟩ := hnumber txid h
    obtain ⟨n, hn, hn', rfl⟩ := hnumber other h'
    rw [shortId_numberedTxid_inj hm hm' hn hn' heq]

/-- Of two ranges of numbers one after the other, neither set has anything of the other. -/
theorem differenceSize_numberedSets {first count count' : Nat} (hpos : 0 < first)
    (hend : first + count ≤ 2 ^ 64) (hpos' : 0 < first + count)
    (hend' : first + count + count' ≤ 2 ^ 64) :
    differenceSize (numberedSet first count hpos hend)
      (numberedSet (first + count) count' hpos' hend') = count + count' := by
  have hdisjoint : ∀ txid, txid ∈ (numberedSet first count hpos hend).elems →
      txid ∉ (numberedSet (first + count) count' hpos' hend').elems := by
    rintro txid h h'
    obtain ⟨m, hm, rfl⟩ := mem_numberedSet.mp h
    obtain ⟨n, hn, heq⟩ := mem_numberedSet.mp h'
    have := shortId_numberedTxid_inj (by omega) (by omega) (by omega) (by omega)
      (congrArg shortId heq)
    omega
  rw [differenceSize, TxidSet.minus, TxidSet.minus, filter_eq_self.mpr, filter_eq_self.mpr]
  · simp [numberedSet]
  · intro txid h
    simpa using fun h' => hdisjoint txid h' h
  · intro txid h
    simpa using hdisjoint txid h

/-- Two sets of one transaction each, with the initial capacities. -/
theorem erlay_two_transactions :
    ∃ difference, decodeDifference
      (createSketch (numberedSet 1 1 (by decide) (by decide)) INITIAL_SKETCH_CAPACITY)
      (createSketch (numberedSet 2 1 (by decide) (by decide)) INITIAL_SKETCH_CAPACITY) =
        .ok difference := by
  refine (erlay_reconciliation_exact (numberedSet 1 1 (by decide) (by decide))
    (numberedSet 2 1 (by decide) (by decide)) (distinct_numberedSets _ _ _ _) (by decide)
    (by decide) INITIAL_SKETCH_CAPACITY INITIAL_SKETCH_CAPACITY).1.mpr ?_
  rw [differenceSize_numberedSets (by decide) (by decide) (by decide) (by decide)]
  decide

/-- With capacities that do not fit in 32 bits, a difference within both of them cannot be
decoded: the sketch has room for `u32::MAX` only. -/
theorem erlay_capacity_truncated :
    ∃ a b : TxidSet, ∃ ca cb : Nat, DistinctShortIds a b ∧ a.elems.length < 2 ^ 32 ∧
      b.elems.length < 2 ^ 32 ∧ differenceSize a b ≤ min (max ca 1) (max cb 1) ∧
      ¬ ∃ difference, decodeDifference (createSketch a ca) (createSketch b cb) = .ok difference := by
  have hlength : ∀ first count hpos hend,
      (numberedSet first count hpos hend).elems.length = count := by
    intro first count hpos hend
    rw [numberedSet, length_map, length_range']
  have hsize := @differenceSize_numberedSets 1 U32_MAX 1 (by decide) (by decide) (by decide) (by decide)
  have hdistinct := @distinct_numberedSets 1 U32_MAX (1 + U32_MAX) 1 (by decide) (by decide)
    (by decide) (by decide)
  refine ⟨_, _, 2 ^ 32, 2 ^ 32, hdistinct, ?_, ?_, ?_, ?_⟩
  · rw [hlength]
    decide
  · rw [hlength]
    decide
  · rw [hsize]
    decide
  · rw [decodeDifference_ok_iff hdistinct (by rw [hlength]; decide) (by rw [hlength]; decide), hsize]
    decide

/-! ### Growing capacities -/

/-- A record with `k` failed rounds in a row behind it. -/
def PeerReconciliation.Grown (k : Nat) (record : PeerReconciliation) : Prop :=
  record.consecutiveFailures = k % 2 ∧
    min (2 ^ (k / 2)) MAX_SKETCH_CAPACITY ≤ record.currentCapacity

theorem PeerReconciliation.Grown.fail {k : Nat} {record : PeerReconciliation}
    (h : record.Grown k) : record.fail.Grown (k + 1) := by
  obtain ⟨hfailures, hcapacity⟩ := h
  have hpow : 2 ^ (k / 2 + 1) = 2 ^ (k / 2) * 2 := pow_succ 2 _
  unfold PeerReconciliation.fail Grown
  simp only [hfailures, CAPACITY_GROW_FAILURES, MAX_SKETCH_CAPACITY, U32_MAX] at hcapacity ⊢
  rcases Nat.mod_two_eq_zero_or_one k with heven | hodd
  · rw [if_neg (by omega), show (k + 1) / 2 = k / 2 by omega]
    exact ⟨by dsimp only; omega, hcapacity⟩
  · rw [if_pos (by omega), show (k + 1) / 2 = k / 2 + 1 by omega, hpow]
    exact ⟨by dsimp only; omega, by dsimp only; omega⟩

/-- One side of a reconciliation. -/
structure Reconciler where
  state : ReconciliationState
  peer : NodeId

namespace Reconciler

def capacity (node : Reconciler) : Nat := (node.state.record node.peer).currentCapacity

/-- One round, against the sketch that the other side has built. -/
def round (node other : Reconciler) (now : Instant) : Except NetError (List Digest) × Reconciler :=
  let (outcome, state) := node.state.reconcileAt node.peer
    (createSketch other.state.knownSet other.capacity) now
  (outcome, { node with state := state })

/-- The two sides after `n` rounds. -/
def rounds (now : Nat → Instant) (node other : Reconciler) : Nat → Reconciler × Reconciler
  | 0 => (node, other)
  | n + 1 =>
    let (node, other) := rounds now node other n
    ((node.round other (now n)).2, (other.round node (now n)).2)

/-- After `n` failed rounds: the set is as it was, the capacity has grown. -/
structure Failed (set : TxidSet) (n : Nat) (node : Reconciler) : Prop where
  known : node.state.knownSet = set
  grown : (node.state.record node.peer).Grown n

variable {a b : TxidSet} {node other : Reconciler} {n : Nat} (hdistinct : DistinctShortIds a b)
  (ha : a.elems.length < 2 ^ 32) (hb : b.elems.length < 2 ^ 32)

include hdistinct ha hb in
/-- **One more failed round.** -/
theorem Failed.round (hnode : node.Failed a n) (hother : other.Failed b n) {now : Instant}
    (hnot : ¬ differenceSize a b ≤
      min (clampCapacity node.capacity) (clampCapacity other.capacity)) :
    (node.round other now).2.Failed a (n + 1) := by
  obtain ⟨rfl, hgrown⟩ := hnode
  obtain ⟨rfl, -⟩ := hother
  have hfail := mt (decodeDifference_ok_iff hdistinct ha hb node.capacity other.capacity).mp hnot
  unfold Reconciler.round ReconciliationState.reconcileAt
  dsimp only
  split
  · rename_i difference hok
    exact absurd ⟨difference, hok⟩ hfail
  · refine ⟨rfl, ?_⟩
    rw [ReconciliationState.record, HashMap.get?_insert, if_pos rfl]
    exact PeerReconciliation.Grown.fail hgrown

theorem Failed.max_le (h : node.Failed a 28) :
    MAX_SKETCH_CAPACITY ≤ clampCapacity node.capacity := by
  have hgrown : min (2 ^ 14) MAX_SKETCH_CAPACITY ≤ node.capacity := h.grown.2
  simp only [clampCapacity, MAX_SKETCH_CAPACITY, U32_MAX] at hgrown ⊢
  omega

/-- A node that starts with the initial capacity. -/
def starting (set : TxidSet) : Reconciler :=
  ⟨⟨set, 0, none, ∅, ⟨60, 1000, INITIAL_SKETCH_CAPACITY⟩⟩, zeroDigest⟩

theorem failed_starting (set : TxidSet) : (starting set).Failed set 0 :=
  ⟨rfl, rfl, (Nat.min_le_left 1 _).trans (by decide : 1 ≤ INITIAL_SKETCH_CAPACITY)⟩

end Reconciler

end Strangecoin
