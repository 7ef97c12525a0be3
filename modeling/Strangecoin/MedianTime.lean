import Strangecoin.Retarget

/-! # Median time past

The time of a block has to be later than the median of the times of the eleven blocks
before it, or of all of them as long as there are fewer.  From one height to the next a time
above the median enters the window and at most one leaves it, so no more elements are below
the old median than before, and the median does not go back.
-/
namespace Strangecoin
open List

/-! ### Ranks by counting -/

section
variable {α : Type} {key : α → Nat}

/-- In a sorted list an element is at least `v` exactly if at most as many elements as its
rank are below `v`. -/
theorem countP_le_iff {xs : List α} (hsorted : xs.Pairwise fun a b => key a ≤ key b) {j : Nat}
    {m : α} (hm : xs[j]? = some m) (v : Nat) : xs.countP (key · < v) ≤ j ↔ v ≤ key m := by
  induction xs generalizing j with
  | nil => exact absurd hm (by simp)
  | cons x xs ih =>
    obtain ⟨hx, hxs⟩ := pairwise_cons.mp hsorted
    rw [countP_cons]
    cases j with
    | zero =>
      obtain rfl := Option.some.inj hm
      by_cases hlt : key x < v
      · rw [if_pos (decide_eq_true hlt)]
        omega
      · have hnone : xs.countP (key · < v) = 0 := by
          rw [countP_eq_zero]
          intro a ha
          have hle := hx a ha
          simp only [decide_eq_true_eq]
          omega
        rw [if_neg (by simpa using hlt), hnone]
        omega
    | succ j =>
      have hm : xs[j]? = some m := hm
      have hle := hx m (mem_of_getElem? hm)
      have hrest := ih hxs hm
      by_cases hlt : key x < v
      · rw [if_pos (decide_eq_true hlt), ← hrest]
        omega
      · rw [if_neg (by simpa using hlt)]
        omega

end

/-! ### The window -/

/-- The times that the median at a height is taken of. -/
def timeWindow (chain : List Block) (height : Nat) : List UInt64 :=
  ((chain.take height).drop (height - 11)).map Block.timestamp

/-- The median at a height of a chain. -/
def medianAt (chain : List Block) (height : Nat) : Except Failure UInt64 :=
  medianTimePast (chain.take height) (UInt64.ofNat height)

/-- The blocks are numbered from zero, and every block but the first passed the check of its
time against the blocks before it, with any clock. -/
structure TimedChain (chain : List Block) : Prop where
  index : ∀ (i : Nat) (block : Block), chain[i]? = some block → block.index.toNat = i
  times : ∀ (i : Nat) (block : Block), chain[i]? = some block → 0 < i →
    ∃ now, validateTimestamp block (chain.take i) now = .ok ()

section
variable {chain : List Block}

variable {height : Nat}

theorem length_timeWindow (hle : height ≤ chain.length) :
    (timeWindow chain height).length = min height 11 := by
  rw [timeWindow, length_map, length_drop, length_take]
  omega

theorem medianAt_eq (hpos : 0 < height) (hle : height ≤ chain.length) (hlt : height < 2 ^ 64) :
    ∃ m, medianAt chain height = .ok m ∧
      ((timeWindow chain height).insertionSort (· ≤ ·))[min height 11 / 2]? = some m := by
  have hnat : (UInt64.ofNat height).toNat = height := UInt64.toNat_ofNat_of_lt' hlt
  have hne : UInt64.ofNat height ≠ 0 := by
    intro hzero
    rw [hzero, UInt64.toNat_zero] at hnat
    omega
  have hstart : (saturatingSub (UInt64.ofNat height) MEDIAN_TIME_WINDOW).toNat = height - 11 := by
    rw [toNat_saturatingSub, hnat]
    rfl
  have hlength : ((timeWindow chain height).insertionSort (· ≤ ·)).length = min height 11 := by
    rw [length_insertionSort, length_timeWindow hle]
  obtain ⟨m, hget⟩ : ∃ m, ((timeWindow chain height).insertionSort (· ≤ ·))[min height 11 / 2]? =
      some m := ⟨_, getElem?_eq_getElem (by omega)⟩
  refine ⟨m, ?_, hget⟩
  rw [medianAt, medianTimePast, if_neg hne]
  dsimp only
  rw [hstart, if_neg (by rw [length_take]; omega)]
  rw [← timeWindow, hlength, hget]

/-- From one height to the next the time of one block enters, and at most one time leaves. -/
theorem timeWindow_succ {block : Block} (hblock : chain[height]? = some block) :
    ∃ n, timeWindow chain (height + 1) = (timeWindow chain height).drop n ++ [block.timestamp] := by
  obtain ⟨hlt, -⟩ := List.getElem?_eq_some_iff.mp hblock
  refine ⟨height + 1 - 11 - (height - 11), ?_⟩
  have hdrop : height + 1 - 11 ≤ (chain.take height).length := by
    rw [length_take]
    omega
  rw [timeWindow, timeWindow, take_add_one, hblock, Option.toList_some,
    drop_append_of_le_length hdrop, map_append, ← map_drop, drop_drop,
    Nat.add_sub_of_le (by omega)]
  rfl

theorem medianAt_lt_timestamp (h : TimedChain chain) {block : Block}
    (hblock : chain[height]? = some block) (hpos : 0 < height) :
    ∃ m, medianAt chain height = .ok m ∧ m < block.timestamp := by
  obtain ⟨now, hnow⟩ := h.times height block hblock hpos
  have hindex := h.index height block hblock
  have hheight : block.index = UInt64.ofNat height := by
    rw [← hindex, UInt64.ofNat_toNat]
  have hne : ¬ block.index = 0 := by
    intro hzero
    rw [hzero, UInt64.toNat_zero] at hindex
    omega
  rw [validateTimestamp, if_neg hne] at hnow
  obtain ⟨m, hm, hnow⟩ := bind_eq_ok.mp hnow
  obtain ⟨_, hlater, -⟩ := bind_eq_ok.mp hnow
  rw [liftCore_eq_ok, guardWith_eq_ok] at hlater
  rw [hheight] at hm
  exact ⟨m, hm, hlater⟩

theorem pairwise_timeWindow (height : Nat) :
    ((timeWindow chain height).insertionSort (· ≤ ·)).Pairwise
      fun a b => a.toNat ≤ b.toNat :=
  (pairwise_insertionSort (· ≤ ·) _).imp UInt64.le_iff_toNat_le.mp

/-- One height: below the old median there are no more times than before. -/
theorem medianAt_succ (h : TimedChain chain) (hpos : 0 < height) (hlt : height < chain.length)
    (hbound : height + 1 < 2 ^ 64) :
    ∃ m m', medianAt chain height = .ok m ∧ medianAt chain (height + 1) = .ok m' ∧ m ≤ m' := by
  have hblock := getElem?_eq_getElem hlt
  obtain ⟨m, hm, hrank⟩ := medianAt_eq hpos hlt.le (Nat.lt_of_succ_lt hbound)
  obtain ⟨m', hm', hrank'⟩ := medianAt_eq (Nat.succ_pos height) hlt hbound
  refine ⟨m, m', hm, hm', UInt64.le_iff_toNat_le.mpr ?_⟩
  have hlater : m < chain[height].timestamp := by
    obtain ⟨_, hsame, hlater⟩ := medianAt_lt_timestamp h hblock hpos
    rwa [Except.ok.inj (hm.symm.trans hsame)]
  have hold := (countP_le_iff (pairwise_timeWindow height) hrank m.toNat).mpr le_rfl
  rw [(perm_insertionSort _ _).countP_eq] at hold
  refine (countP_le_iff (pairwise_timeWindow (height + 1)) hrank' m.toNat).mp ?_
  rw [(perm_insertionSort _ _).countP_eq]
  obtain ⟨n, hwindow⟩ := timeWindow_succ hblock
  have hentered : [chain[height].timestamp].countP (fun t => t.toNat < m.toNat) = 0 := by
    rw [UInt64.lt_iff_toNat_lt] at hlater
    rw [countP_singleton, if_neg (by simpa using hlater.le)]
  have hleft := (drop_sublist n (timeWindow chain height)).countP_le
    (p := fun t => t.toNat < m.toNat)
  rw [hwindow, countP_append, hentered]
  omega

theorem medianAt_mono (h : TimedChain chain) (hpos : 0 < height) (n : Nat)
    (hle : height + n ≤ chain.length) (hbound : height + n < 2 ^ 64) :
    ∃ m m', medianAt chain height = .ok m ∧ medianAt chain (height + n) = .ok m' ∧ m ≤ m' := by
  induction n with
  | zero =>
    obtain ⟨m, hm, -⟩ := medianAt_eq hpos hle hbound
    exact ⟨m, m, hm, hm, UInt64.le_refl m⟩
  | succ n ih =>
    obtain ⟨m, mid, hm, hmid, hfirst⟩ := ih (by omega) (by omega)
    have hpos' : 0 < height + n := Nat.add_pos_left hpos n
    obtain ⟨mid', m', hmid', hm', hlast⟩ := medianAt_succ h hpos' (by omega) (by omega)
    obtain rfl := Except.ok.inj (hmid.symm.trans hmid')
    exact ⟨m, m', hm, hm', UInt64.le_trans hfirst hlast⟩

/-- **Median time past never goes back.**  From one height to the next the median does not
decrease, and the time of every block is later than the median of every height up to its
own. -/
theorem median_time_past_monotone (h : TimedChain chain) :
    (∀ height, 1 ≤ height → height < chain.length → height + 1 < 2 ^ 64 →
      ∃ m m', medianAt chain height = .ok m ∧ medianAt chain (height + 1) = .ok m' ∧ m ≤ m') ∧
    ∀ (k : Nat) (block : Block), chain[k]? = some block → 0 < k → ∀ height ≤ k,
      ∃ m, medianAt chain height = .ok m ∧ m < block.timestamp := by
  refine ⟨fun height hpos hlt hbound => medianAt_succ h hpos hlt hbound, ?_⟩
  intro k block hblock hpos height hle
  obtain ⟨hlt, -⟩ := List.getElem?_eq_some_iff.mp hblock
  have hbound : k < 2 ^ 64 := by
    have hindex := block.index.toNat_lt
    rwa [h.index k block hblock] at hindex
  obtain ⟨last, hlast, hlater⟩ := medianAt_lt_timestamp h hblock hpos
  rcases Nat.eq_zero_or_pos height with rfl | hheight
  · -- At height zero the median is zero.
    refine ⟨0, rfl, UInt64.lt_iff_toNat_lt.mpr ?_⟩
    exact Nat.zero_lt_of_lt (UInt64.lt_iff_toNat_lt.mp hlater)
  · obtain ⟨m, m', hm, hm', hmono⟩ := medianAt_mono h hheight (k - height) (by omega) (by omega)
    rw [Nat.add_sub_of_le hle] at hm'
    obtain rfl := Except.ok.inj (hm'.symm.trans hlast)
    exact ⟨m, hm, UInt64.lt_of_le_of_lt hmono hlater⟩

end

/-- A chain of two blocks, the second at the time one. -/
def timedPair : List Block :=
  [timedBlock maxTarget 0, { timedBlock maxTarget 1 with index := 1 }]

theorem median_time_past_pair :
    ∃ m, medianAt timedPair 1 = .ok m ∧ m < 1 := by
  have htimed : TimedChain timedPair := by
    refine ⟨fun i block hblock => ?_, fun i block hblock hpos => ?_⟩
    · match i with
      | 0 => obtain rfl := Option.some.inj hblock; rfl
      | 1 => obtain rfl := Option.some.inj hblock; rfl
      | i + 2 => exact absurd hblock (by simp [timedPair])
    · match i with
      | 1 =>
        obtain rfl := Option.some.inj hblock
        exact ⟨0, by decide⟩
      | i + 2 => exact absurd hblock (by simp [timedPair])
  exact (median_time_past_monotone htimed).2 1 _ rfl Nat.one_pos 1 le_rfl

end Strangecoin
