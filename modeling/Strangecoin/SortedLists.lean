import Mathlib

/-! # Ascending lists

Lists in strictly ascending order of a comparison: how sorting and removing neighbours
that are equal lead to one, that such a list is determined by its elements, which of its
elements are among the first `n`, and the merge of two of them that keeps what only one
of them has.
-/
namespace Strangecoin
open List Std

section
variable {α : Type} [Ord α]

/-- Every element is smaller than every later one. -/
def Ascending (xs : List α) : Prop := xs.Pairwise fun a b => compare a b = .lt

/-- `sort` in the order of `compare`. -/
def sortList (xs : List α) : List α := xs.mergeSort fun a b => (compare a b).isLE

/-- `Vec::dedup`: of equal neighbours one is left. -/
def dedupList [DecidableEq α] : List α → List α
  | [] => []
  | [a] => [a]
  | a :: b :: xs => if a = b then dedupList (b :: xs) else a :: dedupList (b :: xs)

/-- What is in one of two ascending lists and not in the other, in order: one cursor for
each list, and the smaller head goes out unless both are equal. -/
def xorSorted : List α → List α → List α
  | [], bs => bs
  | as, [] => as
  | a :: as, b :: bs =>
    match compare a b with
    | .lt => a :: xorSorted as (b :: bs)
    | .gt => b :: xorSorted (a :: as) bs
    | .eq => xorSorted as bs
termination_by as bs => as.length + bs.length

variable {xs : List α}

theorem sortList_perm (xs : List α) : (sortList xs).Perm xs := mergeSort_perm _ _

theorem mem_dedupList {α : Type} [DecidableEq α] {xs : List α} {a : α} :
    a ∈ dedupList xs ↔ a ∈ xs := by
  fun_induction dedupList xs with
  | case1 => exact Iff.rfl
  | case2 b => exact Iff.rfl
  | case3 b xs ih =>
    rw [ih]
    simp
  | case4 b c xs hne ih => rw [mem_cons, ih, ← mem_cons]

variable [TransOrd α]

theorem compare_self_eq (a : α) : compare a a = .eq := ReflCmp.compare_self

theorem not_mem_of_forall_lt {a : α} (h : ∀ b ∈ xs, compare a b = .lt) : a ∉ xs := by
  intro hmem
  have hself := h a hmem
  rw [compare_self_eq] at hself
  cases hself

theorem Ascending.nodup (h : Ascending xs) : xs.Nodup := by
  refine List.Pairwise.imp ?_ h
  rintro a b hlt rfl
  rw [compare_self_eq] at hlt
  cases hlt

theorem Ascending.lt_of_cons {a b : α} {bs : List α} (h : Ascending (b :: bs))
    (hab : compare a b = .lt) : ∀ x ∈ b :: bs, compare a x = .lt := by
  intro x hx
  rcases mem_cons.mp hx with rfl | hx
  · exact hab
  · exact Std.TransCmp.lt_trans hab ((pairwise_cons.mp h).1 x hx)

/-! ### Sorting -/

theorem pairwise_sortList (xs : List α) :
    (sortList xs).Pairwise fun a b => (compare a b).isLE := by
  refine pairwise_mergeSort ?_ (fun a b => ?_) xs
  · intro a b c hab hbc
    exact Std.TransCmp.isLE_trans hab hbc
  · cases hab : compare a b with
    | lt => rfl
    | eq => rfl
    | gt =>
      have hba := Std.OrientedCmp.lt_of_gt hab
      simp [hba]

variable [LawfulEqOrd α]

omit [TransOrd α] in
theorem lt_or_eq_of_isLE {a b : α} (h : (compare a b).isLE) : compare a b = .lt ∨ a = b := by
  cases hab : compare a b with
  | lt => exact .inl rfl
  | eq => exact .inr (LawfulEqCmp.eq_of_compare hab)
  | gt =>
    rw [hab] at h
    cases h

/-- A list without duplicates is ascending once it is sorted. -/
theorem ascending_sortList (h : xs.Nodup) : Ascending (sortList xs) := by
  have hnodup : (sortList xs).Nodup := (sortList_perm xs).nodup_iff.mpr h
  refine List.Pairwise.imp ?_ ((pairwise_sortList xs).and hnodup)
  rintro a b ⟨hle, hne⟩
  exact (lt_or_eq_of_isLE hle).resolve_right hne

theorem ascending_dedupList [DecidableEq α] (h : xs.Pairwise fun a b => (compare a b).isLE) :
    Ascending (dedupList xs) := by
  fun_induction dedupList xs with
  | case1 => exact List.Pairwise.nil
  | case2 b => exact pairwise_singleton _ _
  | case3 b xs ih => exact ih (pairwise_cons.mp h).2
  | case4 b c xs hne ih =>
    obtain ⟨hb, hrest⟩ := pairwise_cons.mp h
    refine pairwise_cons.mpr ⟨fun x hx => ?_, ih hrest⟩
    -- the first element is below its neighbour, which is at most every later one
    have hbc := (lt_or_eq_of_isLE (hb c (by simp))).resolve_right hne
    rcases mem_cons.mp (mem_dedupList.mp hx) with rfl | hmem
    · exact hbc
    · exact Std.TransCmp.lt_of_lt_of_isLE hbc ((pairwise_cons.mp hrest).1 x hmem)

/-! ### The first elements -/

/-- In an ascending list the elements among the first `n` are those with fewer than `n`
elements before them. -/
theorem mem_take_iff_of_ascending (hordered : Ascending xs) {a : α} (ha : a ∈ xs) (n : Nat) :
    a ∈ xs.take n ↔ (xs.filter fun b => compare b a = .lt).length < n := by
  induction xs generalizing n with
  | nil => cases ha
  | cons x xs ih =>
    obtain ⟨hx, hxs⟩ := pairwise_cons.mp hordered
    cases n with
    | zero => simp
    | succ n =>
      rw [take_succ_cons, mem_cons]
      by_cases heq : a = x
      · subst heq
        have hnone : (a :: xs).filter (fun b => compare b a = .lt) = [] := by
          refine filter_eq_nil_iff.mpr fun b hb => ?_
          rcases mem_cons.mp hb with rfl | hb
          · simp
          · have hgt := Std.OrientedCmp.gt_of_lt (hx b hb)
            simp [hgt]
        rw [hnone]
        simp
      · have hmem : a ∈ xs := (mem_cons.mp ha).resolve_left heq
        have hlt : compare x a = .lt := hx a hmem
        rw [filter_cons_of_pos (by simpa using hlt), length_cons, Nat.succ_lt_succ_iff]
        simp only [heq, false_or]
        exact ih hxs hmem n

/-! ### The symmetric difference -/

theorem mem_xorSorted {as bs : List α} (ha : Ascending as) (hb : Ascending bs) {x : α} :
    x ∈ xorSorted as bs ↔ x ∈ as ∧ x ∉ bs ∨ x ∈ bs ∧ x ∉ as := by
  fun_induction xorSorted as bs with
  | case1 bs => simp
  | case2 as _ => simp
  | case3 a as b bs hlt ih =>
    have hnot := not_mem_of_forall_lt (hb.lt_of_cons hlt)
    obtain ⟨ha', hasc⟩ := pairwise_cons.mp ha
    rw [mem_cons, ih hasc hb, mem_cons (a := x) (b := a)]
    by_cases hx : x = a
    · subst hx
      simp [hnot]
    · simp [hx]
  | case4 a as b bs hgt ih =>
    have hnot := not_mem_of_forall_lt (ha.lt_of_cons (Std.OrientedCmp.lt_of_gt hgt))
    obtain ⟨hb', hbsc⟩ := pairwise_cons.mp hb
    rw [mem_cons, ih ha hbsc, mem_cons (a := x) (b := b)]
    by_cases hx : x = b
    · subst hx
      simp [hnot]
    · simp [hx]
  | case5 a as b bs heq ih =>
    obtain rfl := LawfulEqCmp.eq_of_compare heq
    obtain ⟨ha', hasc⟩ := pairwise_cons.mp ha
    obtain ⟨hb', hbsc⟩ := pairwise_cons.mp hb
    rw [ih hasc hbsc]
    by_cases hx : x = a
    · subst hx
      simp [not_mem_of_forall_lt ha', not_mem_of_forall_lt hb']
    · simp [hx]

theorem ascending_xorSorted {as bs : List α} (ha : Ascending as) (hb : Ascending bs) :
    Ascending (xorSorted as bs) := by
  fun_induction xorSorted as bs with
  | case1 bs => exact hb
  | case2 as _ => exact ha
  | case3 a as b bs hlt ih =>
    obtain ⟨ha', hasc⟩ := pairwise_cons.mp ha
    refine pairwise_cons.mpr ⟨fun x hx => ?_, ih hasc hb⟩
    rcases (mem_xorSorted hasc hb).mp hx with ⟨hx, -⟩ | ⟨hx, -⟩
    · exact ha' x hx
    · exact hb.lt_of_cons hlt x hx
  | case4 a as b bs hgt ih =>
    obtain ⟨hb', hbsc⟩ := pairwise_cons.mp hb
    refine pairwise_cons.mpr ⟨fun x hx => ?_, ih ha hbsc⟩
    rcases (mem_xorSorted ha hbsc).mp hx with ⟨hx, -⟩ | ⟨hx, -⟩
    · exact ha.lt_of_cons (Std.OrientedCmp.lt_of_gt hgt) x hx
    · exact hb' x hx
  | case5 a as b bs heq ih =>
    exact ih (pairwise_cons.mp ha).2 (pairwise_cons.mp hb).2

end

end Strangecoin
