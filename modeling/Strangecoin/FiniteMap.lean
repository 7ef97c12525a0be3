import Mathlib

/-! # Finite maps

A hash map is used here only through lookup, insertion, removal and iteration,
and two hash maps are equal when they hold the same entries.  `HashMap` is the
extensional tree map of the standard library, which has exactly that equality
and still computes.  Its iteration order is the key order; where an algorithm
iterates, its result is shown not to depend on that.

The **weight** of a map is the sum of a quantity over its entries.
-/
namespace Strangecoin
open List Std

/-- A finite map with extensional equality. -/
abbrev HashMap (K V : Type) [Ord K] := ExtTreeMap K V compare

namespace HashMap
variable {K V : Type} [Ord K] [TransOrd K] [LawfulEqOrd K]

@[simp] theorem get?_insert [DecidableEq K] (m : HashMap K V) (k a : K) (v : V) :
    (m.insert k v)[a]? = if a = k then some v else m[a]? := by
  rw [ExtTreeMap.getElem?_insert]
  by_cases h : a = k
  · subst h; simp
  · have h' : compare k a ≠ .eq := fun e => h (LawfulEqCmp.eq_of_compare e).symm
    simp [h, h']

@[simp] theorem get?_erase [DecidableEq K] (m : HashMap K V) (k a : K) :
    (m.erase k)[a]? = if a = k then none else m[a]? := by
  rw [ExtTreeMap.getElem?_erase]
  by_cases h : a = k
  · subst h; simp
  · have h' : compare k a ≠ .eq := fun e => h (LawfulEqCmp.eq_of_compare e).symm
    simp [h, h']

theorem ext_get? {m m' : HashMap K V} (h : ∀ k : K, m[k]? = m'[k]?) : m = m' :=
  ExtTreeMap.ext_getElem? h

/-- Erasing an absent key does nothing. -/
theorem erase_of_none [DecidableEq K] {m : HashMap K V} {k : K} (h : m[k]? = none) :
    m.erase k = m := by
  apply ext_get?
  intro a
  rw [get?_erase]
  split
  · subst_vars; exact h.symm
  · rfl

/-- Writing back what is already there does nothing. -/
theorem insert_of_get? [DecidableEq K] {m : HashMap K V} {k : K} {v : V} (h : m[k]? = some v) :
    m.insert k v = m := by
  apply ext_get?
  intro a
  rw [get?_insert]
  split
  · subst_vars; exact h.symm
  · rfl

theorem nodup_toList (m : HashMap K V) : m.toList.Nodup := by
  have h := ExtTreeMap.distinct_keys_toList (t := m)
  refine h.imp ?_
  intro a b hab he
  exact hab (by rw [he]; exact ReflCmp.compare_self)

/-! ### The weight of a map -/

/-- The sum of `f` over the entries of a map. -/
def weight (f : V → Nat) (m : HashMap K V) : Nat := (m.toList.map (fun e => f e.2)).sum

theorem toList_insert_perm [DecidableEq K] (m : HashMap K V) (k : K) (v : V) :
    (m.insert k v).toList.Perm ((k, v) :: (m.erase k).toList) := by
  have hfresh : (k, v) ∉ (m.erase k).toList := by
    rw [ExtTreeMap.mem_toList_iff_getElem?_eq_some, get?_erase]
    simp
  rw [perm_ext_iff_of_nodup (nodup_toList _) (nodup_cons.mpr ⟨hfresh, nodup_toList _⟩)]
  rintro ⟨a, w⟩
  rw [mem_cons, ExtTreeMap.mem_toList_iff_getElem?_eq_some,
    ExtTreeMap.mem_toList_iff_getElem?_eq_some, get?_insert, get?_erase, Prod.mk.injEq]
  by_cases h : a = k
  · subst h; simp [eq_comm]
  · simp [h]

/-- The weight a key contributes: that of its value, or nothing. -/
def weightAt (f : V → Nat) (m : HashMap K V) (k : K) : Nat := (m[k]?).elim 0 f

theorem weight_erase [DecidableEq K] (f : V → Nat) (m : HashMap K V) (k : K) :
    weight f (m.erase k) + weightAt f m k = weight f m := by
  cases h : m[k]? with
  | none => simp [weightAt, h, erase_of_none h]
  | some v =>
    have hp := (toList_insert_perm m k v).map (fun e => f e.2)
    rw [insert_of_get? h] at hp
    have hs := hp.sum_eq
    rw [map_cons, sum_cons] at hs
    simp only [weight, weightAt, h, Option.elim_some] at hs ⊢
    omega

theorem weight_insert [DecidableEq K] (f : V → Nat) (m : HashMap K V) (k : K) (v : V) :
    weight f (m.insert k v) + weightAt f m k = weight f m + f v := by
  have hs := ((toList_insert_perm m k v).map (fun e => f e.2)).sum_eq
  rw [map_cons, sum_cons] at hs
  have he := weight_erase f m k
  simp only [weight] at hs he ⊢
  omega

theorem weight_eq_sum [DecidableEq K] (f : V → Nat) (m : HashMap K V) :
    weight f m = ∑ k ∈ m.keys.toFinset, weightAt f m k := by
  rw [sum_toFinset _ ExtTreeMap.nodup_keys, ← ExtTreeMap.map_fst_toList_eq_keys,
    map_map, weight]
  refine congrArg List.sum (map_congr_left fun e he => ?_)
  simp [weightAt, ExtTreeMap.mem_toList_iff_getElem?_eq_some.mp he]

/-- A map with less weight at every key has less weight. -/
theorem weight_mono [DecidableEq K] {f : V → Nat} {m m' : HashMap K V}
    (h : ∀ k, weightAt f m k ≤ weightAt f m' k) : weight f m ≤ weight f m' := by
  rw [weight_eq_sum f m, weight_eq_sum f m']
  calc ∑ k ∈ m.keys.toFinset, weightAt f m k
      ≤ ∑ k ∈ m.keys.toFinset, weightAt f m' k := Finset.sum_le_sum fun k _ => h k
    _ ≤ ∑ k ∈ m'.keys.toFinset, weightAt f m' k := by
      refine Finset.sum_le_sum_of_ne_zero fun k _ hk => ?_
      rw [mem_toFinset, ExtTreeMap.mem_keys, ExtTreeMap.mem_iff_isSome_getElem?]
      cases hget : m'[k]? with
      | none => simp [weightAt, hget] at hk
      | some v => rfl

/-! ### Values under their keys -/

/-- The values of a list under their keys; of several with one key the last. -/
def keyed (key : V → K) (xs : List V) : HashMap K V := xs.foldl (fun m x => m.insert (key x) x) ∅

section
variable [DecidableEq K] {key : V → K} {xs : List V}

theorem keyed_append_singleton (key : V → K) (xs : List V) (x : V) :
    keyed key (xs ++ [x]) = (keyed key xs).insert (key x) x := by
  rw [keyed, foldl_append]
  rfl

theorem get?_keyed_eq_none {k : K} (h : k ∉ xs.map key) : (keyed key xs)[k]? = none := by
  induction xs using List.reverseRecOn with
  | nil => exact ExtTreeMap.getElem?_empty
  | append_singleton xs x ih =>
    rw [map_append, mem_append, not_or] at h
    rw [keyed_append_singleton, get?_insert, if_neg (by simpa using h.2), ih h.1]

theorem get?_keyed (hkeys : (xs.map key).Nodup) {x : V} (hx : x ∈ xs) :
    (keyed key xs)[key x]? = some x := by
  induction xs using List.reverseRecOn with
  | nil => exact absurd hx not_mem_nil
  | append_singleton xs y ih =>
    rw [map_append, map_singleton, ← concat_eq_append, nodup_concat] at hkeys
    obtain ⟨hnew, hkeys⟩ := hkeys
    rw [keyed_append_singleton, get?_insert]
    rcases mem_append.mp hx with hx | hx
    · rw [if_neg (fun heq : key x = key y => hnew (heq ▸ mem_map_of_mem hx)), ih hkeys hx]
    · rw [mem_singleton.mp hx, if_pos rfl]

theorem toList_keyed (hkeys : (xs.map key).Nodup) :
    ((keyed key xs).toList.map Prod.snd).Perm xs := by
  induction xs using List.reverseRecOn with
  | nil => exact List.Perm.of_eq rfl
  | append_singleton xs x ih =>
    rw [map_append, map_singleton, ← concat_eq_append, nodup_concat] at hkeys
    obtain ⟨hnew, hkeys⟩ := hkeys
    have hinsert := (toList_insert_perm (keyed key xs) (key x) x).map Prod.snd
    rw [erase_of_none (get?_keyed_eq_none hnew), map_cons] at hinsert
    rw [keyed_append_singleton]
    exact hinsert.trans (((ih hkeys).cons x).trans (perm_append_singleton x xs).symm)

theorem size_keyed (hkeys : (xs.map key).Nodup) : (keyed key xs).size = xs.length := by
  have h := (toList_keyed hkeys).length_eq
  rwa [length_map, ExtTreeMap.length_toList] at h

end

end HashMap
end Strangecoin
