import Strangecoin.SparseMerkle

/-! # The sorted slices are a Merkle tree

`hashRange`, `collectSiblings` and `verifyProof` work on slices of a sorted list
of leaves.  They compute the tree of `MerkleTree`: the leaf at a path of 256 bits is the
first entry with that key, or `EMPTY_HASH` (`leafOf`).
-/
namespace Strangecoin
open List
open Merkle

/-! ### Keys and paths -/

variable {key : Digest}

theorem bitAt_eq_zero {i : Nat} : bitAt key i = 0 ↔ bit key i = false := by
  have hmod : (UInt8.ofNat (7 - i % 8)).toNat % 8 = 7 - i % 8 := by
    rw [UInt8.toNat_ofNat', Nat.mod_eq_of_lt (by omega)]
    omega
  rw [← UInt8.toNat_inj, bitAt, UInt8.toNat_and, UInt8.toNat_shiftRight, hmod, bit,
    Nat.testBit_eq_decide_div_mod_eq, decide_eq_false_iff_not, Nat.shiftRight_eq_div_pow]
  rw [show (1 : UInt8).toNat = 1 from rfl, Nat.and_one_is_mod, show (0 : UInt8).toNat = 0 from rfl]
  omega

theorem byteAt_ofFn {f : Fin 32 → UInt8} {j : Nat} (h : j < 32) :
    byteAt (Vector.ofFn f) j = f ⟨j, h⟩ := by
  simp [byteAt, h]

theorem testBit_mask {r k : Nat} (hr : 0 < r) (hr8 : r < 8) (hk : k < 8) :
    (((0xff : UInt8) <<< UInt8.ofNat (8 - r)).toNat).testBit k = decide (8 - r ≤ k) := by
  have hmod : (UInt8.ofNat (8 - r)).toNat % 8 = 8 - r := by
    rw [UInt8.toNat_ofNat', Nat.mod_eq_of_lt (by omega)]
    omega
  have hff : (0xff : UInt8).toNat = 2 ^ 8 - 1 := rfl
  rw [UInt8.toNat_shiftLeft, hmod, Nat.testBit_mod_two_pow, Nat.testBit_shiftLeft, hff,
    Nat.testBit_two_pow_sub_one]
  simp only [hk, decide_true, Bool.true_and]
  by_cases h : 8 - r ≤ k
  · simp [h]
    omega
  · simp [h]

/-- Cutting a key off at `depth` keeps its first `depth` bits. -/
theorem bit_pathPrefix {key : Digest} {depth i : Nat} (hi : i < 256) :
    bit (pathPrefix key depth) i = (decide (i < depth) && bit key i) := by
  have hj : i / 8 < 32 := by omega
  unfold bit pathPrefix
  rw [byteAt_ofFn hj]
  dsimp only
  rcases Nat.lt_trichotomy (i / 8) (depth / 8) with hlt | heq | hgt
  · rw [if_pos hlt, decide_eq_true (show i < depth by omega), Bool.true_and]
  · rw [if_neg (by omega)]
    by_cases hr : 0 < depth % 8
    · rw [if_pos ⟨heq, hr⟩, UInt8.toNat_and, Nat.testBit_and,
        testBit_mask hr (by omega) (by omega), Bool.and_comm]
      congr 1
      rw [decide_eq_decide]
      omega
    · rw [if_neg (by omega), decide_eq_false (by omega)]
      simp
  · rw [if_neg (by omega), if_neg (by omega), decide_eq_false (by omega)]
    simp

variable {p : List Bool}

theorem getD_take {d i : Nat} : (p.take d).getD i false = (decide (i < d) && p.getD i false) := by
  simp only [getD_eq_getElem?_getD, getElem?_take]
  by_cases h : i < d <;> simp [h]

theorem getD_bits {i : Nat} (h : i < 256) : (bits key).getD i false = bit key i := by
  rw [getD_eq_getElem?_getD, getElem?_bits h]
  rfl

theorem pathPrefix_eq (key : Digest) (depth : Nat) :
    pathPrefix key depth = ofBits ((bits key).take depth) := by
  apply eq_of_bit_eq
  intro i hi
  rw [bit_pathPrefix hi, bit_ofBits hi, getD_take, getD_bits hi]

theorem testBit_one_shift {k m : Nat} (hk : k < 8) (hm : m < 8) :
    ((1 : UInt8) <<< UInt8.ofNat k).toNat.testBit m = decide (m = k) := by
  have hmod : (UInt8.ofNat k).toNat % 8 = k := by
    rw [UInt8.toNat_ofNat', Nat.mod_eq_of_lt (by omega)]
    omega
  rw [UInt8.toNat_shiftLeft, hmod, Nat.testBit_mod_two_pow, Nat.testBit_shiftLeft,
    show (1 : UInt8).toNat = 2 ^ 0 from rfl, Nat.testBit_two_pow]
  rw [Bool.eq_iff_iff]
  simp [hm]
  omega

theorem bit_siblingPath {level i : Nat} (hl : level < 256) (hi : i < 256) :
    bit (siblingPath key level) i =
      if i = level then !bit key level else decide (i < level) && bit key i := by
  have hset : ∀ v : UInt8, byteAt ((pathPrefix key level).setIfInBounds (level / 8) v) (i / 8) =
      if i / 8 = level / 8 then v else byteAt (pathPrefix key level) (i / 8) := by
    intro v
    unfold byteAt
    rw [Vector.getElem?_setIfInBounds]
    by_cases h : i / 8 = level / 8
    · simp [h, show level / 8 < 32 by omega]
    · simp [h, Ne.symm h]
  unfold siblingPath
  by_cases hz : bitAt key level = 0
  · rw [if_pos hz, bit, hset]
    rw [bitAt_eq_zero] at hz
    by_cases hbyte : i / 8 = level / 8
    · rw [if_pos hbyte, UInt8.toNat_or, Nat.testBit_or, ← hbyte,
        testBit_one_shift (by omega) (by omega)]
      have hp := @bit_pathPrefix key level i hi
      rw [bit] at hp
      rw [hp]
      by_cases hil : i = level
      · simp [hil, hz]
      · have : ¬ (7 - i % 8 = 7 - level % 8) := by omega
        simp [hil, this]
    · rw [if_neg hbyte, ← bit, bit_pathPrefix hi, if_neg (by rintro rfl; exact hbyte rfl)]
  · rw [if_neg hz, bit_pathPrefix hi]
    rw [bitAt_eq_zero, Bool.not_eq_false] at hz
    by_cases hil : i = level
    · simp [hil, hz]
    · simp [hil]

theorem siblingPath_eq {level : Nat} (hl : level < 256) :
    siblingPath key level = ofBits (siblingOf (bits key) level) := by
  apply eq_of_bit_eq
  intro i hi
  have hlen : ((bits key).take level).length = level := by
    rw [length_take, length_bits]
    omega
  rw [bit_siblingPath hl hi, bit_ofBits hi, siblingOf, getD_bits hl]
  rcases Nat.lt_trichotomy i level with hlt | rfl | hgt
  · rw [if_neg (by omega), getD_append _ _ _ _ (by omega), getD_take, getD_bits hi]
  · rw [if_pos rfl, getD_append_right _ _ _ _ (by omega), hlen, Nat.sub_self]
    rfl
  · rw [if_neg (by omega), decide_eq_false (by omega), getD_eq_default _ _ (by simp; omega)]
    rfl

/-! ### The tree of a list of leaves -/

/-- The leaf at a path: the first entry with that key. -/
def leafOf (sorted : List (Digest × Digest)) (path : List Bool) : Digest :=
  ((sorted.find? (fun e => bits e.1 == path)).map Prod.snd).getD EMPTY_HASH

/-- A slice of the sorted leaves that covers the node at `p`, with `levels`
levels below it. -/
structure IsSlice (levels : Nat) (p : List Bool) (sorted : List (Digest × Digest)) : Prop where
  levels_le : levels ≤ 256
  ordered : sorted.Pairwise (fun a b => compare a.1 b.1 ≠ .gt)
  covered : ∀ e ∈ sorted, (bits e.1).take (256 - levels) = p

/-- If nothing that passes the test follows something that does not, the
partition point separates the two. -/
theorem take_partition {α : Type} {q : α → Bool} {l : List α}
    (h : l.Pairwise (fun a b => q b = true → q a = true)) :
    l.take (l.takeWhile q).length = l.filter q ∧
      l.drop (l.takeWhile q).length = l.filter (fun x => !q x) := by
  induction l with
  | nil => exact ⟨rfl, rfl⟩
  | cons x xs ih =>
    obtain ⟨hx, hxs⟩ := pairwise_cons.mp h
    obtain ⟨htake, hdrop⟩ := ih hxs
    by_cases hq : q x = true
    · simp [hq, htake, hdrop]
    · -- no later element passes the test either
      have hnone : ∀ y ∈ xs, q y = false := fun y hy => by
        rw [← Bool.not_eq_true]
        exact fun hy' => hq (hx y hy hy')
      have hfilter : xs.filter (fun x => !q x) = xs :=
        filter_eq_self.mpr (fun y hy => by simp [hnone y hy])
      have hempty : xs.filter q = [] :=
        filter_eq_nil_iff.mpr (fun y hy => by simp [hnone y hy])
      simp [hq, hfilter, hempty]

variable {sorted : List (Digest × Digest)} {levels : Nat}

namespace IsSlice

/-- **Cutting a slice**: the partition point separates the keys by their next
bit. -/
theorem cut (h : IsSlice (levels + 1) p sorted) :
    sorted.take (partitionPoint sorted (DEPTH - (levels + 1))) =
        sorted.filter (fun e => bit e.1 (255 - levels) == false) ∧
      sorted.drop (partitionPoint sorted (DEPTH - (levels + 1))) =
        sorted.filter (fun e => bit e.1 (255 - levels) == true) := by
  have hle := h.levels_le
  have hd : DEPTH - (levels + 1) = 255 - levels := by unfold DEPTH; omega
  have htest : (fun e : Digest × Digest => bitAt e.1 (255 - levels) == 0) =
      fun e => bit e.1 (255 - levels) == false := by
    funext e
    rw [Bool.eq_iff_iff, beq_iff_eq, beq_iff_eq, bitAt_eq_zero]
  have hmono : sorted.Pairwise (fun a b =>
      (bit b.1 (255 - levels) == false) = true → (bit a.1 (255 - levels) == false) = true) := by
    refine List.Pairwise.imp_of_mem ?_ h.ordered
    intro a b ha hb hab hbit
    have hpre : ∀ i, i < 255 - levels → bit a.1 i = bit b.1 i := by
      refine (take_bits_eq_iff (by omega)).mp ?_
      have := (h.covered a ha).trans (h.covered b hb).symm
      rwa [show 256 - (levels + 1) = 255 - levels by omega] at this
    have hstep := bit_le_of_compare hab (by omega) hpre
    simp only [beq_iff_eq] at hbit ⊢
    cases hba : bit a.1 (255 - levels) with
    | false => rfl
    | true => exact absurd (hstep hba) (by simp [hbit])
  obtain ⟨htake, hdrop⟩ := take_partition hmono
  have hneg : (fun e : Digest × Digest => !(bit e.1 (255 - levels) == false)) =
      fun e => bit e.1 (255 - levels) == true := by
    funext e
    cases bit e.1 (255 - levels) <;> rfl
  rw [hd, partitionPoint, htest, ← hneg]
  exact ⟨htake, hdrop⟩

/-- Each half of a slice is a slice. -/
theorem half (h : IsSlice (levels + 1) p sorted) (b : Bool) :
    IsSlice levels (p ++ [b]) (sorted.filter (fun e => bit e.1 (255 - levels) == b)) := by
  have hle := h.levels_le
  refine ⟨by omega, h.ordered.sublist filter_sublist, ?_⟩
  intro e he
  obtain ⟨hmem, hbit⟩ := mem_filter.mp he
  have hcov := h.covered e hmem
  rw [show 256 - levels = 255 - levels + 1 by omega, bits_take_succ (by omega),
    show 255 - levels = 256 - (levels + 1) by omega, hcov,
    show 256 - (levels + 1) = 255 - levels by omega, beq_iff_eq.mp hbit]

/-- A half keeps the leaves below it. -/
theorem leafOf_half (h : IsSlice (levels + 1) p sorted) (hp : p.length = 255 - levels) {b : Bool}
    {q : List Bool} (hq : q.length = levels) :
    leafOf (sorted.filter (fun e => bit e.1 (255 - levels) == b)) (p ++ [b] ++ q) =
      leafOf sorted (p ++ [b] ++ q) := by
  have hle := h.levels_le
  have hpred : (fun e : Digest × Digest =>
      decide ((bit e.1 (255 - levels) == b) = true ∧ (bits e.1 == p ++ [b] ++ q) = true)) =
      fun e => bits e.1 == p ++ [b] ++ q := by
    funext e
    rw [Bool.eq_iff_iff, decide_eq_true_eq, beq_iff_eq, beq_iff_eq]
    refine ⟨fun hand => hand.2, fun heq => ⟨?_, heq⟩⟩
    have hget := @getElem?_bits e.1 (255 - levels) (by omega)
    rw [heq, append_assoc, getElem?_append_right (by omega), hp] at hget
    simpa using hget.symm
  unfold leafOf
  rw [find?_filter, hpred]

end IsSlice

section
variable (blake3 : List UInt8 → Digest)

@[simp] theorem hashRange_nil (levels : Nat) :
    hashRange blake3 levels [] = emptyLevels blake3 levels := by
  cases levels <;> rfl

theorem hashRange_succ (levels : Nat) (sorted : List (Digest × Digest)) :
    hashRange blake3 (levels + 1) sorted =
      hashPair blake3
        (hashRange blake3 levels (sorted.take (partitionPoint sorted (DEPTH - (levels + 1)))))
        (hashRange blake3 levels (sorted.drop (partitionPoint sorted (DEPTH - (levels + 1))))) := by
  cases sorted with
  | nil => simp [emptyLevels]
  | cons e rest =>
    rw [hashRange]
    congr 1
    · split
      · rename_i h
        rw [h, take_zero, hashRange_nil]
      · rfl
    · split
      · rename_i h
        rw [h, drop_length, hashRange_nil]
      · rfl

/-- **A slice is a subtree.** -/
theorem hashRange_eq_treeHash (h : IsSlice levels p sorted) (hp : p.length = 256 - levels) :
    hashRange blake3 levels sorted = treeHash (hashPair blake3) (leafOf sorted) levels p := by
  induction levels generalizing p sorted with
  | zero =>
    cases sorted with
    | nil => rfl
    | cons e rest =>
      have hcov := h.covered e (mem_cons_self ..)
      rw [take_of_length_le (by simp)] at hcov
      simp [hashRange, treeHash, leafOf, hcov]
  | succ levels ih =>
    have hle := h.levels_le
    obtain ⟨hleft, hright⟩ := h.cut
    have hhalf : ∀ b, hashRange blake3 levels
        (sorted.filter (fun e => bit e.1 (255 - levels) == b)) =
        treeHash (hashPair blake3) (leafOf sorted) levels (p ++ [b]) := by
      intro b
      rw [ih (h.half b) (by simp; omega)]
      exact treeHash_congr (fun q hq => h.leafOf_half (by omega) hq)
    rw [hashRange_succ, hleft, hright, hhalf, hhalf, treeHash]

/-- One level of the collected proof: the sibling is the half on the other side
of the key, the rest is collected from the key's own half. -/
theorem collectSiblings_succ (h : IsSlice (levels + 1) p sorted) :
    collectSiblings blake3 key (levels + 1) sorted =
      hashRange blake3 levels
          (sorted.filter (fun e => bit e.1 (255 - levels) == !bit key (255 - levels))) ::
        collectSiblings blake3 key levels
          (sorted.filter (fun e => bit e.1 (255 - levels) == bit key (255 - levels))) := by
  have hle := h.levels_le
  obtain ⟨hleft, hright⟩ := h.cut
  have hbit : bitAt key (DEPTH - (levels + 1)) = 0 ↔ bit key (255 - levels) = false := by
    rw [bitAt_eq_zero, show DEPTH - (levels + 1) = 255 - levels by unfold DEPTH; omega]
  rw [collectSiblings]
  dsimp only
  rw [hleft, hright]
  cases hb : bit key (255 - levels) with
  | false => rw [if_pos (hbit.mpr hb)]; rfl
  | true => rw [if_neg (by simp [hbit, hb])]; rfl

/-- Going down one level on the path of a key. -/
theorem take_bits_succ (h : levels < 256) :
    (bits key).take (256 - levels) =
      (bits key).take (256 - (levels + 1)) ++ [bit key (255 - levels)] := by
  rw [show 256 - levels = 255 - levels + 1 by omega, bits_take_succ (by omega),
    show 256 - (levels + 1) = 255 - levels by omega]

theorem drop_bits_succ (h : levels < 256) :
    (bits key).drop (256 - (levels + 1)) =
      bit key (255 - levels) :: (bits key).drop (256 - levels) := by
  rw [show 256 - (levels + 1) = 255 - levels by omega, bits_drop (by omega),
    show 255 - levels + 1 = 256 - levels by omega]

theorem length_take_bits : ((bits key).take (256 - levels)).length = 256 - levels := by
  rw [length_take, length_bits]
  omega

theorem length_drop_bits {key : Digest} {levels : Nat} (h : levels ≤ 256) :
    ((bits key).drop (256 - levels)).length = levels := by
  rw [length_drop, length_bits]
  omega

/-- **The collected proof is the list of siblings.** -/
theorem collectSiblings_eq_siblings (h : IsSlice levels ((bits key).take (256 - levels)) sorted) :
    collectSiblings blake3 key levels sorted =
      siblings (hashPair blake3) (leafOf sorted) ((bits key).take (256 - levels))
        ((bits key).drop (256 - levels)) := by
  induction levels generalizing sorted with
  | zero =>
    rw [collectSiblings, drop_of_length_le (by simp)]
    rfl
  | succ levels ih =>
    have hlt : levels < 256 := h.levels_le
    have hlen : ((bits key).take (256 - (levels + 1))).length = 255 - levels := by
      rw [length_take_bits]
      omega
    have hown := h.half (bit key (255 - levels))
    have hother := h.half (!bit key (255 - levels))
    rw [← take_bits_succ hlt] at hown
    rw [collectSiblings_succ blake3 h, ih hown, take_bits_succ hlt, drop_bits_succ hlt, siblings,
      length_drop_bits hlt.le]
    congr 1
    · rw [hashRange_eq_treeHash blake3 hother (by simp; omega)]
      exact treeHash_congr (fun q hq => h.leafOf_half hlen hq)
    · exact siblings_congr
        (fun q hq => h.leafOf_half hlen (hq.trans (length_drop_bits hlt.le)))

/-- The collected proof folds to the slice's root. -/
theorem foldPath_collected (h : IsSlice levels ((bits key).take (256 - levels)) sorted) :
    foldPath (hashPair blake3) ((bits key).drop (256 - levels))
        (collectSiblings blake3 key levels sorted) (leafOf sorted (bits key)) =
      hashRange blake3 levels sorted := by
  have hfold := @foldPath_siblings _ (hashPair blake3) (leafOf sorted)
    ((bits key).take (256 - levels)) ((bits key).drop (256 - levels))
  rw [take_append_drop, length_drop_bits h.levels_le] at hfold
  rw [collectSiblings_eq_siblings blake3 h, hfold, hashRange_eq_treeHash blake3 h length_take_bits]

/-! ### Foldings -/

theorem hashUp_eq_join (key : Digest) (level : Nat) (acc sibling : Digest) :
    SparseMerkleTrie.hashUp blake3 key level acc sibling =
      join (hashPair blake3) (bit key level) acc sibling := by
  unfold SparseMerkleTrie.hashUp join joinPair
  cases hb : bit key level with
  | false => rw [if_pos (bitAt_eq_zero.mpr hb)]; rfl
  | true => rw [if_neg (by simp [bitAt_eq_zero, hb])]; rfl

/-- The loop of `verify_proof`, from the bottom up, is the folding of the path. -/
theorem foldl_hashUp {key : Digest} {proof : List Digest} (hlen : proof.length = 256) {k : Nat}
    (hk : k ≤ 256) (acc : Digest) :
    (List.range k).reverse.foldl
        (fun acc i => SparseMerkleTrie.hashUp blake3 key i acc (proof.getD i zeroDigest)) acc =
      foldPath (hashPair blake3) ((bits key).take k) (proof.take k) acc := by
  induction k generalizing acc with
  | zero => rfl
  | succ k ih =>
    have hproof : proof.take (k + 1) = proof.take k ++ [proof.getD k zeroDigest] := by
      rw [take_add_one, getD_eq_getElem?_getD, getElem?_eq_getElem (by omega)]
      rfl
    rw [range_succ, reverse_append, reverse_singleton, singleton_append,
      foldl_cons, ih (by omega), hproof, bits_take_succ (by omega),
      foldPath_concat (by simp [hlen]), hashUp_eq_join]

/-- What `verify_proof` and `verify_receipt_proof` check of a leaf: the proof folds to
the root. -/
theorem foldl_hashUp_iff {root leaf : Digest} {proof : List Digest} :
    (if proof.length ≠ DEPTH then false
      else (List.range DEPTH).reverse.foldl (fun acc i =>
        SparseMerkleTrie.hashUp blake3 key i acc (proof.getD i zeroDigest)) leaf == root) = true ↔
      proof.length = 256 ∧ foldPath (hashPair blake3) (bits key) proof leaf = root := by
  by_cases hlen : proof.length = DEPTH
  · have h256 : proof.length = 256 := hlen
    have hfold := @foldl_hashUp blake3 key proof h256 256 le_rfl leaf
    rw [take_of_length_le (by simp), take_of_length_le (by omega)] at hfold
    rw [if_neg (by simpa using hlen), show DEPTH = 256 from rfl, hfold, beq_iff_eq]
    simp [h256]
  · rw [if_pos hlen]
    simp only [Bool.false_eq_true, false_iff, not_and]
    exact fun h => absurd h hlen

/-- **A proof is accepted when it folds to the root.** -/
theorem verifyProof_iff {root : Digest} {address : String} {account : Account}
    {proof : List Digest} :
    SparseMerkleTrie.verifyProof blake3 root address account proof = true ↔
      proof.length = 256 ∧
        foldPath (hashPair blake3) (bits (accountKeyHash blake3 address)) proof
          (leafHashFor blake3 (accountKeyHash blake3 address) account) = root :=
  foldl_hashUp_iff blake3

/-! ### Sorted leaves -/

theorem isLE_compare_trans (a b c : Digest × Digest) :
    (compare a.1 b.1).isLE = true → (compare b.1 c.1).isLE = true →
      (compare a.1 c.1).isLE = true :=
  fun h₁ h₂ => Std.TransCmp.isLE_trans h₁ h₂

theorem isLE_compare_total (a b : Digest × Digest) :
    ((compare a.1 b.1).isLE || (compare b.1 a.1).isLE) = true := by
  rw [Std.OrientedOrd.eq_swap (a := b.1) (b := a.1)]
  cases compare a.1 b.1 <;> rfl

variable {leaves : List (Digest × Digest)}

theorem mem_sortByKey {e : Digest × Digest} :
    e ∈ sortByKey leaves ↔ e ∈ leaves :=
  (mergeSort_perm _ _).mem_iff

/-- The sorted leaves are the slice of the whole tree. -/
theorem isSlice_sortByKey (leaves : List (Digest × Digest)) :
    IsSlice 256 [] (sortByKey leaves) := by
  refine ⟨le_rfl, ?_, fun e _ => by simp⟩
  have hsorted := pairwise_mergeSort isLE_compare_trans isLE_compare_total leaves
  refine hsorted.imp (fun {a b} hab => ?_)
  exact Ordering.isLE_iff_ne_gt.mp hab

theorem hashRange_sortByKey (leaves : List (Digest × Digest)) :
    hashRange blake3 DEPTH (sortByKey leaves) =
      treeHash (hashPair blake3) (leafOf (sortByKey leaves)) 256 [] :=
  hashRange_eq_treeHash blake3 (isSlice_sortByKey leaves) rfl

theorem leafOf_of_mem {v : Digest} (hmem : ∃ e ∈ leaves, e.1 = key)
    (hval : ∀ e ∈ leaves, e.1 = key → e.2 = v) : leafOf (sortByKey leaves) (bits key) = v := by
  obtain ⟨e, he, hkey⟩ := hmem
  have hsome : ((sortByKey leaves).find? (fun e => bits e.1 == bits key)).isSome := by
    rw [find?_isSome]
    exact ⟨e, mem_sortByKey.mpr he, by simp [hkey]⟩
  obtain ⟨f, hf⟩ := Option.isSome_iff_exists.mp hsome
  have hfkey : f.1 = key := bits_injective (by simpa using find?_some hf)
  have hfmem : f ∈ leaves := mem_sortByKey.mp (mem_of_find?_eq_some hf)
  unfold leafOf
  rw [hf]
  exact hval f hfmem hfkey

theorem leafOf_of_not_mem (h : ∀ e ∈ leaves, e.1 ≠ key) :
    leafOf (sortByKey leaves) (bits key) = EMPTY_HASH := by
  have hnone : (sortByKey leaves).find? (fun e => bits e.1 == bits key) = none := by
    rw [find?_eq_none]
    intro e he hbits
    exact h e (mem_sortByKey.mp he) (bits_injective (by simpa using hbits))
  unfold leafOf
  rw [hnone]
  rfl

end

end Strangecoin
