import Strangecoin.SparseMerkleTree
import Strangecoin.Blake3

/-! # Account proofs are complete and sound

A trie is what a sequence of `insert` calls leaves behind (`insertAll`).  `prove` answers
exactly the claims that are true of the last insertions; and whatever proof is accepted, the
slot is the claimed account's leaf, or two different byte strings that were hashed collide.

A hash function with 32-byte digests always has collisions somewhere: only strings hashed in
the two computations that meet at the root count (`verifyPreimages`, `rangePreimages`).
-/
namespace Strangecoin
open List Std
open Merkle

/-! ### Leaves separate accounts -/

/-- **Domain separation**: at one key, different accounts have different leaf
preimages. -/
theorem leafPreimage_inj {key : Digest} {a b : Account}
    (h : leafPreimage key a = leafPreimage key b) : a = b := by
  cases a with
  | eoa a =>
    cases b with
    | eoa b =>
      simp only [leafPreimage, append_assoc, append_cancel_left_eq] at h
      obtain ⟨hbal, hnonce⟩ := append_inj h (by simp)
      cases a
      cases b
      simp_all [toLeBytes_injective.eq_iff]
    | contract b =>
      have := congrArg List.length h
      simp [leafPreimage] at this
  | contract a =>
    cases b with
    | eoa b =>
      have := congrArg List.length h
      simp [leafPreimage] at this
    | contract b =>
      simp only [leafPreimage, append_assoc, append_cancel_left_eq] at h
      obtain ⟨hcode, h⟩ := append_inj h (by simp)
      obtain ⟨hroot, h⟩ := append_inj h (by simp)
      obtain ⟨hbal, hnonce⟩ := append_inj h (by simp)
      cases a
      cases b
      simp_all [toLeBytes_injective.eq_iff, Vector.toList_inj]

section
variable (blake3 : List UInt8 → Digest)

namespace SparseMerkleTrie

/-! ### Slots -/

/-- The slot of an address. -/
def slot (trie : SparseMerkleTrie) (address : String) : Option Digest :=
  trie.leaves[accountKeyHash blake3 address]?

/-- The slot that holds an account: absent when the account is empty. -/
def accountSlot (address : String) (account : Account) : Option Digest :=
  if account.isEmpty then none
  else some (accountLeafHash blake3 (accountKeyHash blake3 address) account)

/-- The trie after a sequence of insertions. -/
def insertAll (insertions : List (String × Account)) : SparseMerkleTrie :=
  insertions.foldl (fun trie e => trie.insert blake3 e.1 e.2) new

/-- The account last inserted at an address. -/
def lastInserted (insertions : List (String × Account)) (address : String) : Option Account :=
  (insertions.reverse.find? (fun e => e.1 == address)).map Prod.snd

theorem lastInserted_concat (insertions : List (String × Account)) (e : String × Account)
    (address : String) :
    lastInserted (insertions ++ [e]) address =
      if e.1 = address then some e.2 else lastInserted insertions address := by
  unfold lastInserted
  rw [reverse_append, reverse_singleton, singleton_append]
  by_cases h : e.1 = address
  · rw [find?_cons_of_pos (by simpa using h), if_pos h]
    rfl
  · rw [find?_cons_of_neg (by simpa using h), if_neg h]

theorem insertAll_concat (insertions : List (String × Account)) (e : String × Account) :
    insertAll blake3 (insertions ++ [e]) = (insertAll blake3 insertions).insert blake3 e.1 e.2 := by
  simp [insertAll]

theorem leaves_insert (trie : SparseMerkleTrie) (a : String) (key : Digest) (account : Account) :
    (trie.insert blake3 a account).leaves[key]? =
      if key = accountKeyHash blake3 a then accountSlot blake3 a account else trie.leaves[key]? := by
  unfold insert accountSlot
  cases account.isEmpty <;> simp

theorem slot_insert (trie : SparseMerkleTrie) (a address : String) (account : Account) :
    (trie.insert blake3 a account).slot blake3 address =
      if accountKeyHash blake3 address = accountKeyHash blake3 a then
        accountSlot blake3 a account
      else trie.slot blake3 address :=
  leaves_insert blake3 trie a _ account

variable {insertions : List (String × Account)}

/-- Every leaf is that of an inserted account with its key. -/
theorem leaves_insertAll_some {key leaf : Digest}
    (h : (insertAll blake3 insertions).leaves[key]? = some leaf) :
    ∃ e ∈ insertions, accountKeyHash blake3 e.1 = key ∧ e.2.isEmpty = false ∧
      leaf = accountLeafHash blake3 key e.2 := by
  induction insertions using List.reverseRecOn with
  | nil => simp [insertAll, new] at h
  | append_singleton insertions e ih =>
    rw [insertAll_concat, leaves_insert] at h
    split at h
    · rename_i hkey
      refine ⟨e, by simp, hkey.symm, ?_⟩
      unfold accountSlot at h
      cases hempty : e.2.isEmpty with
      | true => simp [hempty] at h
      | false =>
        refine ⟨rfl, ?_⟩
        rw [hempty, ← hkey] at h
        simpa using h.symm
    · obtain ⟨f, hf, hkey, hnonempty, hleaf⟩ := ih h
      exact ⟨f, mem_append_left _ hf, hkey, hnonempty, hleaf⟩

variable {address : String}

/-- **The slot of an address is the last account inserted there**, when no other
address has its key hash. -/
theorem slot_insertAll
    (hkeys : Set.InjOn (accountKeyHash blake3)
      {a | a = address ∨ a ∈ insertions.map Prod.fst}) :
    (insertAll blake3 insertions).slot blake3 address =
      (lastInserted insertions address).bind (accountSlot blake3 address) := by
  induction insertions using List.reverseRecOn with
  | nil => simp [insertAll, new, slot, lastInserted]
  | append_singleton insertions e ih =>
    have hrest := ih (hkeys.mono (fun a ha => by
      rcases ha with rfl | ha
      · exact .inl rfl
      · exact .inr (by rw [map_append]; exact mem_append_left _ ha)))
    have hinj : accountKeyHash blake3 address = accountKeyHash blake3 e.1 ↔ e.1 = address :=
      ⟨fun h => (hkeys (.inl rfl) (.inr (by simp)) h).symm, fun h => by rw [h]⟩
    rw [insertAll_concat, slot_insert, lastInserted_concat, hrest]
    by_cases he : e.1 = address
    · rw [if_pos (hinj.mpr he), if_pos he, he]
      rfl
    · rw [if_neg (fun h => he (hinj.mp h)), if_neg he]

theorem leafOf_leaves (trie : SparseMerkleTrie) (key : Digest) :
    leafOf (sortByKey trie.leaves.toList) (bits key) = trie.leaves[key]?.getD EMPTY_HASH := by
  cases h : trie.leaves[key]? with
  | none =>
    apply leafOf_of_not_mem
    rintro ⟨k, v⟩ he rfl
    rw [ExtTreeMap.mem_toList_iff_getElem?_eq_some.mp he] at h
    cases h
  | some leaf =>
    apply leafOf_of_mem
    · exact ⟨(key, leaf), ExtTreeMap.mem_toList_iff_getElem?_eq_some.mpr h, rfl⟩
    · rintro ⟨k, v⟩ he rfl
      rw [ExtTreeMap.mem_toList_iff_getElem?_eq_some.mp he] at h
      exact Option.some.inj h

/-- The path of every address folds, with the collected siblings and the slot's
leaf, to the root. -/
theorem foldPath_collectSiblings (trie : SparseMerkleTrie) (key : Digest) :
    foldPath (hashPair blake3) (bits key)
        (collectSiblings blake3 key DEPTH (sortByKey trie.leaves.toList))
        (trie.leaves[key]?.getD EMPTY_HASH) = trie.root blake3 := by
  have hslice : IsSlice 256 ((bits key).take (256 - 256)) (sortByKey trie.leaves.toList) :=
    isSlice_sortByKey _
  have hfold := foldPath_collected blake3 hslice
  rw [leafOf_leaves] at hfold
  exact hfold

theorem length_collectSiblings (key : Digest) (levels : Nat) (sorted : List (Digest × Digest)) :
    (collectSiblings blake3 key levels sorted).length = levels := by
  induction levels generalizing sorted with
  | zero => rfl
  | succ levels ih => simp [collectSiblings, ih]

/-- **The range hash is the root of the full tree** whose leaf at a key is the mapped hash or
the empty leaf, and the collected siblings are those of its path. -/
theorem hashRange_reference (leaves : HashMap Digest Digest) :
    hashRange blake3 DEPTH (sortByKey leaves.toList) =
      treeHash (hashPair blake3) (fun p => leaves[ofBits p]?.getD EMPTY_HASH) 256 [] ∧
    ∀ key, collectSiblings blake3 key DEPTH (sortByKey leaves.toList) =
        siblings (hashPair blake3) (fun p => leaves[ofBits p]?.getD EMPTY_HASH) [] (bits key) ∧
      (collectSiblings blake3 key DEPTH (sortByKey leaves.toList)).length = 256 := by
  have hleaf : ∀ p : List Bool, p.length = 256 →
      leafOf (sortByKey leaves.toList) p = leaves[ofBits p]?.getD EMPTY_HASH := by
    intro p hp
    rw [← leafOf_leaves ⟨leaves⟩, bits_ofBits hp]
  refine ⟨?_, fun key => ⟨?_, length_collectSiblings blake3 key DEPTH _⟩⟩
  · rw [hashRange_sortByKey]
    exact treeHash_congr fun p hp => hleaf p hp
  · have hslice : IsSlice 256 ((bits key).take (256 - 256)) (sortByKey leaves.toList) :=
      isSlice_sortByKey _
    refine (collectSiblings_eq_siblings blake3 hslice).trans (siblings_congr fun p hp => ?_)
    exact hleaf p (by simpa using hp)

variable {account : Account} {proof : List Digest} {trie : SparseMerkleTrie}

theorem prove_eq_ok :
    trie.prove blake3 address account = .ok proof ↔
      trie.slot blake3 address = accountSlot blake3 address account ∧
        proof = collectSiblings blake3 (accountKeyHash blake3 address) DEPTH
          (sortByKey trie.leaves.toList) := by
  unfold prove slot accountSlot
  dsimp only
  generalize collectSiblings blake3 (accountKeyHash blake3 address) DEPTH
    (sortByKey trie.leaves.toList) = siblings
  cases trie.leaves[accountKeyHash blake3 address]? with
  | none => cases account.isEmpty <;> simp [eq_comm (a := siblings)]
  | some leaf =>
    by_cases hleaf : leaf = accountLeafHash blake3 (accountKeyHash blake3 address) account
    · cases account.isEmpty <;> simp [hleaf, eq_comm (a := siblings)]
    · cases account.isEmpty <;> simp [hleaf]

/-- Whatever `prove` answers is accepted. -/
theorem verifyProof_of_prove (h : trie.prove blake3 address account = .ok proof) :
    proof.length = 256 ∧ verifyProof blake3 (trie.root blake3) address account proof = true := by
  obtain ⟨hslot, rfl⟩ := (prove_eq_ok blake3).mp h
  have hlen := length_collectSiblings blake3 (accountKeyHash blake3 address) DEPTH
    (sortByKey trie.leaves.toList)
  have hleaf : leafHashFor blake3 (accountKeyHash blake3 address) account =
      trie.leaves[accountKeyHash blake3 address]?.getD EMPTY_HASH := by
    unfold slot accountSlot at hslot
    rw [hslot]
    unfold leafHashFor
    split <;> rfl
  refine ⟨hlen, (verifyProof_iff blake3).mpr ⟨hlen, ?_⟩⟩
  rw [hleaf]
  exact foldPath_collectSiblings blake3 trie _

/-- **Account proofs are complete.**  On the trie of any insertions, `prove`
answers a non-empty account exactly when it is the last one inserted at the
address, an empty one exactly when the slot is absent; and every answer has 256
entries and is accepted.  The addresses must have different key hashes, and the
accounts different leaves at this key: both are digests of different strings. -/
theorem prove_complete (insertions : List (String × Account)) (address : String)
    (account : Account)
    (hkeys : Set.InjOn (accountKeyHash blake3) {a | a = address ∨ a ∈ insertions.map Prod.fst})
    (hleaves : Set.InjOn blake3 {x | ∃ a, (a = account ∨ a ∈ insertions.map Prod.snd) ∧
      x = leafPreimage (accountKeyHash blake3 address) a}) :
    ((∃ proof, (insertAll blake3 insertions).prove blake3 address account = .ok proof) ↔
      (account.isEmpty = false ∧ lastInserted insertions address = some account) ∨
      (account.isEmpty = true ∧ (insertAll blake3 insertions).slot blake3 address = none)) ∧
    ∀ proof, (insertAll blake3 insertions).prove blake3 address account = .ok proof →
      proof.length = 256 ∧
        verifyProof blake3 ((insertAll blake3 insertions).root blake3) address account proof =
          true := by
  refine ⟨?_, fun proof h => verifyProof_of_prove blake3 h⟩
  have hok : (∃ proof, (insertAll blake3 insertions).prove blake3 address account = .ok proof) ↔
      (insertAll blake3 insertions).slot blake3 address = accountSlot blake3 address account := by
    constructor
    · rintro ⟨proof, h⟩
      exact ((prove_eq_ok blake3).mp h).1
    · intro h
      exact ⟨_, (prove_eq_ok blake3).mpr ⟨h, rfl⟩⟩
  rw [hok]
  cases hempty : account.isEmpty with
  | true => simp [accountSlot, hempty]
  | false =>
    simp only [true_and, Bool.false_eq_true, false_and, or_false]
    rw [slot_insertAll blake3 hkeys]
    cases hlast : lastInserted insertions address with
    | none => simp [accountSlot, hempty]
    | some last =>
      have hmem : last ∈ insertions.map Prod.snd := by
        unfold lastInserted at hlast
        obtain ⟨e, he, rfl⟩ := Option.map_eq_some_iff.mp hlast
        exact mem_map_of_mem (mem_reverse.mp (mem_of_find?_eq_some he))
      rw [Option.bind_some, Option.some.injEq]
      constructor
      · intro h
        -- the two leaves are one digest, hence of one string, hence of one account
        cases hlastEmpty : last.isEmpty with
        | true => simp [accountSlot, hempty, hlastEmpty] at h
        | false =>
          simp only [accountSlot, hempty, hlastEmpty, Bool.false_eq_true, if_false,
            Option.some.injEq] at h
          exact leafPreimage_inj (hleaves ⟨last, .inr hmem, rfl⟩ ⟨account, .inl rfl, rfl⟩ h)
      · rintro rfl
        rfl

end SparseMerkleTrie
end

namespace SparseMerkleTrie

/-- Two accounts under the real hash: the last one inserted at the address is
answered. -/
theorem prove_complete_alice :
    ∃ proof, (insertAll blake3 [("alice", .eoa ⟨5, 1⟩), ("bob", .eoa ⟨7, 0⟩)]).prove blake3
      "alice" (.eoa ⟨5, 1⟩) = .ok proof := by
  refine (prove_complete blake3 [("alice", .eoa ⟨5, 1⟩), ("bob", .eoa ⟨7, 0⟩)] "alice"
    (.eoa ⟨5, 1⟩) ?_ ?_).1.mpr (.inl ⟨rfl, rfl⟩)
  · have hne : accountKeyHash blake3 "alice" ≠ accountKeyHash blake3 "bob" := by
      rw [blake3_eq]
      decide +kernel
    refine (Set.injOn_pair.mpr (fun h => absurd h hne)).mono ?_
    rintro a (rfl | ha)
    · exact .inl rfl
    · simpa using ha
  · have hne : blake3 (leafPreimage (accountKeyHash blake3 "alice") (.eoa ⟨5, 1⟩)) ≠
        blake3 (leafPreimage (accountKeyHash blake3 "alice") (.eoa ⟨7, 0⟩)) := by
      rw [blake3_eq]
      decide +kernel
    refine (Set.injOn_pair.mpr (fun h => absurd h hne)).mono ?_
    rintro x ⟨a, rfl | ha, rfl⟩
    · exact .inl rfl
    · obtain rfl | rfl : a = .eoa ⟨5, 1⟩ ∨ a = .eoa ⟨7, 0⟩ := by simpa using ha
      · exact .inl rfl
      · exact .inr rfl

end SparseMerkleTrie

/-! ### What is hashed -/

/-- Two different strings of a list with one digest. -/
def Collision (blake3 : List UInt8 → Digest) (hashed : List (List UInt8)) : Prop :=
  ∃ x ∈ hashed, ∃ y ∈ hashed, x ≠ y ∧ blake3 x = blake3 y

theorem Collision.mono {blake3 : List UInt8 → Digest} {xs ys : List (List UInt8)}
    (h : Collision blake3 xs) (hsub : ∀ x ∈ xs, x ∈ ys) : Collision blake3 ys := by
  obtain ⟨x, hx, y, hy, hne, heq⟩ := h
  exact ⟨x, hsub x hx, y, hsub y hy, hne, heq⟩

/-- Without a collision, equal digests come from equal strings. -/
theorem eq_of_not_collision {blake3 : List UInt8 → Digest} {hashed : List (List UInt8)}
    (h : ¬ Collision blake3 hashed) {x y : List UInt8} (hx : x ∈ hashed) (hy : y ∈ hashed)
    (heq : blake3 x = blake3 y) : x = y := by
  by_contra hne
  exact h ⟨x, hx, y, hy, hne, heq⟩

/-- What is hashed for an inner node. -/
def pairPreimage (pair : Digest × Digest) : List UInt8 := pair.1.toList ++ pair.2.toList

theorem pairPreimage_injective : Function.Injective pairPreimage := by
  rintro ⟨a, b⟩ ⟨c, d⟩ h
  obtain ⟨hac, hbd⟩ := append_inj h (by simp)
  exact Prod.ext (Vector.toList_inj.mp hac) (Vector.toList_inj.mp hbd)

section
variable (blake3 : List UInt8 → Digest)

/-- The strings hashed for the table of empty subtrees. -/
def emptyPreimages : List (List UInt8) :=
  (List.range DEPTH).map fun n => pairPreimage (emptyLevels blake3 n, emptyLevels blake3 n)

/-- The strings hashed by `hashRange`, the table of empty subtrees apart. -/
def rangePreimages : Nat → List (Digest × Digest) → List (List UInt8)
  | _, [] => []
  | 0, _ :: _ => []
  | levels + 1, e :: rest =>
    let sorted := e :: rest
    let mid := partitionPoint sorted (DEPTH - (levels + 1))
    pairPreimage (hashRange blake3 levels (sorted.take mid), hashRange blake3 levels (sorted.drop mid)) ::
      (rangePreimages levels (sorted.take mid) ++ rangePreimages levels (sorted.drop mid))

/-- The strings hashed for the leaf of an account. -/
def leafPreimages (address : String) (account : Account) : List (List UInt8) :=
  if account.isEmpty then [] else [leafPreimage (accountKeyHash blake3 address) account]

/-- The strings hashed by `verifyProof`. -/
def verifyPreimages (address : String) (account : Account) (proof : List Digest) :
    List (List UInt8) :=
  asBytes address :: (leafPreimages blake3 address account ++
    (pathPairs (hashPair blake3) (bits (accountKeyHash blake3 address)) proof
      (leafHashFor blake3 (accountKeyHash blake3 address) account)).map pairPreimage)

/-- The strings hashed by a sequence of insertions. -/
def insertPreimages (insertions : List (String × Account)) : List (List UInt8) :=
  insertions.flatMap fun e => asBytes e.1 :: leafPreimages blake3 e.1 e.2

/-- The strings hashed for the root of a list of leaves. -/
def rootPreimages (leaves : List (Digest × Digest)) : List (List UInt8) :=
  rangePreimages blake3 DEPTH (sortByKey leaves) ++ emptyPreimages blake3

/-- The pair of children of the node of a key, whichever side the key is on. -/
theorem joinPair_halves (key : Digest) (i : Nat) (f : Bool → Digest) :
    joinPair (bit key i) (f (bit key i)) (f (!bit key i)) = (f false, f true) := by
  cases bit key i <;> rfl

/-- Every pair on the path of a key in the tree was hashed for the root. -/
theorem pathPairs_mem_rangePreimages {key : Digest} {levels : Nat}
    {sorted : List (Digest × Digest)}
    (h : IsSlice levels ((bits key).take (256 - levels)) sorted) :
    ∀ x ∈ pathPairs (hashPair blake3) ((bits key).drop (256 - levels))
        (collectSiblings blake3 key levels sorted) (leafOf sorted (bits key)),
      pairPreimage x ∈ rangePreimages blake3 levels sorted ++ emptyPreimages blake3 := by
  induction levels generalizing sorted with
  | zero =>
    intro x hx
    rw [drop_of_length_le (by simp)] at hx
    simp [pathPairs] at hx
  | succ levels ih =>
    intro x hx
    have hlt : levels < 256 := h.levels_le
    have hown := h.half (bit key (255 - levels))
    rw [← take_bits_succ hlt] at hown
    have hleaf : leafOf sorted (bits key) = leafOf
        (sorted.filter (fun e => bit e.1 (255 - levels) == bit key (255 - levels))) (bits key) := by
      have hsplit : (bits key).take (256 - (levels + 1)) ++ [bit key (255 - levels)] ++
          (bits key).drop (256 - levels) = bits key := by
        rw [← take_bits_succ hlt, take_append_drop]
      have hhalf := h.leafOf_half (by rw [length_take_bits]; omega)
        (b := bit key (255 - levels)) (@length_drop_bits key _ hlt.le)
      rw [hsplit] at hhalf
      exact hhalf.symm
    rw [collectSiblings_succ blake3 h, drop_bits_succ hlt, pathPairs, hleaf,
      foldPath_collected blake3 hown, mem_cons] at hx
    obtain ⟨hleft, hright⟩ := h.cut
    cases sorted with
    | nil =>
      -- below an empty node everything comes from the table
      rcases hx with rfl | hx
      · refine mem_append_right _ (mem_map.mpr ⟨levels, mem_range.mpr hlt, ?_⟩)
        simp [joinPair]
      · simpa [rangePreimages] using ih hown x hx
    | cons e rest =>
      rw [rangePreimages, hleft, hright]
      rcases hx with rfl | hx
      · rw [joinPair_halves key (255 - levels) (fun b => hashRange blake3 levels
          ((e :: rest).filter (fun e => bit e.1 (255 - levels) == b)))]
        simp
      · rcases mem_append.mp (ih hown x hx) with hmem | hmem
        · refine mem_append_left _ (mem_cons_of_mem _ (mem_append.mpr ?_))
          cases hb : bit key (255 - levels) with
          | false => rw [hb] at hmem; exact .inl hmem
          | true => rw [hb] at hmem; exact .inr hmem
        · exact mem_append_right _ hmem

/-- **Soundness of a folding**: against the root of a list of leaves, a folding
starts from the leaf of the tree and uses the siblings of the tree, or two
different strings collide. -/
theorem foldPath_sound {leaves : List (Digest × Digest)} {key leaf : Digest} {proof : List Digest}
    (hlen : proof.length = 256)
    (hroot : foldPath (hashPair blake3) (bits key) proof leaf =
      hashRange blake3 DEPTH (sortByKey leaves)) :
    Collision blake3 ((pathPairs (hashPair blake3) (bits key) proof leaf).map pairPreimage ++
        rootPreimages blake3 leaves) ∨
      leaf = leafOf (sortByKey leaves) (bits key) ∧
        proof = collectSiblings blake3 key DEPTH (sortByKey leaves) := by
  by_cases hcol : Collision blake3
      ((pathPairs (hashPair blake3) (bits key) proof leaf).map pairPreimage ++
        rootPreimages blake3 leaves)
  · exact .inl hcol
  · refine .inr ?_
    have hslice : IsSlice 256 ((bits key).take (256 - 256)) (sortByKey leaves) :=
      isSlice_sortByKey _
    have htree := pathPairs_mem_rangePreimages blake3 hslice
    have hfold := foldPath_collected blake3 hslice
    refine @foldPath_inj _ (hashPair blake3) (bits key) _ _ _ _ ?_ (by simpa using hlen)
      (by simp [SparseMerkleTrie.length_collectSiblings, DEPTH]) (hroot.trans hfold.symm)
    intro x hx y hy heq
    exact pairPreimage_injective (eq_of_not_collision hcol
      (mem_append_left _ (mem_map_of_mem hx))
      (mem_append_right _ (htree y hy)) heq)

namespace SparseMerkleTrie

/-- The strings hashed when a proof is checked against the root of a trie. -/
def hashedPreimages (insertions : List (String × Account)) (address : String) (account : Account)
    (proof : List Digest) : List (List UInt8) :=
  insertPreimages blake3 insertions ++
    rootPreimages blake3 (insertAll blake3 insertions).leaves.toList ++
    verifyPreimages blake3 address account proof

variable {account : Account} {address : String} {insertions : List (String × Account)}
  {proof : List Digest}

/-- An accepted proof against the root of a trie, unless strings collide: the
claimed leaf is the slot's, the proof is the trie's. -/
theorem leaf_of_verifyProof
    (hcol : ¬ Collision blake3 (hashedPreimages blake3 insertions address account proof))
    (h : verifyProof blake3 ((insertAll blake3 insertions).root blake3) address account proof =
      true) :
    leafHashFor blake3 (accountKeyHash blake3 address) account =
      ((insertAll blake3 insertions).slot blake3 address).getD EMPTY_HASH := by
  obtain ⟨hlen, hfold⟩ := (verifyProof_iff blake3).mp h
  rcases foldPath_sound blake3 hlen hfold with hcol' | ⟨hleaf, -⟩
  · refine absurd (hcol'.mono (fun x hx => ?_)) hcol
    rcases mem_append.mp hx with hx | hx
    · exact mem_append_right _ (mem_cons_of_mem _ (mem_append_right _ hx))
    · exact mem_append_left _ (mem_append_right _ hx)
  · rw [hleaf, leafOf_leaves]
    rfl

/-- Two accounts accepted at one address against one root, whatever the root is,
have one leaf, or strings collide. -/
theorem leaf_unique {root : Digest} {a b : Account} {p q : List Digest}
    (hcol : ¬ Collision blake3 (verifyPreimages blake3 address a p ++
      verifyPreimages blake3 address b q)) (ha : verifyProof blake3 root address a p = true)
    (hb : verifyProof blake3 root address b q = true) :
    leafHashFor blake3 (accountKeyHash blake3 address) a =
      leafHashFor blake3 (accountKeyHash blake3 address) b := by
  obtain ⟨hplen, hp⟩ := (verifyProof_iff blake3).mp ha
  obtain ⟨hqlen, hq⟩ := (verifyProof_iff blake3).mp hb
  refine (@foldPath_inj _ (hashPair blake3) (bits (accountKeyHash blake3 address)) _ _ _ _ ?_
    (by simpa using hplen) (by simpa using hqlen) (hp.trans hq.symm)).1
  intro x hx y hy heq
  refine pairPreimage_injective (eq_of_not_collision hcol (mem_append_left _ ?_)
    (mem_append_right _ ?_) heq)
  · exact mem_cons_of_mem _ (mem_append_right _ (mem_map_of_mem hx))
  · exact mem_cons_of_mem _ (mem_append_right _ (mem_map_of_mem hy))

/-- No leaf hashed for the insertions or for the claimed account is the constant
of the empty slot.  That constant is not the digest of a string the program
hashes, so such a leaf would not be a collision of two strings. -/
def EmptyHashUnreached (insertions : List (String × Account)) (address : String)
    (account : Account) : Prop :=
  ∀ x, x ∈ leafPreimages blake3 address account ∨
    x ∈ insertions.flatMap (fun e => leafPreimages blake3 e.1 e.2) → blake3 x ≠ EMPTY_HASH

/-- An accepted proof fixes the slot, or strings collide. -/
theorem slot_of_verifyProof (hempty : EmptyHashUnreached blake3 insertions address account)
    (haccept : verifyProof blake3 ((insertAll blake3 insertions).root blake3) address account
      proof = true) :
    (insertAll blake3 insertions).slot blake3 address = accountSlot blake3 address account ∨
      Collision blake3 (hashedPreimages blake3 insertions address account proof) := by
  by_cases hcol : Collision blake3 (hashedPreimages blake3 insertions address account proof)
  · exact .inr hcol
  · refine .inl ?_
    have hleaf := leaf_of_verifyProof blake3 hcol haccept
    cases hs : (insertAll blake3 insertions).slot blake3 address with
    | none =>
      -- an absent slot has the empty leaf, which no non-empty account has
      rw [hs, Option.getD_none] at hleaf
      cases he : account.isEmpty with
      | true => simp [accountSlot, he]
      | false =>
        rw [leafHashFor, he] at hleaf
        exact absurd hleaf (hempty _ (.inl (by simp [leafPreimages, he])))
    | some leaf =>
      rw [hs, Option.getD_some] at hleaf
      obtain ⟨e, hemem, hkey, hnonempty, hval⟩ := leaves_insertAll_some blake3 hs
      cases he : account.isEmpty with
      | true =>
        rw [leafHashFor, he, hval, ← hkey] at hleaf
        refine absurd hleaf.symm (hempty _ (.inr (mem_flatMap.mpr ⟨e, hemem, ?_⟩)))
        simp [leafPreimages, hnonempty]
      | false =>
        rw [leafHashFor, he] at hleaf
        rw [accountSlot, he, ← hleaf]
        rfl

/-- **Account proofs are sound.**  For every trie, address, account and proof:

* an accepted proof fixes the slot of the address, or two different strings
  hashed on the way collide;
* in particular no non-empty account is accepted at an absent slot;
* and two different non-empty accounts are not both accepted at one address
  against one root, whatever that root is. -/
theorem verifyProof_sound (insertions : List (String × Account)) (address : String) :
    (∀ account proof, EmptyHashUnreached blake3 insertions address account →
      verifyProof blake3 ((insertAll blake3 insertions).root blake3) address account proof = true →
      (insertAll blake3 insertions).slot blake3 address = accountSlot blake3 address account ∨
        Collision blake3 (hashedPreimages blake3 insertions address account proof)) ∧
    (∀ account proof, EmptyHashUnreached blake3 insertions address account →
      verifyProof blake3 ((insertAll blake3 insertions).root blake3) address account proof = true →
      account.isEmpty = false → (insertAll blake3 insertions).slot blake3 address = none →
        Collision blake3 (hashedPreimages blake3 insertions address account proof)) ∧
    ∀ root account other proof otherProof, account.isEmpty = false → other.isEmpty = false →
      account ≠ other →
      verifyProof blake3 root address account proof = true →
      verifyProof blake3 root address other otherProof = true →
      Collision blake3 (verifyPreimages blake3 address account proof ++
        verifyPreimages blake3 address other otherProof) := by
  refine ⟨fun account proof hempty haccept => slot_of_verifyProof blake3 hempty haccept, ?_, ?_⟩
  · intro account proof hempty haccept he hnone
    rcases slot_of_verifyProof blake3 hempty haccept with hs | hcol
    · simp [hnone, accountSlot, he] at hs
    · exact hcol
  · intro root account other proof otherProof he ho hne hacc hother
    by_contra hcol
    have hleaf := leaf_unique blake3 hcol hacc hother
    rw [leafHashFor, leafHashFor, he, ho] at hleaf
    have hpre := eq_of_not_collision hcol
      (x := leafPreimage (accountKeyHash blake3 address) account)
      (y := leafPreimage (accountKeyHash blake3 address) other)
      (by simp [verifyPreimages, leafPreimages, he])
      (by simp [verifyPreimages, leafPreimages, ho]) hleaf
    exact hne (leafPreimage_inj hpre)

end SparseMerkleTrie

end

namespace SparseMerkleTrie

/-- The proof `prove` gives for a funded account under the real hash. -/
theorem verifyProof_sound_alice :
    ∃ proof, (insertAll blake3 [("alice", .eoa ⟨5, 1⟩)]).prove blake3 "alice" (.eoa ⟨5, 1⟩) =
        .ok proof ∧
      ((insertAll blake3 [("alice", .eoa ⟨5, 1⟩)]).slot blake3 "alice" =
          accountSlot blake3 "alice" (.eoa ⟨5, 1⟩) ∨
        Collision blake3
          (hashedPreimages blake3 [("alice", .eoa ⟨5, 1⟩)] "alice" (.eoa ⟨5, 1⟩) proof)) := by
  have hslot : (insertAll blake3 [("alice", .eoa ⟨5, 1⟩)]).slot blake3 "alice" =
      accountSlot blake3 "alice" (.eoa ⟨5, 1⟩) := by
    rw [show insertAll blake3 [("alice", .eoa ⟨5, 1⟩)] =
      (new).insert blake3 "alice" (.eoa ⟨5, 1⟩) from rfl, slot_insert, if_pos rfl]
  have hprove := (prove_eq_ok blake3).mpr ⟨hslot, rfl⟩
  have hne : blake3 (leafPreimage (accountKeyHash blake3 "alice") (.eoa ⟨5, 1⟩)) ≠ EMPTY_HASH := by
    rw [blake3_eq]
    decide +kernel
  refine ⟨_, hprove, (verifyProof_sound blake3 [("alice", .eoa ⟨5, 1⟩)] "alice").1
    (.eoa ⟨5, 1⟩) _ ?_ (verifyProof_of_prove blake3 hprove).2⟩
  intro x hx
  have hx' : x = leafPreimage (accountKeyHash blake3 "alice") (.eoa ⟨5, 1⟩) := by
    simpa [leafPreimages, Account.isEmpty] using hx
  rw [hx']
  exact hne

end SparseMerkleTrie
end Strangecoin
