import Strangecoin.AccountProofs

/-! # Replacing several leaves recomputes the root

`rootAfterUpdates` keeps a table of nodes by depth and path prefix.  Read by bit
paths (`tableOf`), its three passes are those of the multi-leaf update of
`MerkleTree`: enter the old leaves and siblings, overwrite the leaves, recompute
the paths in turn.
-/
namespace Strangecoin
open List Std
open Merkle

/-! ### Node tables by bit path -/

instance : TransOrd NodeKey :=
  inferInstanceAs (Std.TransCmp (compareLex (compareOn fun k : NodeKey => k.1)
    (compareOn fun k : NodeKey => k.2)))

instance : LawfulEqOrd NodeKey where
  eq_of_compare {a b} h := by
    obtain ⟨h₁, h₂⟩ := Ordering.then_eq_eq.mp h
    exact Prod.ext (LawfulEqOrd.eq_of_compare h₁) (LawfulEqOrd.eq_of_compare h₂)

/-- A node table read by bit paths. -/
def tableOf (nodes : NodeTable) : Table Digest := fun p => nodes[((p.length, ofBits p) : NodeKey)]?

theorem tableOf_insert {p : List Bool} (hp : p.length ≤ 256) (nodes : NodeTable) (v : Digest) :
    tableOf (nodes.insert (p.length, ofBits p) v) = Function.update (tableOf nodes) p (some v) := by
  funext q
  rcases eq_or_ne q p with rfl | hne
  · simp [tableOf]
  · have hkey : ((q.length, ofBits q) : NodeKey) ≠ (p.length, ofBits p) := by
      intro h
      obtain ⟨hlen, hbits⟩ := Prod.mk.inj h
      exact hne (ofBits_injOn hlen (hlen ▸ hp) hbits)
    rw [Function.update_of_ne hne]
    simp only [tableOf, HashMap.get?_insert, if_neg hkey]

theorem bits_eq_of_ofBits (key : Digest) : ofBits (bits key) = key := by
  apply bits_injective
  exact bits_ofBits (by simp)

theorem tableOf_insert_leaf (nodes : NodeTable) (key v : Digest) :
    tableOf (nodes.insert (DEPTH, key) v) =
      Function.update (tableOf nodes) (bits key) (some v) := by
  have h := tableOf_insert (p := bits key) (by simp) nodes v
  rwa [length_bits, bits_eq_of_ofBits] at h

variable {key : Digest}

theorem length_take_bits_of_le {k : Nat} (h : k ≤ 256) : ((bits key).take k).length = k := by
  rw [length_take, length_bits]
  omega

theorem length_siblingOf_bits {key : Digest} {level : Nat} (h : level < 256) :
    (siblingOf (bits key) level).length = level + 1 :=
  length_siblingOf (by simpa using h)

section
variable (blake3 : List UInt8 → Digest)

namespace SparseMerkleTrie

variable {nodes : NodeTable} {t : Table Digest}

/-- One level of the source's loop is one `rehashStep`. -/
theorem rehashLevel_sim {level : Nat} (hl : level < 256)
    (h : rehashStep (hashPair blake3) (bits key) (tableOf nodes) level = some t) :
    ∃ nodes', rehashLevel blake3 key nodes level = .ok nodes' ∧ tableOf nodes' = t := by
  have hon : nodes[((level + 1, pathPrefix key (level + 1)) : NodeKey)]? =
      tableOf nodes ((bits key).take (level + 1)) := by
    rw [tableOf, length_take_bits_of_le (by omega), pathPrefix_eq]
  have hoff : nodes[((level + 1, siblingPath key level) : NodeKey)]? =
      tableOf nodes (siblingOf (bits key) level) := by
    rw [tableOf, length_siblingOf_bits hl, siblingPath_eq hl]
  have hput : ∀ v, tableOf (nodes.insert (level, pathPrefix key level) v) =
      Function.update (tableOf nodes) ((bits key).take level) (some v) := by
    intro v
    rw [← tableOf_insert (by rw [length_take_bits_of_le hl.le]; omega),
      length_take_bits_of_le hl.le, pathPrefix_eq]
  -- both children are in the table
  unfold rehashStep at h
  obtain ⟨below, hbelow, h⟩ := Option.bind_eq_some_iff.mp h
  obtain ⟨sibling, hsibling, h⟩ := Option.bind_eq_some_iff.mp h
  rw [hbelow] at hon
  rw [hsibling] at hoff
  rw [getD_bits hl] at h
  refine ⟨nodes.insert (level, pathPrefix key level)
    (join (hashPair blake3) (bit key level) below sibling), ?_, ?_⟩
  · unfold rehashLevel
    cases hb : bit key level with
    | false => simp [bitAt_eq_zero, hb, hon, hoff, okOr, join, joinPair]; rfl
    | true => simp [bitAt_eq_zero, hb, hon, hoff, okOr, join, joinPair]; rfl
  · rw [hput]
    exact Option.some.inj h

theorem rehashLevels_sim {levels : List Nat} (hlevels : ∀ l ∈ levels, l < 256)
    (h : levels.foldlM (rehashStep (hashPair blake3) (bits key)) (tableOf nodes) = some t) :
    ∃ nodes', levels.foldlM (rehashLevel blake3 key) nodes = .ok nodes' ∧ tableOf nodes' = t := by
  induction levels generalizing nodes with
  | nil => exact ⟨nodes, rfl, Option.some.inj h⟩
  | cons l levels ih =>
    rw [foldlM_cons] at h
    obtain ⟨t₁, hstep, hrest⟩ := Option.bind_eq_some_iff.mp h
    obtain ⟨nodes₁, hstep', rfl⟩ := rehashLevel_sim blake3 (hlevels l (mem_cons_self ..)) hstep
    obtain ⟨nodes₂, hrest', rfl⟩ := ih (fun l hl => hlevels l (mem_cons_of_mem _ hl)) hrest
    exact ⟨nodes₂, foldlM_cons_ok.mpr ⟨nodes₁, hstep', hrest'⟩, rfl⟩

/-- The paths of a list of updates. -/
def updatePaths (updates : List LeafUpdate) : List (List Bool) :=
  updates.map fun u => bits (accountKeyHash blake3 u.address)

variable {updates : List LeafUpdate}

theorem rehashUpdates_sim
    (h : (updatePaths blake3 updates).foldlM (rehash (hashPair blake3)) (tableOf nodes) = some t) :
    ∃ nodes', updates.foldlM (rehashUpdate blake3) nodes = .ok nodes' ∧ tableOf nodes' = t := by
  induction updates generalizing nodes with
  | nil => exact ⟨nodes, rfl, Option.some.inj h⟩
  | cons u updates ih =>
    rw [updatePaths, map_cons, foldlM_cons] at h
    obtain ⟨t₁, hstep, hrest⟩ := Option.bind_eq_some_iff.mp h
    rw [rehash, length_bits] at hstep
    obtain ⟨nodes₁, hstep', rfl⟩ := rehashLevels_sim blake3 (by simp) hstep
    obtain ⟨nodes₂, hrest', rfl⟩ := ih hrest
    exact ⟨nodes₂, foldlM_cons_ok.mpr ⟨nodes₁, hstep', hrest'⟩, rfl⟩

/-! ### Entering the old leaves and siblings -/

/-- The first pass: every entry is a node of the old tree, and the siblings of
the keys seen so far are there. -/
structure Seeded (leaf : List Bool → Digest) (keys : List Digest) (t : Table Digest) : Prop where
  value : ∀ p v, t p = some v → v = treeHash (hashPair blake3) leaf (256 - p.length) p
  sibling : ∀ key ∈ keys, ∀ level, level < 256 → (t (siblingOf (bits key) level)).isSome

variable {blake3}

variable {leaf : List Bool → Digest} {keys : List Digest}

theorem Seeded.update (h : Seeded blake3 leaf keys t) (p : List Bool) :
    Seeded blake3 leaf keys
      (Function.update t p (some (treeHash (hashPair blake3) leaf (256 - p.length) p))) where
  value := by
    intro q v hq
    rcases eq_or_ne q p with rfl | hne
    · rw [Function.update_self] at hq
      exact (Option.some.inj hq).symm
    · rw [Function.update_of_ne hne] at hq
      exact h.value q v hq
  sibling := by
    intro key hkey level hlevel
    rcases eq_or_ne (siblingOf (bits key) level) p with heq | hne
    · rw [heq, Function.update_self]
      rfl
    · rw [Function.update_of_ne hne]
      exact h.sibling key hkey level hlevel

/-- The siblings of one key are entered level by level. -/
theorem Seeded.levels {proof : List Digest}
    (hproof : proof = siblings (hashPair blake3) leaf [] (bits key))
    (h : Seeded blake3 leaf keys (tableOf nodes)) {k : Nat} (hk : k ≤ 256) :
    ∃ nodes', (List.range k).foldl
        (fun nodes level =>
          nodes.insert (level + 1, siblingPath key level) (proof.getD level zeroDigest)) nodes =
        nodes' ∧
      Seeded blake3 leaf keys (tableOf nodes') ∧
      ∀ level, level < k → (tableOf nodes' (siblingOf (bits key) level)).isSome := by
  induction k with
  | zero => exact ⟨nodes, rfl, h, by simp⟩
  | succ k ih =>
    obtain ⟨nodes₁, hrun, hseed, hsome⟩ := ih (by omega)
    have hlen := @length_siblingOf_bits key k (by omega)
    have hval : proof.getD k zeroDigest = treeHash (hashPair blake3) leaf
        (256 - (siblingOf (bits key) k).length) (siblingOf (bits key) k) := by
      rw [hproof, getD_eq_getElem?_getD,
        getElem?_siblings leaf [] (by rw [length_bits]; omega), length_bits, hlen]
      rfl
    have hput : tableOf (nodes₁.insert (k + 1, siblingPath key k) (proof.getD k zeroDigest)) =
        Function.update (tableOf nodes₁) (siblingOf (bits key) k)
          (some (proof.getD k zeroDigest)) := by
      rw [← tableOf_insert (by rw [hlen]; omega), hlen, siblingPath_eq (by omega)]
    refine ⟨nodes₁.insert (k + 1, siblingPath key k) (proof.getD k zeroDigest), ?_, ?_, ?_⟩
    · rw [range_succ, foldl_append, hrun, foldl_cons, foldl_nil]
    · rw [hput, hval]
      exact hseed.update _
    · intro level hlevel
      rw [hput]
      rcases eq_or_ne (siblingOf (bits key) level) (siblingOf (bits key) k) with heq | hne
      · rw [heq, Function.update_self]
        rfl
      · rw [Function.update_of_ne hne]
        refine hsome level ?_
        rcases Nat.lt_succ_iff_lt_or_eq.mp hlevel with hlt | rfl
        · exact hlt
        · exact absurd rfl hne

/-- An update whose old account and proof are those of a tree. -/
structure Anchored (blake3 : List UInt8 → Digest) (preRoot : Digest) (leaf : List Bool → Digest)
    (update : LeafUpdate) : Prop where
  accepted : verifyProof blake3 preRoot update.address update.pre update.proof = true
  pre_leaf : leafHashFor blake3 (accountKeyHash blake3 update.address) update.pre =
    leaf (bits (accountKeyHash blake3 update.address))
  proof_eq : update.proof = siblings (hashPair blake3) leaf []
    (bits (accountKeyHash blake3 update.address))

variable {preRoot : Digest}

theorem Seeded.seedUpdate {update : LeafUpdate} (hu : Anchored blake3 preRoot leaf update)
    (h : Seeded blake3 leaf keys (tableOf nodes)) :
    ∃ nodes', SparseMerkleTrie.seedUpdate blake3 preRoot nodes update = .ok nodes' ∧
      Seeded blake3 leaf (keys ++ [accountKeyHash blake3 update.address]) (tableOf nodes') := by
  have hleaf : tableOf (nodes.insert (DEPTH, accountKeyHash blake3 update.address)
      (leafHashFor blake3 (accountKeyHash blake3 update.address) update.pre)) =
      Function.update (tableOf nodes) (bits (accountKeyHash blake3 update.address))
        (some (treeHash (hashPair blake3) leaf
          (256 - (bits (accountKeyHash blake3 update.address)).length)
          (bits (accountKeyHash blake3 update.address)))) := by
    rw [tableOf_insert_leaf, hu.pre_leaf, length_bits, Nat.sub_self, treeHash]
  have hseed := h.update (bits (accountKeyHash blake3 update.address))
  rw [← hleaf] at hseed
  obtain ⟨nodes', hrun, hseed', hsome⟩ := hseed.levels hu.proof_eq (show DEPTH ≤ 256 from le_rfl)
  refine ⟨nodes', ?_, hseed'.value, ?_⟩
  · exact bind_eq_ok.mpr ⟨(), guardWith_eq_ok.mpr hu.accepted, congrArg Except.ok hrun⟩
  · intro key hkey level hlevel
    rcases mem_append.mp hkey with hkey | hkey
    · exact hseed'.sibling key hkey level hlevel
    · rw [mem_singleton.mp hkey]
      exact hsome level hlevel

theorem Seeded.seedUpdates (hu : ∀ u ∈ updates, Anchored blake3 preRoot leaf u)
    (h : Seeded blake3 leaf keys (tableOf nodes)) :
    ∃ nodes', updates.foldlM (SparseMerkleTrie.seedUpdate blake3 preRoot) nodes = .ok nodes' ∧
      Seeded blake3 leaf (keys ++ updates.map (fun u => accountKeyHash blake3 u.address))
        (tableOf nodes') := by
  induction updates generalizing nodes keys with
  | nil => exact ⟨nodes, rfl, by simpa using h⟩
  | cons u updates ih =>
    obtain ⟨nodes₁, hstep, h₁⟩ := h.seedUpdate (hu u (mem_cons_self ..))
    obtain ⟨nodes₂, hrest, h₂⟩ := ih (fun v hv => hu v (mem_cons_of_mem _ hv)) h₁
    exact ⟨nodes₂, foldlM_cons_ok.mpr ⟨nodes₁, hstep, hrest⟩, by simpa using h₂⟩

/-! ### Overwriting the leaves -/

theorem tableOf_writeLeaf (nodes : NodeTable) (update : LeafUpdate) :
    tableOf (writeLeaf blake3 nodes update) =
      Function.update (tableOf nodes) (bits (accountKeyHash blake3 update.address))
        (some (leafHashFor blake3 (accountKeyHash blake3 update.address) update.post)) := by
  unfold writeLeaf
  exact tableOf_insert_leaf _ _ _

theorem tableOf_writeLeaves
    (hpost : ∀ u ∈ updates, leafHashFor blake3 (accountKeyHash blake3 u.address) u.post =
      leaf (bits (accountKeyHash blake3 u.address))) (nodes : NodeTable) (p : List Bool) :
    tableOf (updates.foldl (writeLeaf blake3) nodes) p =
      if p ∈ updatePaths blake3 updates then some (leaf p) else tableOf nodes p := by
  induction updates generalizing nodes with
  | nil => simp [updatePaths]
  | cons u updates ih =>
    rw [foldl_cons, ih (fun v hv => hpost v (mem_cons_of_mem _ hv)),
      tableOf_writeLeaf, hpost u (mem_cons_self ..)]
    have hmem : p ∈ updatePaths blake3 (u :: updates) ↔
        p = bits (accountKeyHash blake3 u.address) ∨ p ∈ updatePaths blake3 updates :=
      mem_cons
    by_cases hp : p ∈ updatePaths blake3 updates
    · rw [if_pos hp, if_pos (hmem.mpr (.inr hp))]
    · rw [if_neg hp]
      rcases eq_or_ne p (bits (accountKeyHash blake3 u.address)) with rfl | hne
      · rw [Function.update_self, if_pos (hmem.mpr (.inl rfl))]
      · rw [Function.update_of_ne hne, if_neg (by simp [hmem, hne, hp])]

/-! ### The root -/

/-- **Multi-leaf update.**  If the old accounts and proofs are those of a tree,
the new accounts' leaves are those of a second tree, and the two trees agree
elsewhere, then `rootAfterUpdates` is the root of the second. -/
theorem rootAfterUpdates_eq {leaf' : List Bool → Digest} (hne : updates ≠ [])
    (hu : ∀ u ∈ updates, Anchored blake3 preRoot leaf u)
    (hpost : ∀ u ∈ updates, leafHashFor blake3 (accountKeyHash blake3 u.address) u.post =
      leaf' (bits (accountKeyHash blake3 u.address)))
    (hframe : ∀ p, p.length = 256 → p ∉ updatePaths blake3 updates → leaf' p = leaf p) :
    rootAfterUpdates blake3 preRoot updates =
      .ok (treeHash (hashPair blake3) leaf' 256 []) := by
  have hstart : Seeded blake3 leaf [] (tableOf ∅) :=
    ⟨fun p v hp => by simp [tableOf] at hp, fun key hkey => by simp at hkey⟩
  obtain ⟨seeded, hseed, hS⟩ := hstart.seedUpdates hu
  have hwrite := tableOf_writeLeaves hpost seeded
  have hlens : ∀ v ∈ updatePaths blake3 updates, v.length = 256 := by
    intro v hv
    obtain ⟨u, -, rfl⟩ := mem_map.mp hv
    exact length_bits _
  have hpaths : updatePaths blake3 updates ≠ [] := by simpa [updatePaths] using hne
  have hsibling : ∀ u ∈ updatePaths blake3 updates, ∀ level, level < 256 →
      (tableOf seeded (siblingOf u level)).isSome := by
    intro u hu level hlevel
    obtain ⟨v, hv, rfl⟩ := mem_map.mp hu
    exact hS.sibling _ (by simpa using ⟨v, hv, rfl⟩) level hlevel
  have hfresh : Fresh (hashPair blake3) 256 (updatePaths blake3 updates) leaf'
      (updatePaths blake3 updates) (tableOf (updates.foldl (writeLeaf blake3) seeded)) := by
    constructor
    case leaf_mem =>
      intro u hu
      rw [hwrite, if_pos hu]
    case sibling_mem =>
      intro u hu level hlevel
      rw [hwrite]
      split
      · rfl
      · exact hsibling u hu level hlevel
    case final =>
      intro p hp hoff
      -- no updated leaf lies below `p`, so it is a sibling and its digest did not change
      have hnot : p ∉ updatePaths blake3 updates := fun hmem => hoff p hmem (by simp [OnPath])
      rw [hwrite, if_neg hnot]
      rcases hp with ⟨u, hu, hon⟩ | ⟨u, hu, level, hlevel, rfl⟩
      · exact absurd hon (hoff u hu)
      · obtain ⟨v, hv⟩ := Option.isSome_iff_exists.mp (hsibling u hu level hlevel)
        have hlen := @length_siblingOf u level (by rw [hlens u hu]; exact hlevel)
        rw [hv, hS.value _ v hv, treeHash_congr]
        intro q hq
        refine (hframe _ (by rw [length_append, hq, hlen]; omega) (fun hmem => ?_)).symm
        exact hoff _ hmem (by simp [OnPath])
  obtain ⟨t, hrun, hroot⟩ := rehashAll_root hlens hpaths hfresh
  obtain ⟨rehashed, hrun', rfl⟩ := rehashUpdates_sim blake3 hrun
  unfold rootAfterUpdates
  rw [if_neg (by simpa using hne), bind_eq_ok]
  refine ⟨seeded, hseed, bind_eq_ok.mpr ⟨rehashed, hrun', okOr_eq_ok.mpr ?_⟩⟩
  rw [tableOf] at hroot
  exact hroot

/-! ### Account maps -/

variable (blake3)

theorem computeRoot_eq (accounts : HashMap String Account) :
    computeRoot blake3 accounts =
      treeHash (hashPair blake3) (leafOf (sortByKey (accountLeaves blake3 accounts))) 256 [] := by
  rw [← hashRange_sortByKey, computeRoot]
  split
  · rename_i h
    have hnil : accountLeaves blake3 accounts = [] := by
      have htoList : accounts.toList = [] := by simpa using h
      simp [accountLeaves, htoList]
    rw [hnil, sortByKey, mergeSort_nil, hashRange_nil]
    rfl
  · rfl

variable {accounts : HashMap String Account}

theorem mem_accountLeaves {e : Digest × Digest} :
    e ∈ accountLeaves blake3 accounts ↔ ∃ address account, accounts[address]? = some account ∧
      account.isEmpty = false ∧ e = (accountKeyHash blake3 address,
        accountLeafHash blake3 (accountKeyHash blake3 address) account) := by
  unfold accountLeaves
  rw [mem_map]
  constructor
  · rintro ⟨⟨address, account⟩, hmem, rfl⟩
    obtain ⟨hmem, hne⟩ := mem_filter.mp hmem
    exact ⟨address, account, ExtTreeMap.mem_toList_iff_getElem?_eq_some.mp hmem,
      by simpa using hne, rfl⟩
  · rintro ⟨address, account, hget, hne, rfl⟩
    exact ⟨(address, account), mem_filter.mpr
      ⟨ExtTreeMap.mem_toList_iff_getElem?_eq_some.mpr hget, by simpa using hne⟩, rfl⟩

/-- The leaf of an account map at the key of an address, when no other address of
the map has that key. -/
theorem leafOf_accountLeaves {address : String}
    (hkeys : ∀ a ∈ accounts, accountKeyHash blake3 a = accountKeyHash blake3 address →
      a = address) :
    leafOf (sortByKey (accountLeaves blake3 accounts)) (bits (accountKeyHash blake3 address)) =
      leafHashFor blake3 (accountKeyHash blake3 address)
        (accounts[address]?.getD Account.default) := by
  have hown : ∀ e ∈ accountLeaves blake3 accounts, e.1 = accountKeyHash blake3 address →
      ∃ account, accounts[address]? = some account ∧ account.isEmpty = false ∧
        e.2 = accountLeafHash blake3 (accountKeyHash blake3 address) account := by
    intro e he hkey
    obtain ⟨a, account, hget, hne, rfl⟩ := (mem_accountLeaves blake3).mp he
    have ha : a ∈ accounts := by
      rw [ExtTreeMap.mem_iff_isSome_getElem?, hget]
      rfl
    obtain rfl := hkeys a ha hkey
    exact ⟨account, hget, hne, rfl⟩
  by_cases hpresent : ∃ account, accounts[address]? = some account ∧ account.isEmpty = false
  · obtain ⟨account, hget, hne⟩ := hpresent
    rw [hget, Option.getD_some, leafHashFor, hne]
    apply leafOf_of_mem
    · exact ⟨_, (mem_accountLeaves blake3).mpr ⟨address, account, hget, hne, rfl⟩, rfl⟩
    · intro e he hkey
      obtain ⟨account', hget', -, hval⟩ := hown e he hkey
      rw [hget] at hget'
      rw [hval, Option.some.inj hget']
      rfl
  · rw [leafOf_of_not_mem (fun e he hkey => ?_)]
    · cases hget : accounts[address]? with
      | none => rfl
      | some account =>
        have : account.isEmpty = true := by
          by_contra hne
          exact hpresent ⟨account, hget, by simpa using hne⟩
        simp [leafHashFor, this]
    · obtain ⟨account, hget, hne, -⟩ := hown e he hkey
      exact hpresent ⟨account, hget, hne⟩

theorem leafOf_accountLeaves_absent (h : ∀ a ∈ accounts, accountKeyHash blake3 a ≠ key) :
    leafOf (sortByKey (accountLeaves blake3 accounts)) (bits key) = EMPTY_HASH := by
  apply leafOf_of_not_mem
  intro e he hkey
  obtain ⟨a, account, hget, -, rfl⟩ := (mem_accountLeaves blake3).mp he
  refine h a ?_ hkey
  rw [ExtTreeMap.mem_iff_isSome_getElem?, hget]
  rfl

/-- The insertions `buildTrie` makes. -/
def trieInsertions (accounts : HashMap String Account) : List (String × Account) :=
  accounts.toList.mergeSort (fun a b =>
    (compare (accountKeyHash blake3 a.1) (accountKeyHash blake3 b.1)).isLE)

theorem buildTrie_eq (accounts : HashMap String Account) :
    buildTrie blake3 accounts = insertAll blake3 (trieInsertions blake3 accounts) := rfl

theorem mem_trieInsertions {e : String × Account} :
    e ∈ trieInsertions blake3 accounts ↔ accounts[e.1]? = some e.2 := by
  rw [trieInsertions, mem_mergeSort]
  exact ExtTreeMap.mem_toList_iff_getElem?_eq_some

theorem lastInserted_trieInsertions (accounts : HashMap String Account) (address : String) :
    lastInserted (trieInsertions blake3 accounts) address = accounts[address]? := by
  unfold lastInserted
  cases hfind : (trieInsertions blake3 accounts).reverse.find? (fun e => e.1 == address) with
  | some e =>
    have hmem := (mem_trieInsertions blake3).mp
      (mem_reverse.mp (mem_of_find?_eq_some hfind))
    have haddr : e.1 = address := by simpa using find?_some hfind
    rw [← haddr, hmem]
    rfl
  | none =>
    cases hget : accounts[address]? with
    | none => rfl
    | some account =>
      have hmem : (address, account) ∈ (trieInsertions blake3 accounts).reverse :=
        mem_reverse.mpr ((mem_trieInsertions blake3).mpr hget)
      have hnot := find?_eq_none.mp hfind _ hmem
      simp at hnot

/-- The trie of a map and the leaves of the map are one tree. -/
theorem leafOf_buildTrie (hkeys : Set.InjOn (accountKeyHash blake3) {a | a ∈ accounts})
    (key : Digest) :
    leafOf (sortByKey (buildTrie blake3 accounts).leaves.toList) (bits key) =
      leafOf (sortByKey (accountLeaves blake3 accounts)) (bits key) := by
  have haddr : ∀ a, a ∈ (trieInsertions blake3 accounts).map Prod.fst → a ∈ accounts := by
    intro a ha
    obtain ⟨e, he, rfl⟩ := mem_map.mp ha
    rw [ExtTreeMap.mem_iff_isSome_getElem?, (mem_trieInsertions blake3).mp he]
    rfl
  rw [leafOf_leaves, buildTrie_eq]
  by_cases hused : ∃ a ∈ accounts, accountKeyHash blake3 a = key
  · obtain ⟨a, ha, rfl⟩ := hused
    have hslot := @slot_insertAll blake3 (trieInsertions blake3 accounts) a
      (hkeys.mono (fun b hb => by
        rcases hb with rfl | hb
        · exact ha
        · exact haddr b hb))
    rw [slot, lastInserted_trieInsertions] at hslot
    rw [hslot, leafOf_accountLeaves blake3 (fun b hb h => hkeys hb ha h)]
    obtain ⟨account, hget⟩ := Option.isSome_iff_exists.mp
      (ExtTreeMap.mem_iff_isSome_getElem?.mp ha)
    rw [hget, Option.bind_some, Option.getD_some, accountSlot, leafHashFor]
    split <;> rfl
  · rw [leafOf_accountLeaves_absent blake3 (fun a ha h => hused ⟨a, ha, h⟩)]
    cases hleaf : (insertAll blake3 (trieInsertions blake3 accounts)).leaves[key]? with
    | none => rfl
    | some leaf =>
      obtain ⟨e, he, hkey, -⟩ := leaves_insertAll_some blake3 hleaf
      exact absurd ⟨e.1, haddr _ (mem_map_of_mem he), hkey⟩ hused

/-! ### Installing updates -/

/-- The map with one update's new account; an empty one is removed. -/
def installUpdate (accounts : HashMap String Account) (update : LeafUpdate) :
    HashMap String Account :=
  if update.post.isEmpty then accounts.erase update.address
  else accounts.insert update.address update.post

def installUpdates (accounts : HashMap String Account) (updates : List LeafUpdate) :
    HashMap String Account :=
  updates.foldl installUpdate accounts

theorem get?_installUpdate (accounts : HashMap String Account) (update : LeafUpdate) (a : String) :
    (installUpdate accounts update)[a]? =
      if a = update.address then (if update.post.isEmpty then none else some update.post)
      else accounts[a]? := by
  unfold installUpdate
  cases update.post.isEmpty <;> simp

theorem get?_installUpdates_of_not_mem {a : String} (h : a ∉ updates.map LeafUpdate.address)
    (accounts : HashMap String Account) : (installUpdates accounts updates)[a]? = accounts[a]? := by
  induction updates generalizing accounts with
  | nil => rfl
  | cons u updates ih =>
    rw [map_cons, mem_cons, not_or] at h
    have hrest := ih h.2 (installUpdate accounts u)
    rw [get?_installUpdate, if_neg h.1] at hrest
    exact hrest

theorem get?_installUpdates {u : LeafUpdate} (hu : u ∈ updates)
    (hnodup : (updates.map LeafUpdate.address).Nodup) (accounts : HashMap String Account) :
    (installUpdates accounts updates)[u.address]? =
      if u.post.isEmpty then none else some u.post := by
  induction updates generalizing accounts with
  | nil => simp at hu
  | cons v updates ih =>
    obtain ⟨hv, hrest⟩ := nodup_cons.mp hnodup
    rcases mem_cons.mp hu with rfl | hu
    · have hkeep := get?_installUpdates_of_not_mem hv (installUpdate accounts u)
      rw [get?_installUpdate, if_pos rfl] at hkeep
      exact hkeep
    · exact ih hu hrest (installUpdate accounts v)

/-- The trie of a map answers for the account at every address. -/
theorem prove_buildTrie {accounts : HashMap String Account} {a : String}
    (hkeys : ∀ b ∈ accounts, accountKeyHash blake3 b = accountKeyHash blake3 a → b = a)
    (hold : Set.InjOn (accountKeyHash blake3) {b | b ∈ accounts}) :
    ∃ proof, (buildTrie blake3 accounts).prove blake3 a (accounts[a]?.getD Account.default) =
      .ok proof := by
  refine ⟨_, (prove_eq_ok blake3).mpr ⟨?_, rfl⟩⟩
  have hmem : ∀ b ∈ (trieInsertions blake3 accounts).map Prod.fst, b ∈ accounts := by
    intro b hb
    obtain ⟨e, he, rfl⟩ := mem_map.mp hb
    rw [ExtTreeMap.mem_iff_isSome_getElem?, (mem_trieInsertions blake3).mp he]
    rfl
  rw [buildTrie_eq, slot_insertAll blake3, lastInserted_trieInsertions]
  · cases accounts[a]? with
    | none => rfl
    | some account => rfl
  · rintro b (rfl | hb) c (rfl | hc) h
    · rfl
    · exact (hkeys c (hmem c hc) h.symm).symm
    · exact hkeys b (hmem b hb) h
    · exact hold (hmem b hb) (hmem c hc) h

/-- A proof from the trie of a map is anchored in the map's tree. -/
theorem anchored_of_prove {accounts : HashMap String Account}
    (hkeys : Set.InjOn (accountKeyHash blake3) {a | a ∈ accounts}) {u : LeafUpdate}
    (hproved : (buildTrie blake3 accounts).prove blake3 u.address u.pre = .ok u.proof) :
    Anchored blake3 (computeRoot blake3 accounts)
      (leafOf (sortByKey (accountLeaves blake3 accounts))) u := by
  have htree : ∀ p, p.length = 256 →
      leafOf (sortByKey (buildTrie blake3 accounts).leaves.toList) p =
        leafOf (sortByKey (accountLeaves blake3 accounts)) p := by
    intro p hp
    rw [← bits_ofBits hp]
    exact leafOf_buildTrie blake3 hkeys _
  have hroot : (buildTrie blake3 accounts).root blake3 = computeRoot blake3 accounts := by
    rw [computeRoot_eq, root, hashRange_sortByKey]
    exact treeHash_congr (fun q hq => htree _ (by simpa using hq))
  obtain ⟨hslot, hproof⟩ := (prove_eq_ok blake3).mp hproved
  refine ⟨?_, ?_, ?_⟩
  · rw [← hroot]
    exact (verifyProof_of_prove blake3 hproved).2
  · rw [← htree _ (length_bits _), leafOf_leaves]
    unfold slot accountSlot at hslot
    rw [hslot, leafHashFor]
    split <;> rfl
  · have hslice : IsSlice 256 ((bits (accountKeyHash blake3 u.address)).take (256 - 256))
        (sortByKey (buildTrie blake3 accounts).leaves.toList) := isSlice_sortByKey _
    have hcollected := collectSiblings_eq_siblings blake3 hslice
    rw [hproof, show DEPTH = 256 from rfl, hcollected]
    exact siblings_congr (fun q hq => htree _ (by simpa using hq))

/-- **The root of a second map.**  If the updates are anchored in the tree of a map, carry
the accounts of a second map, and the two maps agree elsewhere, then the updated root
is the root of the second map. -/
theorem rootAfterUpdates_of_frame {accounts' : HashMap String Account}
    (hkeys : Set.InjOn (accountKeyHash blake3)
      {a | a ∈ accounts ∨ a ∈ updates.map LeafUpdate.address})
    (hanchored : ∀ u ∈ updates, Anchored blake3 (computeRoot blake3 accounts)
      (leafOf (sortByKey (accountLeaves blake3 accounts))) u)
    (hpost : ∀ u ∈ updates, leafHashFor blake3 (accountKeyHash blake3 u.address) u.post =
      leafHashFor blake3 (accountKeyHash blake3 u.address)
        (accounts'[u.address]?.getD Account.default))
    (hframe : ∀ a : String, a ∉ updates.map LeafUpdate.address → accounts'[a]? = accounts[a]?) :
    rootAfterUpdates blake3 (computeRoot blake3 accounts) updates =
      .ok (computeRoot blake3 accounts') := by
  rcases eq_or_ne updates [] with rfl | hne
  · obtain rfl : accounts' = accounts :=
      HashMap.ext_get? fun a => hframe a (by simp)
    rfl
  have hmem : ∀ a ∈ accounts', a ∈ accounts ∨ a ∈ updates.map LeafUpdate.address := by
    intro a ha
    by_cases hu : a ∈ updates.map LeafUpdate.address
    · exact .inr hu
    · rw [ExtTreeMap.mem_iff_isSome_getElem?, hframe a hu] at ha
      exact .inl (ExtTreeMap.mem_iff_isSome_getElem?.mpr ha)
  rw [computeRoot_eq blake3 accounts']
  refine rootAfterUpdates_eq hne hanchored ?_ ?_
  · intro u hu
    rw [hpost u hu, leafOf_accountLeaves blake3]
    intro a ha h
    exact hkeys (hmem a ha) (.inr (mem_map_of_mem hu)) h
  · intro p hp hoff
    -- a key that is not updated belongs to the same account of both maps, or to none
    have hkey : ∀ a, accountKeyHash blake3 a = ofBits p → a ∉ updates.map LeafUpdate.address := by
      intro a ha hmem
      obtain ⟨u, hu, rfl⟩ := mem_map.mp hmem
      refine hoff (mem_map.mpr ⟨u, hu, ?_⟩)
      rw [ha, bits_ofBits hp]
    rw [← bits_ofBits hp]
    by_cases hused : ∃ a ∈ accounts, accountKeyHash blake3 a = ofBits p
    · obtain ⟨a, ha, hap⟩ := hused
      rw [← hap, leafOf_accountLeaves blake3 (fun b hb h => hkeys (hmem b hb) (.inl ha) h),
        leafOf_accountLeaves blake3 (fun b hb h => hkeys (.inl hb) (.inl ha) h),
        hframe a (hkey a hap)]
    · rw [leafOf_accountLeaves_absent blake3 (fun a ha h => hused ⟨a, ha, h⟩),
        leafOf_accountLeaves_absent blake3 (fun a ha h => ?_)]
      rcases hmem a ha with ha | ha
      · exact hused ⟨a, ha, h⟩
      · exact hkey a h ha

/-- **Multi-leaf root update equals recomputation.**  For updates on different
keys whose old accounts and proofs come from the trie of a map, the updated root
is the root of the map with the updates installed.  No two addresses of the map
and the updates may have one key hash. -/
theorem rootAfterUpdates_eq_computeRoot (accounts : HashMap String Account)
    (updates : List LeafUpdate)
    (hkeys : Set.InjOn (accountKeyHash blake3)
      {a | a ∈ accounts ∨ a ∈ updates.map LeafUpdate.address})
    (hdistinct : (updates.map fun u => accountKeyHash blake3 u.address).Nodup)
    (hproved : ∀ u ∈ updates,
      (buildTrie blake3 accounts).prove blake3 u.address u.pre = .ok u.proof) :
    rootAfterUpdates blake3 (computeRoot blake3 accounts) updates =
      .ok (computeRoot blake3 (installUpdates accounts updates)) := by
  have hnodup : (updates.map LeafUpdate.address).Nodup := by
    refine List.Nodup.of_map (accountKeyHash blake3) ?_
    rwa [map_map]
  refine rootAfterUpdates_of_frame blake3 hkeys ?_ ?_ ?_
  · intro u hu
    exact anchored_of_prove blake3 (hkeys.mono (fun a ha => .inl ha)) (hproved u hu)
  · intro u hu
    rw [get?_installUpdates hu hnodup]
    cases he : u.post.isEmpty with
    | true => simp [leafHashFor, he]
    | false => simp
  · intro a ha
    exact get?_installUpdates_of_not_mem ha accounts

end SparseMerkleTrie
end

namespace SparseMerkleTrie

/-- A payment from one account of a map to a new one, under the real hash. -/
theorem rootAfterUpdates_payment :
    let accounts : HashMap String Account := (∅ : HashMap String Account).insert "alice" (.eoa ⟨5, 0⟩)
    let proof := fun address => collectSiblings blake3 (accountKeyHash blake3 address) DEPTH
      (sortByKey (buildTrie blake3 accounts).leaves.toList)
    let updates : List LeafUpdate :=
      [⟨"bob", .default, proof "bob", .eoa ⟨2, 0⟩⟩, ⟨"alice", .eoa ⟨5, 0⟩, proof "alice", .eoa ⟨3, 1⟩⟩]
    rootAfterUpdates blake3 (computeRoot blake3 accounts) updates =
      .ok (computeRoot blake3 (installUpdates accounts updates)) := by
  intro accounts proof updates
  have hne : accountKeyHash blake3 "bob" ≠ accountKeyHash blake3 "alice" := by decide +kernel
  have htrie : buildTrie blake3 accounts = new.insert blake3 "alice" (.eoa ⟨5, 0⟩) := by
    have hlist : accounts.toList = [("alice", Account.eoa ⟨5, 0⟩)] := by decide
    rw [buildTrie, hlist, mergeSort_singleton]
    rfl
  refine rootAfterUpdates_eq_computeRoot blake3 accounts updates ?_ ?_ ?_
  · refine (Set.injOn_pair.mpr (fun h => absurd h hne)).mono ?_
    rintro a (ha | ha)
    · have hget := ExtTreeMap.mem_iff_isSome_getElem?.mp ha
      rw [HashMap.get?_insert] at hget
      by_cases hal : a = "alice"
      · exact .inr hal
      · simp [hal] at hget
    · simpa [updates] using ha
  · simpa [updates] using hne
  · have hproof : ∀ address account,
        (buildTrie blake3 accounts).slot blake3 address = accountSlot blake3 address account →
        (buildTrie blake3 accounts).prove blake3 address account = .ok (proof address) :=
      fun address account h => (prove_eq_ok blake3).mpr ⟨h, rfl⟩
    have hslot := fun address => slot_insert blake3 new "alice" address (.eoa ⟨5, 0⟩)
    rw [htrie] at hproof
    rw [htrie]
    intro u hu
    rcases mem_cons.mp hu with rfl | hu
    · refine hproof "bob" .default ?_
      rw [hslot, if_neg hne]
      simp [slot, new, accountSlot]
    · obtain rfl := mem_singleton.mp hu
      refine hproof "alice" (.eoa ⟨5, 0⟩) ?_
      rw [hslot, if_pos rfl]

end SparseMerkleTrie
end Strangecoin
