import Strangecoin.LeafUpdates

/-! # The roots bind the state

Equal roots mean equal contents.  A root fixes the leaf at every key, and a leaf
fixes the account or the storage value it was hashed from, unless two of the
strings hashed for the two roots collide (`Collision`).  Empty accounts have no leaf; empty
storage has the zero root, so there a string that hashes to zero is the other way out.
-/
namespace Strangecoin
open List Std
open Merkle SparseMerkleTrie

/-- An account map without its empty accounts. -/
def dropEmpty (accounts : HashMap String Account) : HashMap String Account :=
  accounts.filter fun _ account => !account.isEmpty

theorem get?_dropEmpty (accounts : HashMap String Account) (a : String) :
    (dropEmpty accounts)[a]? = accounts[a]?.filter (fun account => !account.isEmpty) := by
  rw [dropEmpty, ExtTreeMap.getElem?_filter']

variable {accounts : HashMap String Account} {a : String} {account : Account}

theorem isEmpty_of_get?_dropEmpty (h : (dropEmpty accounts)[a]? = some account) :
    account.isEmpty = false := by
  rw [get?_dropEmpty, Option.filter_eq_some_iff] at h
  simpa using h.2

section
variable (blake3 : List UInt8 → Digest)

/-! ### A root fixes its leaves -/

/-- Some string of a list hashes to zero. -/
def HashesToZero (hashed : List (List UInt8)) : Prop := ∃ x ∈ hashed, blake3 x = zeroDigest

/-- No leaf is the constant of the empty slot.  That constant is not the digest of
a string the program hashes, so such a leaf would not be a collision of two
strings. -/
def NoEmptyLeaf (leaves : List (Digest × Digest)) : Prop := ∀ e ∈ leaves, e.2 ≠ EMPTY_HASH

variable {leaves leaves' : List (Digest × Digest)}

/-- **A root fixes the leaf at every key**, unless strings collide. -/
theorem leafOf_eq_of_root_eq
    (hcol : ¬ Collision blake3 (rootPreimages blake3 leaves ++ rootPreimages blake3 leaves'))
    (h : hashRange blake3 DEPTH (sortByKey leaves) = hashRange blake3 DEPTH (sortByKey leaves'))
    (key : Digest) :
    leafOf (sortByKey leaves) (bits key) = leafOf (sortByKey leaves') (bits key) := by
  -- the path of the key in the first tree is a folding to the root of the second
  have hslice : IsSlice 256 ((bits key).take (256 - 256)) (sortByKey leaves) :=
    isSlice_sortByKey leaves
  have hfold := foldPath_collected blake3 hslice
  rcases foldPath_sound blake3 (length_collectSiblings blake3 key DEPTH _) (hfold.trans h) with
    hc | ⟨hleaf, -⟩
  · refine absurd (hc.mono fun x hx => ?_) hcol
    rcases mem_append.mp hx with hx | hx
    · obtain ⟨pair, hpair, rfl⟩ := mem_map.mp hx
      exact mem_append_left _ (pathPairs_mem_rangePreimages blake3 hslice pair hpair)
    · exact mem_append_right _ hx
  · exact hleaf

/-! ### Accounts -/

theorem accountLeaves_dropEmpty (accounts : HashMap String Account) :
    accountLeaves blake3 (dropEmpty accounts) = accountLeaves blake3 accounts := by
  rw [accountLeaves, accountLeaves, dropEmpty, ExtTreeMap.toList_filter, filter_filter]
  simp

theorem computeRoot_eq_hashRange (accounts : HashMap String Account) :
    computeRoot blake3 accounts =
      hashRange blake3 DEPTH (sortByKey (accountLeaves blake3 accounts)) := by
  rw [computeRoot_eq, hashRange_sortByKey]

/-- Empty accounts do not count. -/
theorem computeRoot_dropEmpty (accounts : HashMap String Account) :
    computeRoot blake3 (dropEmpty accounts) = computeRoot blake3 accounts := by
  rw [computeRoot_eq_hashRange, computeRoot_eq_hashRange, accountLeaves_dropEmpty]

/-- The strings hashed for the root of an account map: the addresses, the leaves and
the inner nodes. -/
def accountPreimages (accounts : HashMap String Account) : List (List UInt8) :=
  insertPreimages blake3 (dropEmpty accounts).toList ++
    rootPreimages blake3 (accountLeaves blake3 accounts)

variable {blake3}

theorem asBytes_mem_accountPreimages (h : a ∈ dropEmpty accounts) :
    asBytes a ∈ accountPreimages blake3 accounts := by
  obtain ⟨account, hget⟩ : ∃ account, (dropEmpty accounts)[a]? = some account :=
    Option.isSome_iff_exists.mp (ExtTreeMap.mem_iff_isSome_getElem?.mp h)
  refine mem_append_left _ (mem_flatMap.mpr ⟨(a, account), ?_, mem_cons_self ..⟩)
  exact ExtTreeMap.mem_toList_iff_getElem?_eq_some.mpr hget

theorem leafPreimage_mem_accountPreimages (h : (dropEmpty accounts)[a]? = some account) :
    leafPreimage (accountKeyHash blake3 a) account ∈ accountPreimages blake3 accounts := by
  refine mem_append_left _ (mem_flatMap.mpr ⟨(a, account), ?_, ?_⟩)
  · exact ExtTreeMap.mem_toList_iff_getElem?_eq_some.mpr h
  · refine mem_cons_of_mem _ ?_
    simp [leafPreimages, isEmpty_of_get?_dropEmpty h]

/-- The leaf at the key of an address of either map, when no strings collide. -/
theorem leafOf_dropEmpty {hashed : List (List UInt8)} (hcol : ¬ Collision blake3 hashed)
    (hsub : ∀ x ∈ accountPreimages blake3 accounts, x ∈ hashed) (ha : asBytes a ∈ hashed) :
    leafOf (sortByKey (accountLeaves blake3 accounts)) (bits (accountKeyHash blake3 a)) =
      leafHashFor blake3 (accountKeyHash blake3 a)
        ((dropEmpty accounts)[a]?.getD Account.default) := by
  rw [← accountLeaves_dropEmpty]
  refine leafOf_accountLeaves blake3 fun b hb hkey => ?_
  exact asBytes_injective
    (eq_of_not_collision hcol (hsub _ (asBytes_mem_accountPreimages hb)) ha hkey)

/-- The leaf of a non-empty account is in the map's list of leaves. -/
theorem leafHashFor_ne_empty (hempty : NoEmptyLeaf (accountLeaves blake3 accounts))
    (h : (dropEmpty accounts)[a]? = some account) :
    leafHashFor blake3 (accountKeyHash blake3 a) account ≠ EMPTY_HASH := by
  have hne := isEmpty_of_get?_dropEmpty h
  rw [leafHashFor, hne]
  rw [← accountLeaves_dropEmpty] at hempty
  exact hempty _ ((mem_accountLeaves blake3).mpr ⟨a, account, h, hne, rfl⟩)

/-- **Equal account roots, equal accounts**, up to empty ones and unless strings
collide. -/
theorem dropEmpty_eq_of_computeRoot_eq {accounts' : HashMap String Account}
    (hempty : NoEmptyLeaf (accountLeaves blake3 accounts))
    (hempty' : NoEmptyLeaf (accountLeaves blake3 accounts'))
    (hcol : ¬ Collision blake3 (accountPreimages blake3 accounts ++
      accountPreimages blake3 accounts'))
    (h : computeRoot blake3 accounts = computeRoot blake3 accounts') :
    dropEmpty accounts = dropEmpty accounts' := by
  rw [computeRoot_eq_hashRange, computeRoot_eq_hashRange] at h
  have hleaves := leafOf_eq_of_root_eq blake3 (fun hc => hcol (hc.mono fun x hx => by
    simp only [accountPreimages, mem_append] at hx ⊢
    tauto)) h
  refine HashMap.ext_get? fun a => ?_
  by_cases ha : a ∈ dropEmpty accounts ∨ a ∈ dropEmpty accounts'
  · have hmem : asBytes a ∈ accountPreimages blake3 accounts ++
        accountPreimages blake3 accounts' := by
      rcases ha with ha | ha
      · exact mem_append_left _ (asBytes_mem_accountPreimages ha)
      · exact mem_append_right _ (asBytes_mem_accountPreimages ha)
    have hleaf := hleaves (accountKeyHash blake3 a)
    rw [leafOf_dropEmpty hcol (fun _ => mem_append_left _) hmem,
      leafOf_dropEmpty hcol (fun _ => mem_append_right _) hmem] at hleaf
    cases hget : (dropEmpty accounts)[a]? with
    | none =>
      cases hget' : (dropEmpty accounts')[a]? with
      | none => rfl
      | some account' =>
        rw [hget, hget'] at hleaf
        exact absurd hleaf.symm (leafHashFor_ne_empty hempty' hget')
    | some account =>
      cases hget' : (dropEmpty accounts')[a]? with
      | none =>
        rw [hget, hget'] at hleaf
        exact absurd hleaf (leafHashFor_ne_empty hempty hget)
      | some account' =>
        rw [hget, hget', Option.getD_some, Option.getD_some, leafHashFor, leafHashFor,
          isEmpty_of_get?_dropEmpty hget, isEmpty_of_get?_dropEmpty hget'] at hleaf
        have hpre := eq_of_not_collision hcol
          (mem_append_left _ (leafPreimage_mem_accountPreimages hget))
          (mem_append_right _ (leafPreimage_mem_accountPreimages hget')) hleaf
        rw [leafPreimage_inj hpre]
  · rw [not_or, ExtTreeMap.mem_iff_isSome_getElem?,
      ExtTreeMap.mem_iff_isSome_getElem?, Option.not_isSome_iff_eq_none,
      Option.not_isSome_iff_eq_none] at ha
    rw [ha.1, ha.2]

/-! ### Contract storage -/

variable (blake3)

/-- What is hashed for the leaf of a storage slot. -/
def storagePreimage (key : Digest) (value : List UInt8) : List UInt8 :=
  STORAGE_LEAF_TAG :: (key.toList ++ value)

variable {key : Digest}

theorem storagePreimage_inj {v w : List UInt8} (h : storagePreimage key v = storagePreimage key w) :
    v = w := by
  simpa [storagePreimage] using h

/-- The leaves of a contract's storage. -/
def storageLeaves (entries : ContractStorage) : List (Digest × Digest) :=
  entries.toList.map fun e => (e.1, storageLeafHash blake3 e.1 e.2)

theorem leafOf_storageLeaves (entries : ContractStorage) (key : Digest) :
    leafOf (sortByKey (storageLeaves blake3 entries)) (bits key) =
      (entries[key]?.map (storageLeafHash blake3 key)).getD EMPTY_HASH := by
  have hmem : ∀ e ∈ storageLeaves blake3 entries, ∃ value, entries[e.1]? = some value ∧
      e.2 = storageLeafHash blake3 e.1 value := by
    intro e he
    obtain ⟨⟨k, value⟩, hkv, rfl⟩ := mem_map.mp he
    exact ⟨value, ExtTreeMap.mem_toList_iff_getElem?_eq_some.mp hkv, rfl⟩
  cases hget : entries[key]? with
  | none =>
    refine leafOf_of_not_mem fun e he hkey => ?_
    obtain ⟨value, hval, -⟩ := hmem e he
    rw [hkey, hget] at hval
    exact nomatch hval
  | some value =>
    apply leafOf_of_mem
    · exact ⟨(key, storageLeafHash blake3 key value), mem_map.mpr
        ⟨(key, value), ExtTreeMap.mem_toList_iff_getElem?_eq_some.mpr hget, rfl⟩, rfl⟩
    · intro e he hkey
      obtain ⟨value', hval, hleaf⟩ := hmem e he
      rw [hkey, hget] at hval
      rw [hleaf, hkey, ← Option.some.inj hval]
      rfl

/-- The strings hashed for the root of a contract's storage; nothing is hashed when it
is empty. -/
def storagePreimages (entries : ContractStorage) : List (List UInt8) :=
  if entries.isEmpty then []
  else entries.toList.map (fun e => storagePreimage e.1 e.2) ++
    rootPreimages blake3 (storageLeaves blake3 entries)

variable {blake3}

theorem storageLeaves_ne_nil {entries : ContractStorage} (h : entries.isEmpty = false) :
    storageLeaves blake3 entries ≠ [] := by
  intro hnil
  have hlist : entries.toList = [] := map_eq_nil_iff.mp hnil
  rw [ExtTreeMap.toList_eq_nil_iff] at hlist
  simp [hlist] at h

/-- The root of at least one leaf is the digest of the topmost pair. -/
theorem exists_mem_rootPreimages (h : leaves ≠ []) :
    ∃ x ∈ rootPreimages blake3 leaves, hashRange blake3 DEPTH (sortByKey leaves) = blake3 x := by
  obtain ⟨e, rest, hsorted⟩ : ∃ e rest, sortByKey leaves = e :: rest := by
    obtain ⟨e, he⟩ := exists_mem_of_ne_nil leaves h
    exact exists_cons_of_ne_nil (ne_nil_of_mem (mem_sortByKey.mpr he))
  refine ⟨_, mem_append_left _ ?_, hashRange_succ blake3 255 (sortByKey leaves)⟩
  rw [hsorted]
  exact mem_cons_self ..

variable {entries : ContractStorage}

theorem contractStorageRoot_of_nonempty (hne : entries.isEmpty = false) :
    contractStorageRoot blake3 entries =
      hashRange blake3 DEPTH (sortByKey (storageLeaves blake3 entries)) := by
  rw [contractStorageRoot, hne]
  rfl

theorem storagePreimages_of_nonempty (hne : entries.isEmpty = false) :
    storagePreimages blake3 entries = entries.toList.map (fun e => storagePreimage e.1 e.2) ++
      rootPreimages blake3 (storageLeaves blake3 entries) := by
  rw [storagePreimages, hne]
  rfl

/-- Storage that is not empty has a root other than zero, unless a string hashes to
zero. -/
theorem contractStorageRoot_ne_zero (hne : entries.isEmpty = false)
    (hzero : ¬ HashesToZero blake3 (storagePreimages blake3 entries)) :
    contractStorageRoot blake3 entries ≠ zeroDigest := by
  rw [contractStorageRoot_of_nonempty hne]
  intro h
  obtain ⟨x, hx, hroot⟩ := exists_mem_rootPreimages (@storageLeaves_ne_nil blake3 entries hne)
  refine hzero ⟨x, ?_, hroot.symm.trans h⟩
  rw [storagePreimages_of_nonempty hne]
  exact mem_append_right _ hx

variable {value : List UInt8}

theorem storagePreimage_mem (hne : entries.isEmpty = false) (h : entries[key]? = some value) :
    storagePreimage key value ∈ storagePreimages blake3 entries := by
  rw [storagePreimages_of_nonempty hne]
  exact mem_append_left _ (mem_map.mpr
    ⟨(key, value), ExtTreeMap.mem_toList_iff_getElem?_eq_some.mpr h, rfl⟩)

theorem storageLeafHash_ne_empty (hempty : NoEmptyLeaf (storageLeaves blake3 entries))
    (h : entries[key]? = some value) : storageLeafHash blake3 key value ≠ EMPTY_HASH :=
  hempty _ (mem_map.mpr
    ⟨(key, value), ExtTreeMap.mem_toList_iff_getElem?_eq_some.mpr h, rfl⟩)

variable {entries' : ContractStorage}

theorem eq_of_storage_root_eq (hne : entries.isEmpty = false) (hne' : entries'.isEmpty = false)
    (hempty : NoEmptyLeaf (storageLeaves blake3 entries))
    (hempty' : NoEmptyLeaf (storageLeaves blake3 entries'))
    (hcol : ¬ Collision blake3 (storagePreimages blake3 entries ++
      storagePreimages blake3 entries'))
    (h : contractStorageRoot blake3 entries = contractStorageRoot blake3 entries') :
    entries = entries' := by
  rw [contractStorageRoot_of_nonempty hne, contractStorageRoot_of_nonempty hne'] at h
  have hleaves := leafOf_eq_of_root_eq blake3 (fun hc => hcol (hc.mono fun x hx => by
    rw [storagePreimages_of_nonempty hne, storagePreimages_of_nonempty hne']
    simp only [mem_append] at hx ⊢
    tauto)) h
  refine HashMap.ext_get? fun key => ?_
  have hleaf := hleaves key
  rw [leafOf_storageLeaves, leafOf_storageLeaves] at hleaf
  cases hget : entries[key]? with
  | none =>
    cases hget' : entries'[key]? with
    | none => rfl
    | some value' =>
      rw [hget, hget'] at hleaf
      exact absurd hleaf.symm (storageLeafHash_ne_empty hempty' hget')
  | some value =>
    cases hget' : entries'[key]? with
    | none =>
      rw [hget, hget'] at hleaf
      exact absurd hleaf (storageLeafHash_ne_empty hempty hget)
    | some value' =>
      rw [hget, hget'] at hleaf
      have hpre := eq_of_not_collision hcol
        (mem_append_left _ (storagePreimage_mem hne hget))
        (mem_append_right _ (storagePreimage_mem hne' hget')) hleaf
      rw [storagePreimage_inj hpre]

/-- **Equal storage roots, equal storage**, unless strings collide or hash to zero. -/
theorem eq_of_contractStorageRoot_eq (hempty : NoEmptyLeaf (storageLeaves blake3 entries))
    (hempty' : NoEmptyLeaf (storageLeaves blake3 entries'))
    (hcol : ¬ Collision blake3 (storagePreimages blake3 entries ++
      storagePreimages blake3 entries'))
    (hzero : ¬ HashesToZero blake3 (storagePreimages blake3 entries ++
      storagePreimages blake3 entries'))
    (h : contractStorageRoot blake3 entries = contractStorageRoot blake3 entries') :
    entries = entries' := by
  have hroot : ∀ {e : ContractStorage}, e.isEmpty = true →
      contractStorageRoot blake3 e = zeroDigest := fun he => by rw [contractStorageRoot, if_pos he]
  cases he : entries.isEmpty with
  | true =>
    cases he' : entries'.isEmpty with
    | true =>
      rw [ExtTreeMap.isEmpty_iff] at he he'
      rw [he, he']
    | false =>
      refine absurd (h.symm.trans (hroot he)) (contractStorageRoot_ne_zero he' ?_)
      exact fun ⟨x, hx, hz⟩ => hzero ⟨x, mem_append_right _ hx, hz⟩
  | false =>
    cases he' : entries'.isEmpty with
    | true =>
      refine absurd (h.trans (hroot he')) (contractStorageRoot_ne_zero he ?_)
      exact fun ⟨x, hx, hz⟩ => hzero ⟨x, mem_append_left _ hx, hz⟩
    | false => exact eq_of_storage_root_eq he he' hempty hempty' hcol h

/-! ### The order of iteration -/

/-- Entries with different keys are sorted in one way. -/
theorem sortByKey_perm (hperm : leaves.Perm leaves') (hkeys : (leaves.map Prod.fst).Nodup) :
    sortByKey leaves = sortByKey leaves' := by
  have hsorted : ∀ l : List (Digest × Digest),
      (sortByKey l).Pairwise (fun a b => (compare a.1 b.1).isLE = true) :=
    pairwise_mergeSort isLE_compare_trans isLE_compare_total
  have hmerged : ∀ l : List (Digest × Digest), (sortByKey l).Perm l := fun l =>
    mergeSort_perm l _
  refine List.Perm.eq_of_pairwise ?_ (hsorted leaves) (hsorted leaves')
    ((hmerged leaves).trans (hperm.trans (hmerged leaves').symm))
  intro a b ha hb hab hba
  have hkey : a.1 = b.1 :=
    LawfulEqCmp.eq_of_compare (Std.OrientedCmp.isLE_antisymm hab hba)
  exact inj_on_of_nodup_map hkeys (mem_sortByKey.mp ha)
    (hperm.mem_iff.mpr (mem_sortByKey.mp hb)) hkey

variable (blake3)

/-- `compute_root` on the entries in the order in which the map is iterated. -/
def computeRootFrom (entries : List (String × Account)) : Digest :=
  if entries.isEmpty then emptyRoot blake3
  else hashRange blake3 DEPTH (sortByKey ((entries.filter (fun e => !e.2.isEmpty)).map (fun e =>
    (accountKeyHash blake3 e.1, accountLeafHash blake3 (accountKeyHash blake3 e.1) e.2))))

/-- `contract_storage_root` on the entries in the order in which the map is iterated. -/
def contractStorageRootFrom (entries : List (Digest × List UInt8)) : Digest :=
  if entries.isEmpty then zeroDigest
  else hashRange blake3 DEPTH
    (sortByKey (entries.map (fun e => (e.1, storageLeafHash blake3 e.1 e.2))))

variable {blake3}

theorem isEmpty_toList {K V : Type} [Ord K] [TransOrd K] (m : HashMap K V) :
    m.toList.isEmpty = m.isEmpty := by
  rw [Bool.eq_iff_iff, List.isEmpty_iff, ExtTreeMap.toList_eq_nil_iff,
    ExtTreeMap.isEmpty_iff]

theorem computeRoot_eq_from (accounts : HashMap String Account) :
    computeRoot blake3 accounts = computeRootFrom blake3 accounts.toList := by
  rw [computeRootFrom, isEmpty_toList]
  rfl

theorem contractStorageRoot_eq_from (entries : ContractStorage) :
    contractStorageRoot blake3 entries = contractStorageRootFrom blake3 entries.toList := by
  rw [contractStorageRootFrom, isEmpty_toList]
  rfl

theorem nodup_keys_toList {K V : Type} [Ord K] [TransOrd K] [LawfulEqOrd K]
    (m : HashMap K V) : (m.toList.map Prod.fst).Nodup := by
  rw [ExtTreeMap.map_fst_toList_eq_keys]
  exact ExtTreeMap.nodup_keys

/-- **The account root does not depend on the order of iteration**, unless two
addresses collide. -/
theorem computeRootFrom_perm (hcol : ¬ Collision blake3 (accountPreimages blake3 accounts))
    {entries : List (String × Account)} (hperm : entries.Perm accounts.toList) :
    computeRootFrom blake3 entries = computeRoot blake3 accounts := by
  have hnodup :
      (((dropEmpty accounts).toList.map Prod.fst).map (accountKeyHash blake3)).Nodup := by
    refine List.Nodup.map_on ?_ (nodup_keys_toList _)
    intro a ha b hb hkey
    rw [ExtTreeMap.map_fst_toList_eq_keys, ExtTreeMap.mem_keys] at ha hb
    exact asBytes_injective (eq_of_not_collision hcol (asBytes_mem_accountPreimages ha)
      (asBytes_mem_accountPreimages hb) hkey)
  rw [computeRoot_eq_from, computeRootFrom, computeRootFrom, hperm.isEmpty_eq]
  congr 2
  refine sortByKey_perm ((hperm.filter _).map _) ?_
  rw [map_map, ((hperm.filter _).map _).nodup_iff]
  rwa [dropEmpty, ExtTreeMap.toList_filter, map_map] at hnodup

/-- **The storage root does not depend on the order of iteration.** -/
theorem contractStorageRootFrom_perm {storage : ContractStorage}
    {entries : List (Digest × List UInt8)} (hperm : entries.Perm storage.toList) :
    contractStorageRootFrom blake3 entries = contractStorageRoot blake3 storage := by
  rw [contractStorageRoot_eq_from, contractStorageRootFrom, contractStorageRootFrom,
    hperm.isEmpty_eq]
  congr 2
  refine sortByKey_perm (hperm.map _) ?_
  rw [map_map, (hperm.map _).nodup_iff]
  exact nodup_keys_toList storage

/-- **The roots bind the whole state.**  For account maps and for contract storage:

* contents that agree (the accounts up to empty ones) have equal roots;
* equal roots mean equal contents, unless two strings hashed for them collide or,
  for storage, one hashes to zero; empty storage has the zero root;
* the order in which a map is iterated does not matter. -/
theorem roots_bind_state (blake3 : List UInt8 → Digest) :
    (∀ accounts accounts', dropEmpty accounts = dropEmpty accounts' →
      computeRoot blake3 accounts = computeRoot blake3 accounts') ∧
    (∀ accounts accounts', NoEmptyLeaf (accountLeaves blake3 accounts) →
      NoEmptyLeaf (accountLeaves blake3 accounts') →
      computeRoot blake3 accounts = computeRoot blake3 accounts' →
      dropEmpty accounts = dropEmpty accounts' ∨
        Collision blake3 (accountPreimages blake3 accounts ++
          accountPreimages blake3 accounts')) ∧
    (∀ storage storage' : ContractStorage, NoEmptyLeaf (storageLeaves blake3 storage) →
      NoEmptyLeaf (storageLeaves blake3 storage') →
      (contractStorageRoot blake3 storage = contractStorageRoot blake3 storage' ↔
          storage = storage') ∨
        Collision blake3 (storagePreimages blake3 storage ++ storagePreimages blake3 storage') ∨
        HashesToZero blake3 (storagePreimages blake3 storage ++
          storagePreimages blake3 storage')) ∧
    contractStorageRoot blake3 ∅ = zeroDigest ∧
    (∀ (accounts : HashMap String Account) (entries : List (String × Account)),
      entries.Perm accounts.toList →
      computeRootFrom blake3 entries = computeRoot blake3 accounts ∨
        Collision blake3 (accountPreimages blake3 accounts)) ∧
    ∀ (storage : ContractStorage) (entries : List (Digest × List UInt8)),
      entries.Perm storage.toList →
      contractStorageRootFrom blake3 entries = contractStorageRoot blake3 storage := by
  refine ⟨fun accounts accounts' h => ?_, fun accounts accounts' he he' h => ?_,
    fun storage storage' he he' => ?_, rfl, fun accounts entries hperm => ?_,
    fun storage entries => contractStorageRootFrom_perm⟩
  · rw [← computeRoot_dropEmpty, h, computeRoot_dropEmpty]
  · refine or_iff_not_imp_right.mpr fun hcol => ?_
    exact dropEmpty_eq_of_computeRoot_eq he he' hcol h
  · rw [or_iff_not_imp_right, not_or]
    rintro ⟨hcol, hzero⟩
    exact ⟨eq_of_contractStorageRoot_eq he he' hcol hzero, fun h => h ▸ rfl⟩
  · exact or_iff_not_imp_right.mpr fun hcol => computeRootFrom_perm hcol hperm

end

/-- A funded account beside an empty one, under the real hash. -/
theorem roots_bind_alice :
    dropEmpty ((∅ : HashMap String Account).insert "alice" (.eoa ⟨5, 1⟩)) =
        dropEmpty (((∅ : HashMap String Account).insert "alice" (.eoa ⟨5, 1⟩)).insert "bob"
          (.eoa ⟨0, 0⟩)) ∨
      Collision blake3
        (accountPreimages blake3 ((∅ : HashMap String Account).insert "alice" (.eoa ⟨5, 1⟩)) ++
          accountPreimages blake3 (((∅ : HashMap String Account).insert "alice"
            (.eoa ⟨5, 1⟩)).insert "bob" (.eoa ⟨0, 0⟩))) := by
  have hdrop : dropEmpty ((∅ : HashMap String Account).insert "alice" (.eoa ⟨5, 1⟩)) =
      dropEmpty (((∅ : HashMap String Account).insert "alice" (.eoa ⟨5, 1⟩)).insert "bob"
        (.eoa ⟨0, 0⟩)) := by
    decide +kernel
  have hleaf : NoEmptyLeaf (accountLeaves blake3
      ((∅ : HashMap String Account).insert "alice" (.eoa ⟨5, 1⟩))) := by
    unfold NoEmptyLeaf
    decide +kernel
  have hleaf' : NoEmptyLeaf (accountLeaves blake3 (((∅ : HashMap String Account).insert "alice"
      (.eoa ⟨5, 1⟩)).insert "bob" (.eoa ⟨0, 0⟩))) := by
    rwa [← accountLeaves_dropEmpty, ← hdrop, accountLeaves_dropEmpty]
  exact (roots_bind_state blake3).2.1 _ _ hleaf hleaf' ((roots_bind_state blake3).1 _ _ hdrop)

end Strangecoin
