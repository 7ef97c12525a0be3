import Strangecoin.StateBinding
import Strangecoin.SignedPayloads

/-! # Proofs of receipts

The receipts of a block are the leaves of a tree of their own, by transaction id.
Of two receipts with one id only the first has a leaf.
-/
namespace Strangecoin
open List
open Merkle

section
variable (blake3 : List UInt8 → Digest)

def proveReceipt (receipts : List Receipt) (txid : Digest) : Except CoreError (List Digest) := do
  let receipt ← okOr (receipts.find? (fun r => r.txid == txid)) CoreError.proofAccountMismatch
  return collectSiblings blake3 receipt.txid DEPTH (sortByKey (receiptLeaves blake3 receipts))

def verifyReceiptProof (root : Digest) (receipt : Receipt) (proof : List Digest) : Bool :=
  if proof.length ≠ DEPTH then false
  else
    let key := receipt.txid
    let leaf := receiptLeafHash blake3 receipt
    let acc := (List.range DEPTH).reverse.foldl
      (fun acc i => SparseMerkleTrie.hashUp blake3 key i acc (proof.getD i zeroDigest)) leaf
    acc == root

/-! ### The leaves -/

theorem receiptLeaves_concat (receipts : List Receipt) (receipt : Receipt) :
    receiptLeaves blake3 (receipts ++ [receipt]) =
      if (receiptLeaves blake3 receipts).any (fun e => e.1 == receipt.txid) then
        receiptLeaves blake3 receipts
      else receiptLeaves blake3 receipts ++ [(receipt.txid, receiptLeafHash blake3 receipt)] := by
  rw [receiptLeaves, foldl_append]
  rfl

variable {receipts : List Receipt}

/-- The leaf of an id is that of the first receipt with it. -/
theorem mem_receiptLeaves {e : Digest × Digest} :
    e ∈ receiptLeaves blake3 receipts ↔
      ∃ r, receipts.find? (fun r => r.txid == e.1) = some r ∧ e.2 = receiptLeafHash blake3 r := by
  induction receipts using List.reverseRecOn generalizing e with
  | nil => simp [receiptLeaves]
  | append_singleton receipts receipt ih =>
    rw [receiptLeaves_concat, find?_append]
    by_cases hany : (receiptLeaves blake3 receipts).any (fun e => e.1 == receipt.txid)
    · -- an earlier receipt has the id
      obtain ⟨f, hf, hkey⟩ := any_eq_true.mp hany
      obtain ⟨r, hr, -⟩ := ih.mp hf
      rw [beq_iff_eq.mp hkey] at hr
      rw [if_pos hany, ih]
      by_cases he : receipt.txid = e.1
      · rw [← he, hr]
        simp
      · simp [he]
    · have hnone : receipts.find? (fun r => r.txid == receipt.txid) = none := by
        by_contra hsome
        obtain ⟨r, hr⟩ := Option.ne_none_iff_exists'.mp hsome
        exact hany (any_eq_true.mpr ⟨(receipt.txid, _), ih.mpr ⟨r, hr, rfl⟩, by simp⟩)
      rw [if_neg hany, mem_append, ih, mem_singleton]
      by_cases he : receipt.txid = e.1
      · rw [← he, hnone]
        simp [Prod.ext_iff, he]
      · have hne : e ≠ (receipt.txid, receiptLeafHash blake3 receipt) :=
          fun h => he (by rw [h])
        simp [he, hne]

theorem leafOf_receiptLeaves (receipts : List Receipt) (txid : Digest) :
    leafOf (sortByKey (receiptLeaves blake3 receipts)) (bits txid) =
      ((receipts.find? (fun r => r.txid == txid)).map (receiptLeafHash blake3)).getD EMPTY_HASH := by
  cases hfind : receipts.find? (fun r => r.txid == txid) with
  | none =>
    apply leafOf_of_not_mem
    intro e he hkey
    obtain ⟨r, hr, -⟩ := (mem_receiptLeaves blake3).mp he
    rw [hkey, hfind] at hr
    cases hr
  | some receipt =>
    apply leafOf_of_mem
    · exact ⟨(txid, _), (mem_receiptLeaves blake3).mpr ⟨receipt, hfind, rfl⟩, rfl⟩
    · intro e he hkey
      obtain ⟨r, hr, hleaf⟩ := (mem_receiptLeaves blake3).mp he
      rw [hkey, hfind] at hr
      rw [hleaf, ← Option.some.inj hr]
      rfl

theorem receiptsSubroot_eq (receipts : List Receipt) :
    receiptsSubroot blake3 receipts =
      hashRange blake3 DEPTH (sortByKey (receiptLeaves blake3 receipts)) := by
  cases receipts with
  | nil => simp [receiptsSubroot, receiptLeaves, sortByKey, SparseMerkleTrie.emptyRoot,
      emptySubtree]
  | cons r rs => rfl

/-! ### Completeness -/

variable {receipt : Receipt}

theorem verifyReceiptProof_iff {root : Digest} {proof : List Digest} :
    verifyReceiptProof blake3 root receipt proof = true ↔
      proof.length = 256 ∧ foldPath (hashPair blake3) (bits receipt.txid) proof
        (receiptLeafHash blake3 receipt) = root :=
  foldl_hashUp_iff blake3

/-- The first receipt with an id has an accepted proof. -/
theorem verifyReceiptProof_of_find
    (hfind : receipts.find? (fun r => r.txid == receipt.txid) = some receipt) :
    ∃ proof, proveReceipt blake3 receipts receipt.txid = .ok proof ∧
      verifyReceiptProof blake3 (receiptsSubroot blake3 receipts) receipt proof = true := by
  refine ⟨collectSiblings blake3 receipt.txid DEPTH (sortByKey (receiptLeaves blake3 receipts)), ?_, ?_⟩
  · simp [proveReceipt, hfind, okOr]
  · have hslice : IsSlice 256 ((bits receipt.txid).take (256 - 256))
        (sortByKey (receiptLeaves blake3 receipts)) := isSlice_sortByKey _
    have hfold := foldPath_collected blake3 hslice
    rw [leafOf_receiptLeaves, hfind] at hfold
    rw [verifyReceiptProof_iff, receiptsSubroot_eq]
    exact ⟨SparseMerkleTrie.length_collectSiblings blake3 _ _ _, hfold⟩

/-! ### Soundness -/

/-- What is hashed for the leaf of a receipt. -/
def receiptPreimage (receipt : Receipt) : List UInt8 := RECEIPT_LEAF_TAG :: serializeReceipt receipt

/-- The strings hashed for the root of a list of receipts; a receipt that repeats an
id is not hashed. -/
def receiptsPreimages (receipts : List Receipt) : List (List UInt8) :=
  (receipts.filter (fun r => receipts.find? (fun s => s.txid == r.txid) = some r)).map
      receiptPreimage ++
    rootPreimages blake3 (receiptLeaves blake3 receipts)

/-- The strings hashed by `verifyReceiptProof`. -/
def verifyReceiptPreimages (receipt : Receipt) (proof : List Digest) : List (List UInt8) :=
  receiptPreimage receipt ::
    (pathPairs (hashPair blake3) (bits receipt.txid) proof (receiptLeafHash blake3 receipt)).map
      pairPreimage

section
variable {receipts : List Receipt} {receipt : Receipt} {proof : List Digest}
  (hcol : ¬ Collision blake3
    (receiptsPreimages blake3 receipts ++ verifyReceiptPreimages blake3 receipt proof))
  (h : verifyReceiptProof blake3 (receiptsSubroot blake3 receipts) receipt proof = true)
include hcol h

theorem leaf_of_verifyReceiptProof : receiptLeafHash blake3 receipt =
    ((receipts.find? (fun r => r.txid == receipt.txid)).map (receiptLeafHash blake3)).getD
      EMPTY_HASH := by
  obtain ⟨hlen, hfold⟩ := (verifyReceiptProof_iff blake3).mp h
  rw [receiptsSubroot_eq] at hfold
  rcases foldPath_sound blake3 hlen hfold with hcol' | ⟨hleaf, -⟩
  · refine absurd (hcol'.mono (fun x hx => ?_)) hcol
    rcases mem_append.mp hx with hx | hx
    · exact mem_append_right _ (mem_cons_of_mem _ hx)
    · exact mem_append_left _ (mem_append_right _ hx)
  · rw [hleaf, leafOf_receiptLeaves]

/-- What is accepted has the encoding of the receipt that stands for its id, unless
strings collide. -/
theorem serialize_eq_of_verify {r : Receipt}
    (hfind : receipts.find? (fun r => r.txid == receipt.txid) = some r) :
    serializeReceipt r = serializeReceipt receipt := by
  have hleaf := leaf_of_verifyReceiptProof blake3 hcol h
  rw [hfind] at hleaf
  have hkey : r.txid = receipt.txid := by simpa using find?_some hfind
  have hr : receiptPreimage r ∈ receiptsPreimages blake3 receipts := by
    refine mem_append_left _ (mem_map_of_mem (mem_filter.mpr ?_))
    exact ⟨mem_of_find?_eq_some hfind, by simpa [hkey] using hfind⟩
  have hpreimage : receiptPreimage r = receiptPreimage receipt :=
    eq_of_not_collision hcol (mem_append_left _ hr)
      (mem_append_right _ mem_cons_self) hleaf.symm
  exact (List.cons.inj hpreimage).2

/-- Some receipt stands for the id of what is accepted. -/
theorem find?_of_verify (hempty : receiptLeafHash blake3 receipt ≠ EMPTY_HASH) :
    ∃ r, receipts.find? (fun r => r.txid == receipt.txid) = some r := by
  have hleaf := leaf_of_verifyReceiptProof blake3 hcol h
  cases hfind : receipts.find? (fun r => r.txid == receipt.txid) with
  | none =>
    rw [hfind] at hleaf
    exact absurd hleaf hempty
  | some r => exact ⟨r, rfl⟩

end

/-! ### Lists with different ids -/

section
variable (hdistinct : (receipts.map Receipt.txid).Nodup)
include hdistinct

theorem find?_of_distinct
    (hmem : receipt ∈ receipts) :
    receipts.find? (fun r => r.txid == receipt.txid) = some receipt := by
  have hsome : (receipts.find? (fun r => r.txid == receipt.txid)).isSome :=
    find?_isSome.mpr ⟨receipt, hmem, by simp⟩
  obtain ⟨r, hr⟩ := Option.isSome_iff_exists.mp hsome
  have hkey : r.txid = receipt.txid := by simpa using find?_some hr
  rw [hr, inj_on_of_nodup_map hdistinct (mem_of_find?_eq_some hr) hmem hkey]

theorem receiptLeaves_of_distinct :
    receiptLeaves blake3 receipts = receipts.map (fun r => (r.txid, receiptLeafHash blake3 r)) := by
  induction receipts using List.reverseRecOn with
  | nil => rfl
  | append_singleton receipts receipt ih =>
    rw [map_append, nodup_append] at hdistinct
    obtain ⟨hdistinct, -, hnew⟩ := hdistinct
    rw [receiptLeaves_concat, ih hdistinct, if_neg, map_append]
    · rfl
    · intro hany
      obtain ⟨e, he, hkey⟩ := any_eq_true.mp hany
      obtain ⟨r, hr, rfl⟩ := mem_map.mp he
      exact hnew r.txid (mem_map_of_mem hr) receipt.txid (by simp) (beq_iff_eq.mp hkey)

theorem receiptsSubroot_perm {receipts' : List Receipt}
    (hperm : receipts.Perm receipts') :
    receiptsSubroot blake3 receipts = receiptsSubroot blake3 receipts' := by
  have hdistinct' : (receipts'.map Receipt.txid).Nodup := (hperm.map _).nodup_iff.mp hdistinct
  rw [receiptsSubroot_eq, receiptsSubroot_eq, receiptLeaves_of_distinct blake3 hdistinct,
    receiptLeaves_of_distinct blake3 hdistinct', sortByKey_perm (hperm.map _)]
  rw [map_map]
  exact hdistinct

end

/-- **Receipt proofs are complete and sound.**  For every list of receipts with
different ids the root does not depend on their order, every receipt has an accepted
proof, and what is accepted is in the list or strings collide. -/
theorem receipt_proofs_sound_complete {receipts : List Receipt}
    (hdistinct : (receipts.map Receipt.txid).Nodup) :
    (∀ receipts', receipts.Perm receipts' →
      receiptsSubroot blake3 receipts = receiptsSubroot blake3 receipts') ∧
    (∀ txid ∈ receipts.map Receipt.txid, ∃ receipt ∈ receipts, ∃ proof, receipt.txid = txid ∧
      proveReceipt blake3 receipts txid = .ok proof ∧
      verifyReceiptProof blake3 (receiptsSubroot blake3 receipts) receipt proof = true) ∧
    ∀ receipt proof, receipt.FieldsShort → (∀ r ∈ receipts, r.FieldsShort) →
      receiptLeafHash blake3 receipt ≠ EMPTY_HASH →
      verifyReceiptProof blake3 (receiptsSubroot blake3 receipts) receipt proof = true →
      receipt ∈ receipts ∨ Collision blake3
        (receiptsPreimages blake3 receipts ++ verifyReceiptPreimages blake3 receipt proof) := by
  refine ⟨fun receipts' => receiptsSubroot_perm blake3 hdistinct, ?_, ?_⟩
  · intro txid htxid
    obtain ⟨receipt, hmem, rfl⟩ := mem_map.mp htxid
    obtain ⟨proof, hprove, hverify⟩ :=
      verifyReceiptProof_of_find blake3 (find?_of_distinct hdistinct hmem)
    exact ⟨receipt, hmem, proof, rfl, hprove, hverify⟩
  · intro receipt proof hshort hshorts hempty hverify
    by_cases hcol : Collision blake3
        (receiptsPreimages blake3 receipts ++ verifyReceiptPreimages blake3 receipt proof)
    · exact .inr hcol
    · obtain ⟨r, hfind⟩ := find?_of_verify blake3 hcol hverify hempty
      have hsame := serialize_eq_of_verify blake3 hcol hverify hfind
      have hmem := mem_of_find?_eq_some hfind
      rw [serializeReceipt_inj (hshorts r hmem) hshort hsame] at hmem
      exact .inl hmem

end

/-- Two receipts without logs under the real hash. -/
theorem receipt_proofs_pair :
    let first : Receipt := ⟨zeroDigest, 7, [], .success, 1, 0, []⟩
    let second : Receipt := ⟨EMPTY_HASH, 0, [], .failed, 1, 1, []⟩
    ∃ proof, proveReceipt blake3 [first, second] zeroDigest = .ok proof ∧
      verifyReceiptProof blake3 (receiptsSubroot blake3 [second, first]) first proof = true ∧
      (first ∈ [first, second] ∨ Collision blake3
        (receiptsPreimages blake3 [first, second] ++ verifyReceiptPreimages blake3 first proof)) := by
  intro first second
  have hdistinct : ([first, second].map Receipt.txid).Nodup := by decide
  obtain ⟨horder, hcomplete, hsound⟩ := receipt_proofs_sound_complete blake3 hdistinct
  obtain ⟨receipt, hmem, proof, hkey, hprove, hverify⟩ := hcomplete zeroDigest (by simp [first])
  have hfirst : receipt = first := by
    rcases mem_pair.mp hmem with rfl | rfl
    · rfl
    · exact absurd hkey (by decide)
  rw [hfirst] at hverify
  refine ⟨proof, hprove, ?_, hsound first proof ?_ ?_ (by decide +kernel) hverify⟩
  · rw [← horder [second, first] (List.Perm.swap second first [])]
    exact hverify
  · simp [Receipt.FieldsShort, first]
  · simp [Receipt.FieldsShort, first, second]

/-! ### Counts that overflow their length field -/

/-- A receipt with one log that carries `n` zero bytes of data. -/
def dataReceipt (n : Nat) : Receipt where
  txid := zeroDigest
  gasUsed := 0
  logs := [⟨"", [], List.replicate n 0⟩]
  status := .success
  blockHeight := 1
  txIndex := 0
  valueTransfers := []

/-- The same receipt with the zero bytes in the address of the log. -/
def addressReceipt (n : Nat) : Receipt :=
  { dataReceipt n with logs := [⟨String.ofList (List.replicate n (Char.ofNat 0)), [], []⟩] }

theorem dataReceipt_ne {n : Nat} (hn : 0 < n) : addressReceipt n ≠ dataReceipt n := by
  intro h
  have hdata := congrArg (fun r : Receipt => r.logs.map (fun log => log.data.length)) h
  simp [addressReceipt, dataReceipt] at hdata
  omega

theorem asBytes_zeros (n : Nat) :
    asBytes (String.ofList (List.replicate n (Char.ofNat 0))) = List.replicate n 0 := by
  rw [asBytes_ofList]
  induction n with
  | zero => rfl
  | succ n ih => rw [replicate_succ, flatMap_cons, ih]; rfl

/-- A length of `2 ^ 32` is written as zero, and the zeros that follow it do not tell
the fields apart. -/
theorem serialize_addressReceipt {n : Nat} (hn : UInt32.ofNat n = 0) :
    serializeReceipt (addressReceipt n) = serializeReceipt (dataReceipt n) := by
  have hzeros : toBeBytes32 0 = List.replicate 4 0 := by decide
  have hlog : serializeLog ⟨String.ofList (List.replicate n (Char.ofNat 0)), [], []⟩ =
      serializeLog ⟨"", [], List.replicate n 0⟩ := by
    have hempty : asBytes "" = [] := by simp [asBytes]
    simp only [serializeLog, writeString, writeBytes, asBytes_zeros, hempty, length_replicate,
      length_nil, hn, show UInt32.ofNat 0 = 0 from rfl, hzeros, flatMap_nil,
      append_nil, replicate_append_replicate]
    congr 1
    omega
  simp only [serializeReceipt, addressReceipt, dataReceipt, flatMap_cons, hlog, length_singleton]

/-- A digest made of a tag and a count. -/
def tagged (tag : UInt8) (count : Nat) : Digest :=
  Vector.ofFn fun i =>
    if i.val = 0 then tag
    else if i.val = 1 then UInt8.ofNat (count / 256)
    else if i.val = 2 then UInt8.ofNat count
    else 0

/-- A digest function that counts the levels of a tree. -/
def levelCount (x : List UInt8) : Digest :=
  if x.length = 64 then tagged (x.getD 0 0) ((x.getD 1 0).toNat * 256 + (x.getD 2 0).toNat + 1)
  else tagged 0 0

theorem byteAt_tagged_zero (tag : UInt8) (count : Nat) : byteAt (tagged tag count) 0 = tag := by
  simp [byteAt, tagged]

theorem byteAt_tagged_one (tag : UInt8) (count : Nat) :
    byteAt (tagged tag count) 1 = UInt8.ofNat (count / 256) := by
  simp [byteAt, tagged]

theorem byteAt_tagged_two (tag : UInt8) (count : Nat) :
    byteAt (tagged tag count) 2 = UInt8.ofNat count := by
  simp [byteAt, tagged]

theorem levelCount_tagged {tag : UInt8} {count : Nat} (h : count < 65536) (d : Digest) :
    hashPair levelCount (tagged tag count) d = tagged tag (count + 1) := by
  have hlen : ((tagged tag count).toList ++ d.toList).length = 64 := by simp
  rw [hashPair, levelCount, if_pos hlen]
  have hcount : (UInt8.ofNat (count / 256)).toNat * 256 + (UInt8.ofNat count).toNat = count := by
    rw [UInt8.toNat_ofNat', UInt8.toNat_ofNat']
    omega
  have hbyte : ∀ j < 3, ((tagged tag count).toList ++ d.toList).getD j 0 = byteAt (tagged tag count) j := by
    intro j hj
    rw [getD_append _ _ _ _ (by simp; omega)]
    simp [byteAt, Vector.getElem?_eq_getElem (show j < 32 by omega)]
  rw [hbyte 0 (by omega), hbyte 1 (by omega), hbyte 2 (by omega), byteAt_tagged_zero, byteAt_tagged_one,
    byteAt_tagged_two, hcount]

theorem tagged_inj {tag tag' : UInt8} {count count' : Nat} (h : count < 65536) (h' : count' < 65536)
    (heq : tagged tag count = tagged tag' count') : tag = tag' ∧ count = count' := by
  have hbyte (j : Nat) : byteAt (tagged tag count) j = byteAt (tagged tag' count') j := by rw [heq]
  have h0 := hbyte 0
  have h1 := congrArg UInt8.toNat (hbyte 1)
  have h2 := congrArg UInt8.toNat (hbyte 2)
  simp only [byteAt_tagged_zero, byteAt_tagged_one, byteAt_tagged_two, UInt8.toNat_ofNat'] at h0 h1 h2
  exact ⟨h0, by omega⟩

theorem emptyLevels_levelCount {n : Nat} (h : n < 256) :
    emptyLevels levelCount (n + 1) = tagged 0xaf (0x1349 + (n + 1)) := by
  induction n with
  | zero => decide
  | succ n ih => rw [emptyLevels, ih (by omega), levelCount_tagged (by omega)]; rfl

theorem partitionPoint_zero (leaf : Digest) (i : Nat) :
    partitionPoint [(zeroDigest, leaf)] i = 1 := by
  have hbyte : byteAt zeroDigest (i / 8) = 0 := by
    rw [byteAt]
    by_cases h : i / 8 < 32
    · simp [zeroDigest, h]
    · simp [zeroDigest, h]
  have hbit : bitAt zeroDigest i = 0 := by simp [bitAt, hbyte]
  simp [partitionPoint, hbit]

theorem hashRange_levelCount {levels : Nat} (h : levels ≤ 256) :
    hashRange levelCount levels [(zeroDigest, tagged 0 0)] = tagged 0 levels := by
  induction levels with
  | zero => rfl
  | succ levels ih =>
    rw [hashRange]
    simp only [partitionPoint_zero, length_singleton, take_succ_cons, take_zero,
      if_true, if_neg Nat.one_ne_zero, ih (by omega)]
    exact levelCount_tagged (by omega) _

theorem mem_rangePreimages_levelCount {levels : Nat} (h : levels ≤ 256) {x : List UInt8}
    (hx : x ∈ rangePreimages levelCount levels [(zeroDigest, tagged 0 0)]) :
    ∃ k < levels, x = pairPreimage (tagged 0 k, emptyLevels levelCount k) := by
  induction levels with
  | zero => simp [rangePreimages] at hx
  | succ levels ih =>
    rw [rangePreimages] at hx
    simp only [partitionPoint_zero, take_succ_cons, take_zero, drop_succ_cons,
      drop_zero, hashRange_levelCount (show levels ≤ 256 by omega), hashRange.eq_1,
      rangePreimages, append_nil, mem_cons] at hx
    rcases hx with hx | hx
    · exact ⟨levels, by omega, hx⟩
    · obtain ⟨k, hk, hx⟩ := ih (by omega) hx
      exact ⟨k, by omega, hx⟩

/-- Nothing that is hashed in the tree of one receipt with the zero id collides under
the count of levels. -/
theorem not_collision_levelCount {leaf : List UInt8} (hleaf : leaf.length ≠ 64)
    {hashed : List (List UInt8)}
    (hhashed : ∀ x ∈ hashed, x = leaf ∨
      x ∈ rangePreimages levelCount DEPTH [(zeroDigest, tagged 0 0)] ++ emptyPreimages levelCount) :
    ¬ Collision levelCount hashed := by
  -- the digest of a string tells its place in the tree
  have hplace : ∀ x ∈ hashed, (x = leaf ∧ levelCount x = tagged 0 0) ∨
      (∃ k < 256, x = pairPreimage (tagged 0 k, emptyLevels levelCount k) ∧
        levelCount x = tagged 0 (k + 1)) ∨
      (∃ k < 256, x = pairPreimage (emptyLevels levelCount k, emptyLevels levelCount k) ∧
        levelCount x = tagged 0xaf (0x1349 + (k + 1))) := by
    intro x hx
    rcases hhashed x hx with hx | hx
    · exact .inl ⟨hx, if_neg (by rw [hx]; exact hleaf)⟩
    · rcases mem_append.mp hx with hx | hx
      · obtain ⟨k, hk, hx⟩ := mem_rangePreimages_levelCount le_rfl hx
        have hk : k < 256 := hk
        refine .inr (.inl ⟨k, hk, hx, ?_⟩)
        rw [hx]
        exact levelCount_tagged (by omega) _
      · obtain ⟨k, hk, hx⟩ := mem_map.mp hx
        have hk : k < 256 := mem_range.mp hk
        refine .inr (.inr ⟨k, hk, hx.symm, ?_⟩)
        rw [← hx]
        exact emptyLevels_levelCount hk
  rintro ⟨x, hx, y, hy, hne, heq⟩
  rcases hplace x hx with ⟨hx, hcx⟩ | ⟨k, hk, hx, hcx⟩ | ⟨k, hk, hx, hcx⟩ <;>
    rcases hplace y hy with ⟨hy, hcy⟩ | ⟨m, hm, hy, hcy⟩ | ⟨m, hm, hy, hcy⟩ <;>
    rw [hcx, hcy] at heq <;>
    obtain ⟨htag, hcount⟩ := tagged_inj (by omega) (by omega) heq
  · exact hne (hx.trans hy.symm)
  · omega
  · exact absurd htag (by decide)
  · omega
  · exact hne (by rw [hx, hy, show k = m by omega])
  · exact absurd htag (by decide)
  · exact absurd htag (by decide)
  · exact absurd htag (by decide)
  · exact hne (by rw [hx, hy, show k = m by omega])

/-- Either receipt is checked as the other. -/
theorem verify_addressReceipt (blake3 : List UInt8 → Digest) {n : Nat} (hn : UInt32.ofNat n = 0)
    (root : Digest) (proof : List Digest) :
    verifyReceiptProof blake3 root (addressReceipt n) proof =
      verifyReceiptProof blake3 root (dataReceipt n) proof := by
  have hleaf : receiptLeafHash blake3 (addressReceipt n) = receiptLeafHash blake3 (dataReceipt n) := by
    rw [receiptLeafHash, serialize_addressReceipt hn, receiptLeafHash]
  rw [verifyReceiptProof, verifyReceiptProof, hleaf]
  rfl

theorem length_dataReceipt (n : Nat) : (receiptPreimage (dataReceipt n)).length ≠ 64 := by
  simp only [receiptPreimage, serializeReceipt, dataReceipt, serializeLog, writeString, writeBytes,
    flatMap_cons, flatMap_nil, length_cons, length_append, length_replicate,
    length_toBeBytes, length_toBeBytes32, Vector.length_toList]
  omega

/-- Every string hashed for a proof of the committed receipt, and for a check of the
other one with it, is the leaf or belongs to the tree. -/
theorem mem_dataReceipt_preimages {n : Nat} (hn : UInt32.ofNat n = 0) {x : List UInt8}
    (hx : x ∈ receiptsPreimages levelCount [dataReceipt n] ++
      verifyReceiptPreimages levelCount (addressReceipt n) (collectSiblings levelCount zeroDigest DEPTH
        (sortByKey (receiptLeaves levelCount [dataReceipt n])))) :
    x = receiptPreimage (dataReceipt n) ∨
      x ∈ rangePreimages levelCount DEPTH [(zeroDigest, tagged 0 0)] ++ emptyPreimages levelCount := by
  have hpreimage : receiptPreimage (addressReceipt n) = receiptPreimage (dataReceipt n) := by
    rw [receiptPreimage, serialize_addressReceipt hn, receiptPreimage]
  have hcount : levelCount (receiptPreimage (dataReceipt n)) = tagged 0 0 := by
    rw [levelCount, if_neg (length_dataReceipt n)]
  have hleaf : receiptLeafHash levelCount (dataReceipt n) = tagged 0 0 := hcount
  have hleaf' : receiptLeafHash levelCount (addressReceipt n) = tagged 0 0 :=
    (congrArg levelCount hpreimage).trans hcount
  have hleaves : sortByKey (receiptLeaves levelCount [dataReceipt n]) = [(zeroDigest, tagged 0 0)] := by
    rw [← hleaf]
    simp [sortByKey, receiptLeaves, dataReceipt]
  rw [receiptsPreimages, verifyReceiptPreimages, rootPreimages, hleaves, hpreimage, hleaf'] at hx
  rcases mem_append.mp hx with hx | hx
  · rcases mem_append.mp hx with hx | hx
    · obtain ⟨r, hr, hx⟩ := mem_map.mp hx
      rw [mem_singleton.mp (mem_filter.mp hr).1] at hx
      exact .inl hx.symm
    · exact .inr hx
  · rcases mem_cons.mp hx with hx | hx
    · exact .inl hx
    · obtain ⟨pair, hpair, hx⟩ := mem_map.mp hx
      have hslice : IsSlice 256 ((bits zeroDigest).take (256 - 256)) [(zeroDigest, tagged 0 0)] :=
        ⟨le_rfl, pairwise_singleton _ _, fun e _ => by simp⟩
      have hof : leafOf [(zeroDigest, tagged 0 0)] (bits zeroDigest) = tagged 0 0 := by simp [leafOf]
      have hmem := pathPairs_mem_rangePreimages levelCount hslice pair
      rw [hof] at hmem
      rw [← hx]
      exact .inr (hmem hpair)

/-- A receipt that is not in the list is accepted, for every digest function, and
with the count of levels nothing collides: the length of `2 ^ 32` zero bytes is written
as zero, whether they are the data or the address of a log. -/
theorem overflowing_receipt_accepted :
    addressReceipt (2 ^ 32) ∉ [dataReceipt (2 ^ 32)] ∧
    (∀ blake3, ∃ proof, proveReceipt blake3 [dataReceipt (2 ^ 32)] zeroDigest = .ok proof ∧
      verifyReceiptProof blake3 (receiptsSubroot blake3 [dataReceipt (2 ^ 32)])
        (addressReceipt (2 ^ 32)) proof = true) ∧
    ∃ blake3 proof, proveReceipt blake3 [dataReceipt (2 ^ 32)] zeroDigest = .ok proof ∧
      verifyReceiptProof blake3 (receiptsSubroot blake3 [dataReceipt (2 ^ 32)])
        (addressReceipt (2 ^ 32)) proof = true ∧
      ¬ Collision blake3 (receiptsPreimages blake3 [dataReceipt (2 ^ 32)] ++
        verifyReceiptPreimages blake3 (addressReceipt (2 ^ 32)) proof) := by
  have hn : UInt32.ofNat (2 ^ 32) = 0 := by decide
  generalize hm : 2 ^ 32 = n at hn
  have hpos : 0 < n := by omega
  have hall : ∀ blake3, ∃ proof, proveReceipt blake3 [dataReceipt n] zeroDigest = .ok proof ∧
      verifyReceiptProof blake3 (receiptsSubroot blake3 [dataReceipt n]) (addressReceipt n) proof =
        true := by
    intro blake3
    have hfind : [dataReceipt n].find? (fun r => r.txid == (dataReceipt n).txid) =
        some (dataReceipt n) := by simp
    obtain ⟨proof, hprove, hverify⟩ := verifyReceiptProof_of_find blake3 hfind
    exact ⟨proof, hprove, (verify_addressReceipt blake3 hn _ _).trans hverify⟩
  refine ⟨fun hmem => dataReceipt_ne hpos (mem_singleton.mp hmem), hall, levelCount, ?_⟩
  obtain ⟨proof, hprove, hverify⟩ := hall levelCount
  have hproof : proof = collectSiblings levelCount zeroDigest DEPTH
      (sortByKey (receiptLeaves levelCount [dataReceipt n])) := by
    have hfirst : proveReceipt levelCount [dataReceipt n] zeroDigest = .ok (collectSiblings levelCount
        zeroDigest DEPTH (sortByKey (receiptLeaves levelCount [dataReceipt n]))) := by
      simp [proveReceipt, okOr, dataReceipt]
    exact Except.ok.inj (hprove.symm.trans hfirst)
  refine ⟨proof, hprove, hverify, ?_⟩
  rw [hproof]
  exact not_collision_levelCount (length_dataReceipt n) (fun x => mem_dataReceipt_preimages hn)

end Strangecoin
