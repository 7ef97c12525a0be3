import Strangecoin.Consensus
import Strangecoin.BlockCodec
import Strangecoin.AccountProofs
import Strangecoin.ReferenceCrates

/-! # What the transaction root of a header commits to

The root is a Merkle root over the transaction ids, in which a level of odd
length pairs its last node with itself.  A list and the same list with its last
node written twice therefore share their root.
-/
namespace Strangecoin
open List

/-! ### Bodies of compact blocks -/

/-- A block from a header and the transactions found for it, if they have the root of
the header. -/
def Crates.assembleAndVerify (crates : Crates) (header : BlockHeader)
    (txs : List Transaction) : Except NetError Block :=
  let ids := txs.map crates.txid
  let root := crates.merkleRoot ids
  if root ≠ header.txRoot then
    .error (.protocol ("compact block: reconstructed tx_root " ++ hexEncode root.toList ++
      " != header " ++ hexEncode header.txRoot.toList))
  else .ok (Block.fromHeader header txs)

variable {hashed : List (List UInt8)}

/-- Without a collision, strings with the same digests are the same strings. -/
theorem map_eq_of_not_collision {blake3 : List UInt8 → Digest} {xs ys : List (List UInt8)}
    (hcollision : ¬ Collision blake3 hashed) (hxs : ∀ x ∈ xs, x ∈ hashed)
    (hys : ∀ y ∈ ys, y ∈ hashed) (h : xs.map blake3 = ys.map blake3) : xs = ys := by
  induction xs generalizing ys with
  | nil => simpa using h
  | cons x xs ih =>
    obtain ⟨y, ys, rfl⟩ := exists_cons_of_length_pos (l := ys) (by
      have := congrArg List.length h
      simp at this
      omega)
    simp only [map_cons, List.cons.injEq] at h
    have hhead : x = y := eq_of_not_collision hcollision (hxs x (by simp)) (hys y (by simp)) h.1
    have htail : xs = ys := ih (fun z hz => hxs z (by simp [hz])) (fun z hz => hys z (by simp [hz])) h.2
    rw [hhead, htail]

namespace Crates

/-! ### The strings that are hashed -/

/-- The pairs of nodes hashed for one level. -/
def merklePairs : List Digest → List (Digest × Digest)
  | left :: right :: rest => (left, right) :: merklePairs rest
  | [node] => [(node, node)]
  | [] => []

variable (crates : Crates)

/-- The strings hashed by `merkleFold`. -/
def foldPreimages : Nat → List Digest → List (List UInt8)
  | 0, _ => []
  | fuel + 1, hashes =>
    if hashes.length > 1 then
      (merklePairs hashes).map pairPreimage ++ foldPreimages fuel (crates.merkleLevel hashes)
    else []

/-- The strings hashed by `merkleRoot`. -/
def merklePreimages (txids : List Digest) : List (List UInt8) :=
  match txids with
  | [] => []
  | [id] => [pairPreimage (id, id)]
  | _ => crates.foldPreimages txids.length txids

theorem merkleLevel_eq (hashes : List Digest) :
    crates.merkleLevel hashes = (merklePairs hashes).map (crates.blake3 ∘ pairPreimage) := by
  fun_induction merklePairs hashes with
  | case1 left right rest ih => rw [merkleLevel, ih]; rfl
  | case2 node => rfl
  | case3 => rfl

theorem length_merklePairs (hashes : List Digest) :
    (merklePairs hashes).length = (hashes.length + 1) / 2 := by
  fun_induction merklePairs hashes with
  | case1 left right rest ih => simp only [length_cons, ih]; omega
  | case2 node => simp
  | case3 => simp

theorem length_merkleLevel (hashes : List Digest) :
    (crates.merkleLevel hashes).length = (hashes.length + 1) / 2 := by
  rw [merkleLevel_eq, length_map, length_merklePairs]

variable {xs ys : List Digest}

/-- The pairs forget only whether the last node stood there once or twice. -/
theorem merklePairs_inj (hlength : xs.length = ys.length) (h : merklePairs xs = merklePairs ys) :
    xs = ys := by
  fun_induction merklePairs xs generalizing ys with
  | case1 left right rest ih =>
    match ys, hlength, h with
    | _ :: _ :: rest', hlength, h =>
      simp only [merklePairs, List.cons.injEq, Prod.mk.injEq] at h
      obtain ⟨⟨rfl, rfl⟩, hrest⟩ := h
      rw [ih (by simpa using hlength) hrest]
  | case2 node =>
    match ys, hlength, h with
    | [_], _, h =>
      simp only [merklePairs, List.cons.injEq, Prod.mk.injEq] at h
      rw [h.1.1]
  | case3 => rw [length_eq_zero_iff.mp hlength.symm]

variable {crates}

/-- Without a collision a level determines the one below it, up to its length. -/
theorem merkleLevel_inj (hcollision : ¬ Collision crates.blake3 hashed)
    (hxs : ∀ x ∈ (merklePairs xs).map pairPreimage, x ∈ hashed)
    (hys : ∀ y ∈ (merklePairs ys).map pairPreimage, y ∈ hashed) (hlength : xs.length = ys.length)
    (h : crates.merkleLevel xs = crates.merkleLevel ys) : xs = ys := by
  rw [merkleLevel_eq, merkleLevel_eq, ← map_map, ← map_map] at h
  have hpreimages := map_eq_of_not_collision hcollision hxs hys h
  exact merklePairs_inj hlength (pairPreimage_injective.list_map hpreimages)

/-- A list of at most one node is what `merkleFold` returns of it. -/
theorem eq_of_headD_eq (hlength : xs.length = ys.length) (hshort : xs.length ≤ 1)
    (h : xs.headD zeroDigest = ys.headD zeroDigest) : xs = ys := by
  match xs, ys, hlength, hshort, h with
  | [], [], _, _, _ => rfl
  | [_], [_], _, _, h => exact congrArg (fun node => [node]) h

theorem merkleFold_inj {fuel : Nat} (hcollision : ¬ Collision crates.blake3 hashed)
    (hxs : ∀ x ∈ crates.foldPreimages fuel xs, x ∈ hashed)
    (hys : ∀ y ∈ crates.foldPreimages fuel ys, y ∈ hashed) (hfuel : xs.length ≤ fuel + 1)
    (hlength : xs.length = ys.length) (h : crates.merkleFold fuel xs = crates.merkleFold fuel ys) :
    xs = ys := by
  induction fuel generalizing xs ys with
  | zero => exact eq_of_headD_eq hlength hfuel h
  | succ fuel ih =>
    rw [merkleFold, merkleFold, ← hlength] at h
    rw [foldPreimages] at hxs
    rw [foldPreimages, ← hlength] at hys
    by_cases hmany : xs.length > 1
    · -- The levels above are equal, and so are the pairs they were hashed from.
      rw [if_pos hmany] at hxs hys
      rw [if_pos hmany, if_pos hmany] at h
      have hlevel : crates.merkleLevel xs = crates.merkleLevel ys := by
        refine ih (fun x hx => hxs x ?_) (fun y hy => hys y ?_) ?_ ?_ h
        · exact mem_append_right _ hx
        · exact mem_append_right _ hy
        · rw [length_merkleLevel]; omega
        · rw [length_merkleLevel, length_merkleLevel, hlength]
      exact merkleLevel_inj hcollision (fun x hx => hxs x (mem_append_left _ hx))
        (fun y hy => hys y (mem_append_left _ hy)) hlength hlevel
    · rw [if_neg hmany, if_neg hmany] at h
      exact eq_of_headD_eq hlength (by omega) h

/-- Lists of one length with one root are equal, or two of the hashed strings
collide. -/
theorem merkleRoot_inj
    (hcollision : ¬ Collision crates.blake3 (crates.merklePreimages xs ++ crates.merklePreimages ys))
    (hlength : xs.length = ys.length) (h : crates.merkleRoot xs = crates.merkleRoot ys) :
    xs = ys := by
  match xs, ys, hlength with
  | [], [], _ => rfl
  | [x], [y], _ =>
    have hpair : pairPreimage (x, x) = pairPreimage (y, y) :=
      eq_of_not_collision hcollision (by simp [merklePreimages]) (by simp [merklePreimages]) h
    rw [(Prod.mk.inj (pairPreimage_injective hpair)).1]
  | x :: x' :: xs, y :: y' :: ys, hlength =>
    rw [merkleRoot, merkleRoot, ← hlength] at h
    · refine merkleFold_inj hcollision (fun _ => mem_append_left _) ?_ (by omega) hlength h
      rw [hlength]
      exact fun _ => mem_append_right _
    all_goals simp

variable (crates) in
/-- The strings hashed over the transaction ids by `computeTxRoot`. -/
def txRootPreimages (txs : List Transaction) : List (List UInt8) :=
  crates.merklePreimages (txs.map crates.txid)

theorem computeTxRoot_eq (txs : List Transaction) :
    crates.computeTxRoot txs = crates.merkleRoot (txs.map crates.txid) := by
  cases txs <;> rfl

variable {header : BlockHeader} {txs : List Transaction}

/-- The two checks of a body against its header agree. -/
theorem checked_of_root_eq (h : crates.computeTxRoot txs = header.txRoot) :
    validateTxRoot crates (Block.fromHeader header txs) = .ok () ∧
      crates.assembleAndVerify header txs = .ok (Block.fromHeader header txs) := by
  refine ⟨guardWith_eq_ok.mpr h, ?_⟩
  rw [assembleAndVerify, ← computeTxRoot_eq]
  exact if_neg (not_not.mpr h)

theorem assembleAndVerify_ok {block : Block} (h : crates.assembleAndVerify header txs = .ok block) :
    crates.computeTxRoot txs = header.txRoot ∧ block = Block.fromHeader header txs := by
  rw [assembleAndVerify] at h
  split at h
  · cases h
  · next hroot => exact ⟨by rw [computeTxRoot_eq]; exact not_not.mp hroot, (Except.ok.inj h).symm⟩

/-- Two bodies with one transaction root have the same ids exactly when they have the
same number of transactions.  Likewise for two bodies that pass the check of the root
under one header, and for two that are assembled for one header. -/
theorem tx_root_binds_ids_iff {txs txs' : List Transaction}
    (hcollision : ¬ Collision crates.blake3 (crates.txRootPreimages txs ++ crates.txRootPreimages txs')) :
    (crates.computeTxRoot txs = crates.computeTxRoot txs' →
      (txs.map crates.txid = txs'.map crates.txid ↔ txs.length = txs'.length)) ∧
    (∀ header, validateTxRoot crates (Block.fromHeader header txs) = .ok () →
      validateTxRoot crates (Block.fromHeader header txs') = .ok () →
      (txs.map crates.txid = txs'.map crates.txid ↔ txs.length = txs'.length)) ∧
    ∀ header block block', crates.assembleAndVerify header txs = .ok block →
      crates.assembleAndVerify header txs' = .ok block' →
      (txs.map crates.txid = txs'.map crates.txid ↔ txs.length = txs'.length) := by
  have hbinds (hroot : crates.computeTxRoot txs = crates.computeTxRoot txs') :
      txs.map crates.txid = txs'.map crates.txid ↔ txs.length = txs'.length := by
    constructor
    · intro hids
      simpa using congrArg List.length hids
    · intro hlength
      rw [computeTxRoot_eq, computeTxRoot_eq] at hroot
      exact merkleRoot_inj hcollision (by simpa using hlength) hroot
  refine ⟨hbinds, fun header h h' => hbinds ?_, fun header block block' h h' => hbinds ?_⟩
  · exact (guardWith_eq_ok.mp h).trans (guardWith_eq_ok.mp h').symm
  · exact (assembleAndVerify_ok h).1.trans (assembleAndVerify_ok h').1.symm

/-- Repeating a single transaction changes neither the root nor what is hashed for it. -/
theorem computeTxRoot_repeated (tx : Transaction) :
    crates.computeTxRoot [tx] = crates.computeTxRoot [tx, tx] := by
  rw [computeTxRoot_eq, computeTxRoot_eq]
  rfl

theorem not_collision_repeated (tx : Transaction) :
    ¬ Collision crates.blake3 (crates.txRootPreimages [tx] ++ crates.txRootPreimages [tx, tx]) := by
  rintro ⟨x, hx, y, hy, hne, -⟩
  have hall : ∀ z ∈ crates.txRootPreimages [tx] ++ crates.txRootPreimages [tx, tx],
      z = pairPreimage (crates.txid tx, crates.txid tx) := by
    simp [txRootPreimages, merklePreimages, foldPreimages, merklePairs, merkleLevel]
  exact hne ((hall x hx).trans (hall y hy).symm)

end Crates

/-! ### A body with its only transaction written twice -/

def rewardTx : Transaction := .transfer (.reward CHAIN_ID_REGTEST "miner" 0)

def rewardHeader : BlockHeader where
  index := 1
  timestamp := 0
  previousHash := ""
  hash := ""
  nonce := 0
  target := ""
  consensusVersion := 1
  stateRoot := zeroDigest
  txRoot := referenceCrates.computeTxRoot [rewardTx]
  receiptsRoot := zeroDigest

theorem tx_root_binds_ids_repeated :
    [rewardTx].map referenceCrates.txid = [rewardTx, rewardTx].map referenceCrates.txid ↔
      [rewardTx].length = [rewardTx, rewardTx].length :=
  (Crates.tx_root_binds_ids_iff (Crates.not_collision_repeated rewardTx)).1
    (Crates.computeTxRoot_repeated rewardTx)

/-- One header is good for two bodies, with nothing that collides: the second repeats
the only transaction of the first. -/
theorem repeated_transaction_keeps_tx_root :
    referenceCrates.computeTxRoot [rewardTx] = referenceCrates.computeTxRoot [rewardTx, rewardTx] ∧
    ¬ Collision referenceCrates.blake3 (referenceCrates.txRootPreimages [rewardTx] ++
      referenceCrates.txRootPreimages [rewardTx, rewardTx]) ∧
    [rewardTx].map referenceCrates.txid ≠ [rewardTx, rewardTx].map referenceCrates.txid ∧
    ∀ txs, txs = [rewardTx] ∨ txs = [rewardTx, rewardTx] →
      validateTxRoot referenceCrates (Block.fromHeader rewardHeader txs) = .ok () ∧
      referenceCrates.assembleAndVerify rewardHeader txs = .ok (Block.fromHeader rewardHeader txs) := by
  have hroot := @Crates.computeTxRoot_repeated referenceCrates rewardTx
  have hids : [rewardTx].map referenceCrates.txid ≠ [rewardTx, rewardTx].map referenceCrates.txid :=
    fun h => absurd (congrArg List.length h) (by rw [length_map, length_map]; decide)
  refine ⟨hroot, Crates.not_collision_repeated rewardTx, hids, ?_⟩
  rintro txs (rfl | rfl)
  · exact Crates.checked_of_root_eq rfl
  · exact Crates.checked_of_root_eq hroot.symm

end Strangecoin
