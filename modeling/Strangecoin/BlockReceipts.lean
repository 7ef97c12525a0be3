import Strangecoin.ReceiptProofs
import Strangecoin.BlockCodec
import Strangecoin.Replay

/-! # The receipts of an accepted block

A block leaves the receipt of its first coinbase and then those of the transactions
without the flag, in their order.  A second coinbase is passed over without a receipt, and
a repeated id keeps only the leaf of its first receipt.
-/
namespace Strangecoin
open List

/-! ### Which transactions leave a receipt -/

/-- The receipt of the transaction at a position. -/
def Receipt.IsOf (crates : Crates) (receipt : Receipt) (e : Transaction × Nat) : Prop :=
  receipt.txid = crates.txid e.1 ∧ receipt.txIndex = UInt32.ofNat e.2

section
variable {V : Type} {crates : Crates} {exec : VmExecutor V} {chainId : UInt32} {block : Block}

/-- The gas a frame has used: its whole limit if it ended with an error. -/
def frameGas (gasLimit : UInt64) : Except VmError ExecutionResult → UInt64
  | .ok result => result.gasUsed
  | .error _ => gasLimit

variable {create : CreateTx} {i : Nat} {outcome : Except VmError ExecutionResult}
  {receipt : Receipt} {s s' : State}

theorem settleCreate_receipt {address : String}
    (h : settleCreate crates s create address block (UInt32.ofNat i) outcome = .ok (s', receipt)) :
    receipt.IsOf crates (.create create, i) ∧
      receipt.gasUsed = frameGas create.gasLimit outcome := by
  unfold settleCreate at h
  cases outcome with
  | error err =>
    obtain ⟨rfl, rfl⟩ := ok_pair h
    exact ⟨⟨rfl, rfl⟩, rfl⟩
  | ok result =>
    dsimp only at h
    split at h
    · obtain ⟨s₁, -, h⟩ := bind_eq_ok.mp h
      obtain ⟨s₂, -, h⟩ := bind_eq_ok.mp h
      obtain ⟨rfl, rfl⟩ := ok_pair h
      exact ⟨⟨rfl, rfl⟩, rfl⟩
    · obtain ⟨rfl, rfl⟩ := ok_pair h
      exact ⟨⟨rfl, rfl⟩, rfl⟩

theorem settleCall_receipt {call : CallTx}
    (h : settleCall crates s call block (UInt32.ofNat i) outcome = .ok (s', receipt)) :
    receipt.IsOf crates (.call call, i) ∧ receipt.gasUsed = frameGas call.gasLimit outcome := by
  unfold settleCall at h
  cases outcome with
  | error err =>
    obtain ⟨rfl, rfl⟩ := ok_pair h
    exact ⟨⟨rfl, rfl⟩, rfl⟩
  | ok result =>
    dsimp only at h
    split at h
    · obtain ⟨s₁, -, h⟩ := bind_eq_ok.mp h
      obtain ⟨rfl, rfl⟩ := ok_pair h
      exact ⟨⟨rfl, rfl⟩, rfl⟩
    · obtain ⟨rfl, rfl⟩ := ok_pair h
      exact ⟨⟨rfl, rfl⟩, rfl⟩

theorem applyCreate_receipt {vm vm' : V}
    (h : applyCreate crates exec s create chainId vm block (UInt32.ofNat i) =
      .ok (s', vm', receipt)) :
    receipt.IsOf crates (.create create, i) ∧ ∃ ctx : ExecutionContext,
      ctx.gasLimit = create.gasLimit ∧
        receipt.gasUsed = frameGas create.gasLimit (exec.executeConstructor vm' ctx) := by
  unfold applyCreate at h
  obtain ⟨address, -, h⟩ := bind_eq_ok.mp h
  obtain ⟨_, -, h⟩ := bind_eq_ok.mp h
  obtain ⟨_, -, h⟩ := bind_eq_ok.mp h
  obtain ⟨vm₁, -, h⟩ := bind_eq_ok.mp h
  obtain ⟨⟨s₁, receipt₁⟩, hsettle, h⟩ := bind_eq_ok.mp h
  cases h
  obtain ⟨hof, hgas⟩ := settleCreate_receipt hsettle
  refine ⟨hof, _, ?_, hgas⟩
  rfl

/-- A call of an address without a contract uses no gas. -/
theorem applyCall_receipt {call : CallTx} {vm : V}
    (h : applyCall crates exec s block call vm (UInt32.ofNat i) = .ok (s', receipt)) :
    receipt.IsOf crates (.call call, i) ∧ (receipt.gasUsed = 0 ∨ ∃ ctx : ExecutionContext,
      ctx.gasLimit = call.gasLimit ∧
        receipt.gasUsed = frameGas call.gasLimit (exec.execute vm ctx)) := by
  unfold applyCall at h
  obtain ⟨_, -, h⟩ := bind_eq_ok.mp h
  dsimp only at h
  split at h
  · obtain ⟨s₁, -, h⟩ := bind_eq_ok.mp h
    cases h
    exact ⟨⟨rfl, rfl⟩, .inl rfl⟩
  · obtain ⟨hof, hgas⟩ := settleCall_receipt h
    refine ⟨hof, .inr ⟨_, ?_, hgas⟩⟩
    rfl

/-- Whatever a transaction does, its receipt and its position are in the relation. -/
structure LeavesReceipts (crates : Crates) (exec : VmExecutor V) (chainId : UInt32) (block : Block)
    (P : Receipt → Transaction × Nat → Prop) : Prop where
  transfer : ∀ tx i moves,
    P (transferReceipt crates (.transfer tx) block (UInt32.ofNat i) moves) (.transfer tx, i)
  create : ∀ s create vm s' vm' receipt i,
    applyCreate crates exec s create chainId vm block (UInt32.ofNat i) = .ok (s', vm', receipt) →
      P receipt (.create create, i)
  call : ∀ s call vm s' receipt i,
    applyCall crates exec s block call vm (UInt32.ofNat i) = .ok (s', receipt) →
      P receipt (.call call, i)

theorem leavesReceipts_isOf : LeavesReceipts crates exec chainId block (Receipt.IsOf crates) where
  transfer _ _ _ := ⟨rfl, rfl⟩
  create _ _ _ _ _ _ _ h := (applyCreate_receipt h).1
  call _ _ _ _ _ _ h := (applyCall_receipt h).1

section
variable {P : Receipt → Transaction × Nat → Prop}

/-- **One step**: a coinbase leaves nothing, any other transaction its receipt. -/
theorem applyTx_receipts (hleaves : LeavesReceipts crates exec chainId block P)
    {p p' : Progress V} {e : Transaction × Nat}
    (h : applyTx crates exec chainId block p e = .ok p') :
    ∃ left, p'.receipts = p.receipts ++ left ∧
      List.Forall₂ P left ([e].filter (fun e => !e.1.isCoinbase)) := by
  unfold applyTx at h
  dsimp only at h
  split at h
  · rename_i hcb
    obtain rfl := Except.ok.inj h
    exact ⟨[], by simp, by simp [hcb]⟩
  · rename_i hcb
    have hkept : [e].filter (fun e => !e.1.isCoinbase) = [e] := by simp [hcb]
    rw [hkept]
    obtain ⟨tx, i⟩ := e
    cases tx with
    | transfer tx =>
      obtain ⟨s₁, -, h⟩ := bind_eq_ok.mp h
      obtain rfl := Except.ok.inj h
      exact ⟨_, rfl, .cons (hleaves.transfer tx i _) .nil⟩
    | create create =>
      dsimp only at h
      split at h
      · cases h
      · obtain ⟨⟨s₁, vm₁, receipt⟩, happly, h⟩ := bind_eq_ok.mp h
        obtain rfl := Except.ok.inj h
        exact ⟨_, rfl, .cons (hleaves.create _ _ _ _ _ _ i happly) .nil⟩
    | call call =>
      dsimp only at h
      split at h
      · cases h
      · obtain ⟨⟨s₁, receipt⟩, happly, h⟩ := bind_eq_ok.mp h
        obtain rfl := Except.ok.inj h
        exact ⟨_, rfl, .cons (hleaves.call _ _ _ _ _ i happly) .nil⟩

/-- **A run**: the receipts are those of the transactions without the flag, in order. -/
theorem applyTxs_receipts (hleaves : LeavesReceipts crates exec chainId block P)
    {p p' : Progress V} {entries : List (Transaction × Nat)}
    (h : entries.foldlM (applyTx crates exec chainId block) p = .ok p') :
    ∃ left, p'.receipts = p.receipts ++ left ∧
      List.Forall₂ P left (entries.filter (fun e => !e.1.isCoinbase)) := by
  induction entries generalizing p with
  | nil =>
    obtain rfl := foldlM_nil_ok.mp h
    exact ⟨[], by simp, .nil⟩
  | cons e entries ih =>
    obtain ⟨p₁, hstep, h⟩ := foldlM_cons_ok.mp h
    obtain ⟨left₁, hleft₁, hof₁⟩ := applyTx_receipts hleaves hstep
    obtain ⟨left₂, hleft₂, hof₂⟩ := ih h
    refine ⟨left₁ ++ left₂, by rw [hleft₂, hleft₁, append_assoc], ?_⟩
    have hsplit : (e :: entries).filter (fun e => !e.1.isCoinbase) =
        [e].filter (fun e => !e.1.isCoinbase) ++ entries.filter (fun e => !e.1.isCoinbase) :=
      @List.filter_append _ _ [e] entries
    rw [hsplit]
    exact rel_append hof₁ hof₂

end

end

/-- The transactions that leave a receipt, in the order of their receipts. -/
def Block.receiptEntries (block : Block) : List (Transaction × Nat) :=
  (coinbaseOf block).toList ++ block.transactions.zipIdx.filter (fun e => !e.1.isCoinbase)

section
variable {V : Type} {crates : Crates} {rt : Runtime V} {parent state : State} {block : Block}
  {view : BlockView}

variable {P : Receipt → Transaction × Nat → Prop}

/-- **A block**: the receipts after genesis. -/
theorem applyAndExecute_receipts (hleaves : LeavesReceipts crates rt.exec view.chainId block P)
    (hpos : 0 < block.index) (h : applyAndExecute crates rt parent block view = .ok state) :
    List.Forall₂ P state.receipts block.receiptEntries := by
  obtain ⟨⟨state', vm⟩, happly, hstate⟩ := bind_eq_ok.mp h
  obtain ⟨⟨inner, vm'⟩, hinner, hvm⟩ := bind_eq_ok.mp (liftCore_eq_ok.mp happly)
  obtain ⟨-, cb, i, s₁, p, hcb, -, -, hrun, hp⟩ := (applyBlockInner_ok hpos).mp hinner
  obtain ⟨left, hleft, hof⟩ := applyTxs_receipts hleaves hrun
  have hreceipts : state.receipts = p.receipts := by
    rw [← Except.ok.inj hstate, ← (ok_pair hvm).1, (Prod.mk.inj hp).1]
  rw [hreceipts, hleft, Block.receiptEntries, hcb]
  exact .cons (hleaves.transfer cb i []) hof

/-- The receipts of a genesis block: those of its transactions, in order. -/
theorem applyGenesisTxs_receipts {chainId : UInt32} {exec : VmExecutor V}
    (hleaves : LeavesReceipts crates exec chainId block P) {p p' : Progress V}
    {entries : List (Transaction × Nat)}
    (h : entries.foldlM (applyGenesisTx crates chainId block) p = .ok p') :
    ∃ left, p'.receipts = p.receipts ++ left ∧ List.Forall₂ P left entries := by
  induction entries generalizing p with
  | nil =>
    obtain rfl := foldlM_nil_ok.mp h
    exact ⟨[], by simp, .nil⟩
  | cons e entries ih =>
    obtain ⟨p₁, hstep, h⟩ := foldlM_cons_ok.mp h
    obtain ⟨left, hleft, hof⟩ := ih h
    obtain ⟨_, -, hstep⟩ := bind_eq_ok.mp hstep
    obtain ⟨tx, i⟩ := e
    cases tx with
    | transfer tx =>
      obtain ⟨s, -, hstep⟩ := bind_eq_ok.mp hstep
      obtain rfl := Except.ok.inj hstep
      refine ⟨_ :: left, ?_, .cons (hleaves.transfer tx i []) hof⟩
      rw [hleft, append_assoc]
      rfl
    | create create => cases hstep
    | call call => cases hstep

theorem applyAndExecute_genesis_receipts
    (hleaves : LeavesReceipts crates rt.exec view.chainId block P) (hzero : block.index = 0)
    (h : applyAndExecute crates rt parent block view = .ok state) :
    List.Forall₂ P state.receipts block.transactions.zipIdx := by
  obtain ⟨⟨state', vm⟩, happly, hstate⟩ := bind_eq_ok.mp h
  obtain ⟨⟨inner, vm'⟩, hinner, hvm⟩ := bind_eq_ok.mp (liftCore_eq_ok.mp happly)
  unfold applyBlockInner at hinner
  rw [if_pos hzero] at hinner
  obtain ⟨p, hrun, hp⟩ := bind_eq_ok.mp hinner
  obtain ⟨left, hleft, hof⟩ := applyGenesisTxs_receipts hleaves hrun
  have hreceipts : state.receipts = p.receipts := by
    rw [← Except.ok.inj hstate, ← (ok_pair hvm).1,
      ← (ok_pair hp).1]
  rw [hreceipts, hleft, nil_append]
  exact hof

theorem ValidBlock.receipts (hpos : 0 < block.index)
    (h : ValidBlock crates rt parent block view state) :
    List.Forall₂ (Receipt.IsOf crates) state.receipts block.receiptEntries :=
  applyAndExecute_receipts leavesReceipts_isOf hpos h.applied

/-- After genesis the header commits to the receipts. -/
theorem ValidBlock.receiptsRoot_eq (hpos : 0 < block.index)
    (h : ValidBlock crates rt parent block view state) :
    block.receiptsRoot = receiptsSubroot crates.blake3 state.receipts := by
  have hne : block.index ≠ 0 := by
    intro hzero
    rw [hzero] at hpos
    exact absurd hpos (by decide)
  have hroot := h.receiptsRoot
  unfold validateReceiptsRoot at hroot
  dsimp only at hroot
  split at hroot
  · exact absurd (guardNode_eq_ok.mp hroot) hne
  · exact guardNode_eq_ok.mp hroot

/-- Positions fit the index of a receipt. -/
theorem ValidBlock.length_lt (h : ValidBlock crates rt parent block view state) :
    block.transactions.length < 2 ^ 32 := by
  obtain ⟨bytes, hbytes, hsize⟩ := bind_eq_ok.mp h.sizes
  obtain ⟨header, -, hbytes⟩ := bind_eq_ok.mp hbytes
  obtain ⟨_, hlimit, -⟩ := bind_eq_ok.mp hsize
  have hlimit := guardNode_eq_ok.mp hlimit
  have hlength := le_length_serializeBlockTxs block.transactions
  rw [← Except.ok.inj hbytes, length_append, length_append, MAX_BLOCK_SIZE] at hlimit
  omega

theorem ValidBlock.coinbase_isSome (hpos : 0 < block.index)
    (h : ValidBlock crates rt parent block view state) : (coinbaseOf block).isSome := by
  obtain ⟨⟨state', vm⟩, happly, -⟩ := bind_eq_ok.mp h.applied
  obtain ⟨⟨inner, vm'⟩, hinner, -⟩ := bind_eq_ok.mp (liftCore_eq_ok.mp happly)
  obtain ⟨-, cb, i, s₁, p, hcb, -⟩ := (applyBlockInner_ok hpos).mp hinner
  rw [hcb]
  rfl

end

/-! ### Positions -/

variable {block : Block}

theorem getElem?_of_mem_receiptEntries {e : Transaction × Nat} (h : e ∈ block.receiptEntries) :
    block.transactions[e.2]? = some e.1 := by
  have hmem : e ∈ block.transactions.zipIdx := by
    rcases mem_append.mp h with h | h
    · exact mem_of_find?_eq_some (Option.mem_toList.mp h)
    · exact (mem_filter.mp h).1
  exact mem_zipIdx_iff_getElem?.mp hmem

theorem countP_isCoinbase (txs : List Transaction) : txs.countP Transaction.isCoinbase =
    (txs.zipIdx.filter (fun e => e.1.isCoinbase)).length := by
  nth_rewrite 1 [← zipIdx_map_fst 0 txs]
  rw [countP_map, countP_eq_length_filter]
  rfl

/-- One coinbase: every position leaves its receipt once. -/
theorem receiptEntries_perm (hone : block.transactions.countP Transaction.isCoinbase = 1) :
    block.receiptEntries.Perm block.transactions.zipIdx := by
  have hfirst : (coinbaseOf block).toList =
      block.transactions.zipIdx.filter (fun e => e.1.isCoinbase) := by
    obtain ⟨e, he⟩ := length_eq_one_iff.mp ((countP_isCoinbase block.transactions).symm.trans hone)
    rw [coinbaseOf, ← head?_filter, he]
    rfl
  rw [Block.receiptEntries, hfirst]
  exact filter_append_perm _ _

/-- Every position leaves a receipt: one coinbase. -/
theorem countP_eq_one_of_positions (hcb : (coinbaseOf block).isSome)
    (hall : ∀ i < block.transactions.length, i ∈ block.receiptEntries.map Prod.snd) :
    block.transactions.countP Transaction.isCoinbase = 1 := by
  obtain ⟨first, hfirst⟩ := Option.isSome_iff_exists.mp hcb
  have hflag := find?_some hfirst
  -- the entry of a position with a coinbase is that of the first coinbase
  have honly : block.transactions.zipIdx.filter (fun e => e.1.isCoinbase) ⊆ [first] := by
    intro e he
    obtain ⟨hmem, heflag⟩ := mem_filter.mp he
    have hget : block.transactions[e.2]? = some e.1 := mem_zipIdx_iff_getElem?.mp hmem
    have hlt : e.2 < block.transactions.length := (List.getElem?_eq_some_iff.mp hget).1
    obtain ⟨e', he', hpos⟩ := mem_map.mp (hall e.2 hlt)
    have hget' := getElem?_of_mem_receiptEntries he'
    rw [hpos, hget] at hget'
    have hsame : e' = e := Prod.ext (Option.some.inj hget').symm hpos
    rw [hsame] at he'
    rcases mem_append.mp he' with h | h
    · rw [hfirst] at h
      exact h
    · simp [heflag] at h
  have hnodup : (block.transactions.zipIdx.filter (fun e => e.1.isCoinbase)).Nodup :=
    ((nodup_zipIdx_map_snd block.transactions).of_map _).filter _
  have hle := (hnodup.subperm honly).length_le
  have hpos : first ∈ block.transactions.zipIdx.filter (fun e => e.1.isCoinbase) :=
    mem_filter.mpr ⟨mem_of_find?_eq_some hfirst, hflag⟩
  have hge := length_pos_of_mem hpos
  rw [countP_isCoinbase]
  exact le_antisymm hle hge

/-! ### Receipts and positions -/

/-- The receipts are those of the positions: every position has exactly one, with the
id of its transaction and an accepted proof against the root in the header. -/
def CommittedReceipts (crates : Crates) (block : Block) (receipts : List Receipt) : Prop :=
  (∀ r ∈ receipts, r.txIndex.toNat < block.transactions.length) ∧
  ∀ i tx, block.transactions[i]? = some tx →
    (receipts.map (fun r => r.txIndex.toNat)).count i = 1 ∧
    ∃ r ∈ receipts, r.txIndex.toNat = i ∧ r.txid = crates.txid tx ∧
      ∃ proof, proveReceipt crates.blake3 receipts r.txid = .ok proof ∧
        verifyReceiptProof crates.blake3 block.receiptsRoot r proof = true

/-- The strings hashed for the root of the receipts and for the checks of their
proofs. -/
def receiptProofPreimages (blake3 : List UInt8 → Digest) (receipts : List Receipt) :
    List (List UInt8) :=
  receiptsPreimages blake3 receipts ++ receipts.flatMap fun r => verifyReceiptPreimages blake3 r
    (collectSiblings blake3 r.txid DEPTH (sortByKey (receiptLeaves blake3 receipts)))

theorem serialize_txIndex {r r' : Receipt} (h : serializeReceipt r = serializeReceipt r') :
    r.txIndex = r'.txIndex := by
  simp only [serializeReceipt, List.cons.injEq, true_and, append_assoc] at h
  obtain ⟨-, h⟩ := delimits_digest.total h
  obtain ⟨-, h⟩ := delimits_toBeBytes.total h
  exact (delimits_toBeBytes32.total h).1

theorem proveReceipt_ok (blake3 : List UInt8 → Digest) {receipts : List Receipt} {txid : Digest}
    {proof : List Digest} (h : proveReceipt blake3 receipts txid = .ok proof) :
    (∃ r, receipts.find? (fun r => r.txid == txid) = some r) ∧
      proof = collectSiblings blake3 txid DEPTH (sortByKey (receiptLeaves blake3 receipts)) := by
  obtain ⟨r, hr, h⟩ := bind_eq_ok.mp h
  have hfind := okOr_eq_ok.mp hr
  have hkey : r.txid = txid := by simpa using find?_some hfind
  exact ⟨⟨r, hfind⟩, by rw [← hkey]; exact (Except.ok.inj h).symm⟩

section
variable {crates : Crates} {block : Block} {receipts : List Receipt}
  (hof : List.Forall₂ (Receipt.IsOf crates) receipts block.receiptEntries)
  (hlength : block.transactions.length < 2 ^ 32)
include hof

theorem map_txid_of_isOf : receipts.map Receipt.txid =
    block.receiptEntries.map (fun e => crates.txid e.1) := by
  rw [← forall₂_eq_eq_eq, forall₂_map_left_iff, forall₂_map_right_iff]
  exact hof.imp fun _ _ h => h.1

include hlength

theorem map_txIndex_of_isOf : receipts.map (fun r => r.txIndex.toNat) =
    block.receiptEntries.map Prod.snd := by
  have hmod : receipts.map (fun r => r.txIndex.toNat) =
      block.receiptEntries.map (fun e => e.2 % 2 ^ 32) := by
    rw [← forall₂_eq_eq_eq, forall₂_map_left_iff, forall₂_map_right_iff]
    refine hof.imp fun r e h => ?_
    rw [h.2, UInt32.toNat_ofNat']
  rw [hmod]
  refine map_congr_left fun e he => Nat.mod_eq_of_lt ?_
  have hlt := (List.getElem?_eq_some_iff.mp (getElem?_of_mem_receiptEntries he)).1
  omega

/-- A receipt is that of the transaction at its position. -/
theorem getElem?_of_mem_receipts {r : Receipt} (hr : r ∈ receipts) :
    ∃ tx, block.transactions[r.txIndex.toNat]? = some tx ∧ r.txid = crates.txid tx := by
  obtain ⟨e, he, hid, hindex⟩ := exists_of_forall₂ hof.flip hr
  have hget := getElem?_of_mem_receiptEntries he
  have hlt := (List.getElem?_eq_some_iff.mp hget).1
  have hpos : r.txIndex.toNat = e.2 := by
    rw [hindex, UInt32.toNat_ofNat']
    omega
  exact ⟨e.1, by rw [hpos, hget], hid⟩

/-- With one coinbase and different ids all positions have a committed receipt. -/
theorem committed_of_distinct
    (hroot : block.receiptsRoot = receiptsSubroot crates.blake3 receipts)
    (hone : block.transactions.countP Transaction.isCoinbase = 1)
    (hdistinct : (block.transactions.map crates.txid).Nodup) :
    CommittedReceipts crates block receipts := by
  have hperm := receiptEntries_perm hone
  have hids : (receipts.map Receipt.txid).Nodup := by
    rw [map_txid_of_isOf hof]
    refine (hperm.map _).nodup_iff.mpr ?_
    rw [show (fun e : Transaction × Nat => crates.txid e.1) = crates.txid ∘ Prod.fst from rfl,
      ← map_map, zipIdx_map_fst]
    exact hdistinct
  have hindices : (receipts.map (fun r => r.txIndex.toNat)).Nodup := by
    rw [map_txIndex_of_isOf hof hlength]
    exact (hperm.map _).nodup_iff.mpr (nodup_zipIdx_map_snd _)
  refine ⟨fun r hr => ?_, fun i tx htx => ?_⟩
  · obtain ⟨tx, htx, -⟩ := getElem?_of_mem_receipts hof hlength hr
    exact (List.getElem?_eq_some_iff.mp htx).1
  · have hmem : i ∈ receipts.map (fun r => r.txIndex.toNat) := by
      rw [map_txIndex_of_isOf hof hlength, (hperm.map _).mem_iff]
      exact mem_map.mpr ⟨(tx, i), mem_zipIdx_iff_getElem?.mpr htx, rfl⟩
    refine ⟨count_eq_one_of_mem hindices hmem, ?_⟩
    obtain ⟨r, hr, hpos⟩ := mem_map.mp hmem
    obtain ⟨tx', htx', hid⟩ := getElem?_of_mem_receipts hof hlength hr
    rw [hpos, htx] at htx'
    obtain ⟨proof, hprove, hverify⟩ :=
      verifyReceiptProof_of_find crates.blake3 (find?_of_distinct hids hr)
    rw [← hroot] at hverify
    exact ⟨r, hr, hpos, by rw [hid, Option.some.inj htx'], proof, hprove, hverify⟩

end

section
variable {crates : Crates} {block : Block} {receipts : List Receipt}
  (h : CommittedReceipts crates block receipts)
include h

/-- Without a second coinbase: it would have no receipt. -/
theorem one_coinbase_of_committed (hof : List.Forall₂ (Receipt.IsOf crates) receipts block.receiptEntries)
    (hlength : block.transactions.length < 2 ^ 32) (hcb : (coinbaseOf block).isSome) :
    block.transactions.countP Transaction.isCoinbase = 1 := by
  refine countP_eq_one_of_positions hcb fun i hi => ?_
  have hone := (h.2 i _ (getElem?_eq_getElem hi)).1
  rw [map_txIndex_of_isOf hof hlength] at hone
  exact count_pos_iff.mp (by omega)

/-- Without a repeated id: only the first of its receipts has a leaf. -/
theorem distinct_of_committed
    (hroot : block.receiptsRoot = receiptsSubroot crates.blake3 receipts)
    (hcol : ¬ Collision crates.blake3 (receiptProofPreimages crates.blake3 receipts)) :
    (block.transactions.map crates.txid).Nodup := by
  rw [nodup_iff_getElem?_ne_getElem?]
  intro i j hij hj hsame
  rw [length_map] at hj
  have hi : i < block.transactions.length := hij.trans hj
  rw [getElem?_map, getElem?_map, getElem?_eq_getElem hi,
    getElem?_eq_getElem hj] at hsame
  have hsame : crates.txid block.transactions[i] = crates.txid block.transactions[j] :=
    Option.some.inj hsame
  -- both receipts are accepted for the one that stands for the id
  have hstands : ∀ k (hk : k < block.transactions.length), ∃ r ∈ receipts, r.txIndex.toNat = k ∧
      r.txid = crates.txid block.transactions[k] ∧
      ∃ first, receipts.find? (fun r' => r'.txid == r.txid) = some first ∧
        serializeReceipt first = serializeReceipt r := by
    intro k hk
    obtain ⟨r, hr, hpos, hid, proof, hprove, hverify⟩ := (h.2 k _ (getElem?_eq_getElem hk)).2
    obtain ⟨⟨first, hfind⟩, rfl⟩ := proveReceipt_ok crates.blake3 hprove
    rw [hroot] at hverify
    refine ⟨r, hr, hpos, hid, first, hfind, serialize_eq_of_verify crates.blake3 ?_ hverify hfind⟩
    refine fun hcol' => hcol (hcol'.mono fun x hx => ?_)
    rcases mem_append.mp hx with hx | hx
    · exact mem_append_left _ hx
    · exact mem_append_right _ (mem_flatMap.mpr ⟨r, hr, hx⟩)
  obtain ⟨r, -, hpos, hid, first, hfind, hencode⟩ := hstands i hi
  obtain ⟨r', -, hpos', hid', first', hfind', hencode'⟩ := hstands j hj
  rw [hid', ← hsame, ← hid, hfind] at hfind'
  rw [← Option.some.inj hfind'] at hencode'
  have hindex := serialize_txIndex (hencode.symm.trans hencode')
  rw [hindex, hpos'] at hpos
  omega

end

/-- **The receipts of an accepted block.**  With exactly one coinbase and different
ids every position has a committed receipt; the converse holds unless strings
collide. -/
theorem receipts_committed_iff {V : Type} {crates : Crates} {rt : Runtime V} {parent state : State}
    {block : Block} {view : BlockView} (hpos : 0 < block.index)
    (haccept : validateAndApply crates rt parent block view = .ok state) :
    (block.transactions.countP Transaction.isCoinbase = 1 ∧
        (block.transactions.map crates.txid).Nodup →
      CommittedReceipts crates block state.receipts) ∧
    (CommittedReceipts crates block state.receipts →
      (block.transactions.countP Transaction.isCoinbase = 1 ∧
        (block.transactions.map crates.txid).Nodup) ∨
      Collision crates.blake3 (receiptProofPreimages crates.blake3 state.receipts)) := by
  have hvalid := (validateAndApply_ok crates rt).mp haccept
  have hof := hvalid.receipts hpos
  have hroot := hvalid.receiptsRoot_eq hpos
  have hlength := hvalid.length_lt
  refine ⟨fun h => committed_of_distinct hof hlength hroot h.1 h.2, fun h => ?_⟩
  by_cases hcol : Collision crates.blake3 (receiptProofPreimages crates.blake3 state.receipts)
  · exact .inr hcol
  · refine .inl ⟨one_coinbase_of_committed h hof hlength (hvalid.coinbase_isSome hpos), ?_⟩
    exact distinct_of_committed h hroot hcol

/-! ### A block with two coinbases -/

def twoCoinbases : List Transaction := [unpaid "miner", unpaid "pool"]

/-- A block with two coinbases, mined on the regtest genesis. -/
def doubleBlock : Block :=
  minedBlock nonzeroCrates registryRuntime regtestConfig regtestReplay 7200 twoCoinbases

theorem accepted_mined {timestamp : UInt64} {txs : List Transaction}
    (hmine : mineable evalCrates registryRuntime regtestConfig 0
      (genesisReplay evalCrates registryRuntime regtestConfig evalGenesis) timestamp txs = true) :
    ∃ parent view state, validateAndApply nonzeroCrates registryRuntime parent
      (minedBlock nonzeroCrates registryRuntime regtestConfig regtestReplay timestamp txs) view =
        .ok state := by
  rw [← nonzeroCrates_eq, ← regtestGenesis_eq] at hmine
  have hreplay := replayBlock_mineOn _ _ _ _ _ _ nonzeroCrates_ne headerBlind_registryVm
    hasTip_regtestReplay hmine
  obtain ⟨state, hvalid, -⟩ := (replayBlock_ok _ _).mp hreplay
  exact ⟨_, _, state, (validateAndApply_ok _ _).mpr hvalid⟩

theorem receipts_committed_ahead : ∃ parent view state,
    validateAndApply nonzeroCrates registryRuntime parent aheadBlock view = .ok state ∧
      CommittedReceipts nonzeroCrates aheadBlock state.receipts := by
  obtain ⟨parent, view, state, haccept⟩ := @accepted_mined 7200 [unpaid "miner"] (by decide)
  refine ⟨parent, view, state, haccept, (receipts_committed_iff (by decide) haccept).1 ?_⟩
  exact ⟨rfl, nodup_singleton _⟩

/-- The second coinbase of an accepted block has no receipt. -/
theorem second_coinbase_without_receipt : ∃ parent view state,
    validateAndApply nonzeroCrates registryRuntime parent doubleBlock view = .ok state ∧
      0 < doubleBlock.index ∧ ¬ CommittedReceipts nonzeroCrates doubleBlock state.receipts := by
  obtain ⟨parent, view, state, haccept⟩ := @accepted_mined 7200 twoCoinbases (by decide)
  have hvalid := (validateAndApply_ok _ _).mp haccept
  have hpos : 0 < doubleBlock.index := by decide
  refine ⟨parent, view, state, haccept, hpos, fun h => ?_⟩
  have hone := one_coinbase_of_committed h (hvalid.receipts hpos) hvalid.length_lt
    (hvalid.coinbase_isSome hpos)
  exact absurd hone (by decide)

end Strangecoin
