import Strangecoin.Rollback
import Strangecoin.ReferenceCrates

/-! # Rolling back blocks and chains

Undo records are kept per transaction id and survive several blocks, but receipts are
those of the last block only: once the tip is rolled back the receipts are gone, and
every frame of an earlier block counts as successful.

The argument is an induction over the transactions of a block and then over the
blocks, outermost first: what the later steps leave of the records of the earlier ones
is what those recorded (`run_keeps`, `block_keeps`).
-/
namespace Strangecoin
open List

/-! ### What rollback can tell about a frame -/

/-- The value a transaction sends with its frame. -/
def Transaction.sentValue : Transaction → UInt64
  | .transfer _ => 0
  | .create tx => tx.endowment
  | .call tx => tx.value

/-- The frame's outcome can be told from the records: below the tip a failed frame
sent no value, and a successful call that sends value has a trail. -/
def FrameReversible (tip : Bool) (tx : Transaction) (frame : Frame) : Prop :=
  (tip = true ∨ frameSucceeds frame = true ∨ tx.sentValue = 0) ∧
    match tx, frame with
    | .call call, some (.ok result) =>
      result.status = .success → result.valueTransfers = [] → call.value = 0
    | _, _ => True

instance {tip : Bool} : ∀ {tx : Transaction} {frame : Frame},
    Decidable (FrameReversible tip tx frame)
  | .call _, some (.ok _) => inferInstanceAs (Decidable (_ ∧ (_ → _ → _)))
  | .call _, some (.error _) => inferInstanceAs (Decidable (_ ∧ True))
  | .call _, none => inferInstanceAs (Decidable (_ ∧ True))
  | .transfer _, _ => inferInstanceAs (Decidable (_ ∧ True))
  | .create _, _ => inferInstanceAs (Decidable (_ ∧ True))

variable {s : State}

section
variable {crates : Crates} {chainId : UInt32}

variable (crates chainId) in
/-- A transaction that rollback can take back, given the state before it. -/
def Reversible (tip : Bool) (s : State) (tx : Transaction) (frame : Frame) : Prop :=
  Invertible crates chainId s tx ∧ FrameReversible tip tx frame

/-- What the receipts say of a frame: at the tip its outcome, below it a success. -/
def ReceiptsTell (tip : Bool) (u : State) (txid : Digest) (frame : Frame) : Prop :=
  u.countsAsSuccess txid = frameSucceeds frame ∨ tip = false ∧ u.countsAsSuccess txid = true

theorem topLevelMove_of_zero {call : CallTx} (h : call.value = 0) : topLevelMove call = [] := by
  simp [topLevelMove, h]

variable {tip : Bool} {u : State} {frame : Frame}

/-- A call without a trail that counts as successful sent no value. -/
theorem topLevelMove_eq_nil {call : CallTx}
    (hcounts : u.countsAsSuccess (crates.txid (.call call)) = true)
    (htell : ReceiptsTell tip u (crates.txid (.call call)) frame)
    (hframe : FrameReversible tip (.call call) frame)
    (hempty : committedTrail (.call call) frame = []) : topLevelMove call = [] := by
  cases frame with
  | none => exact hempty
  | some outcome =>
    cases hsuccess : frameSucceeds (some outcome) with
    | false =>
      have htip : tip = false := by
        rcases htell with h | ⟨htip, -⟩
        · rw [hcounts, hsuccess] at h
          cases h
        · exact htip
      rcases hframe.1 with h | h | h
      · rw [htip] at h
        cases h
      · rw [hsuccess] at h
        cases h
      · exact topLevelMove_of_zero h
    | true =>
      cases outcome with
      | error e => cases hsuccess
      | ok result =>
        have hstatus : result.status = .success := by simpa [frameSucceeds] using hsuccess
        have htrail : result.valueTransfers = [] := (if_pos hstatus).symm.trans hempty
        exact topLevelMove_of_zero (hframe.2 hstatus htrail)

/-- **Rollback reverses the trail that was committed.** -/
theorem reversedTrail_eq_committed {tx : Transaction}
    (htell : ReceiptsTell tip u (crates.txid tx) frame) (hframe : FrameReversible tip tx frame)
    (hrecord : u.valueTransfersUndo[crates.txid tx]? =
      if (committedTrail tx frame).isEmpty then none else some (committedTrail tx frame)) :
    reversedTrail crates u tx = committedTrail tx frame := by
  unfold reversedTrail
  cases hcounts : u.countsAsSuccess (crates.txid tx) with
  | false =>
    have hfailed : frameSucceeds frame = false := by
      rcases htell with h | ⟨-, h⟩
      · rw [← h, hcounts]
      · rw [hcounts] at h
        cases h
    rw [if_neg Bool.false_ne_true]
    cases frame with
    | none => cases hfailed
    | some outcome => rw [committedTrail_of_failed hfailed]
  | true =>
    rw [if_pos rfl]
    cases tx with
    | transfer tx => rcases frame with _ | (_ | _) <;> simp [committedTrail]
    | create create =>
      rw [hrecord]
      cases hempty : (committedTrail (.create create) frame).isEmpty with
      | true => simp [isEmpty_iff.mp hempty]
      | false => simp
    | call call =>
      rw [hrecord]
      cases hempty : (committedTrail (.call call) frame).isEmpty with
      | false => simp
      | true =>
        rw [isEmpty_iff.mp hempty]
        exact topLevelMove_eq_nil hcounts htell hframe (isEmpty_iff.mp hempty)

theorem endowment_or_tell {create : CreateTx}
    (htell : ReceiptsTell tip u (crates.txid (.create create)) frame)
    (hframe : FrameReversible tip (.create create) frame) :
    create.endowment = 0 ∨
      u.countsAsSuccess (crates.txid (.create create)) = frameSucceeds frame := by
  rcases htell with h | ⟨htip, h⟩
  · exact .inr h
  · rcases hframe.1 with htip' | hsuccess | hzero
    · rw [htip] at htip'
      cases htip'
    · exact .inr (h.trans hsuccess.symm)
    · exact .inl hzero

/-! ### The transactions of a block -/

section
variable {V : Type} {exec : VmExecutor V} {block : Block}

variable (crates exec chainId block) in
/-- The transaction is reversible in the progress in which it is processed. -/
def ReversibleStep (tip : Bool) (p : Progress V) (e : Transaction × Nat) : Prop :=
  Reversible crates chainId tip p.state e.1 (frameOf crates exec chainId block p e.1)

instance {tip : Bool} {p : Progress V} {e : Transaction × Nat} :
    Decidable (ReversibleStep crates chainId exec block tip p e) :=
  inferInstanceAs (Decidable (_ ∧ _))

/-- Two states have the same undo records except under the ids of some transactions. -/
def SameUndoOutside (crates : Crates) (txs : List Transaction) (s t : State) : Prop :=
  ∀ id, id ∉ txs.map crates.txid → s.storageUndo[id]? = t.storageUndo[id]? ∧
    s.valueTransfersUndo[id]? = t.valueTransfersUndo[id]?

variable {es : List (Transaction × Nat)}

/-- **What a run of transactions keeps.** -/
theorem run_keeps {p p' : Progress V}
    (hrun : es.foldlM (applyTx crates exec chainId block) p = .ok p')
    (hplain : ∀ e ∈ es, e.1.isCoinbase = false) (hs : p.state.Canonical)
    (hcons : p.state.StorageConsistent crates.blake3)
    (hsteps : EachStep (applyTx crates exec chainId block)
      (ReversibleStep crates chainId exec block tip) p es) :
    p'.state.Canonical ∧ p'.state.StorageConsistent crates.blake3 ∧
      SameUndoOutside crates (es.map Prod.fst) p'.state p.state ∧
      (∀ receipt ∈ p.receipts, receipt ∈ p'.receipts) ∧
      p'.receipts.map Receipt.txid =
        p.receipts.map Receipt.txid ++ (es.map Prod.fst).map crates.txid := by
  induction es generalizing p with
  | nil =>
    obtain rfl := foldlM_nil_ok.mp hrun
    exact ⟨hs, hcons, fun _ _ => ⟨rfl, rfl⟩, fun _ h => h, by simp⟩
  | cons e es ih =>
    obtain ⟨m, hstep, hrest⟩ := foldlM_cons_ok.mp hrun
    obtain ⟨hinput, hnext⟩ := (eachStep_cons hstep).mp hsteps
    rcases applyTx_ok hstep with ⟨hcb, -⟩ | ⟨-, receipt, hreceipts, htxid, -, heffect⟩
    · rw [hplain e mem_cons_self] at hcb
      cases hcb
    · obtain ⟨hmc, hmcons, hmundo, -⟩ := effect_invariants heffect hs hcons hinput.1
      obtain ⟨hc, hcs, hundo, hmem, hids⟩ :=
        ih hrest (fun e' he' => hplain e' (mem_cons_of_mem e he')) hmc hmcons hnext
      refine ⟨hc, hcs, fun id hid => ?_, fun r hr => ?_, ?_⟩
      · rw [map_cons, map_cons, mem_cons, not_or] at hid
        obtain ⟨h₁, h₂⟩ := hundo id hid.2
        obtain ⟨h₃, h₄⟩ := hmundo id hid.1
        exact ⟨h₁.trans h₃, h₂.trans h₄⟩
      · exact hmem r (hreceipts ▸ mem_append_left _ hr)
      · rw [hids, hreceipts]
        simp [htxid]

/-- What the receipts of a block tell while it is rolled back. -/
def ReceiptsOf (tip : Bool) (u : State) (receipts : List Receipt) : Prop :=
  (tip = true → ∀ receipt ∈ receipts,
    u.countsAsSuccess receipt.txid = decide (receipt.status = .success)) ∧
  (tip = false → ∀ id, u.countsAsSuccess id = true)

variable {receipts : List Receipt}

theorem ReceiptsOf.tell {receipt : Receipt} (h : ReceiptsOf tip u receipts)
    (hmem : receipt ∈ receipts) (hreports : receipt.Reports frame) :
    ReceiptsTell tip u receipt.txid frame := by
  cases tip with
  | false => exact .inr ⟨rfl, h.2 rfl _⟩
  | true =>
    refine .inl ?_
    rw [h.1 rfl receipt hmem, Bool.eq_iff_iff, decide_eq_true_iff]
    exact hreports

theorem countsAsSuccess_congr {t : State} (h : s.receipts = t.receipts) (id : Digest) :
    s.countsAsSuccess id = t.countsAsSuccess id := by
  rw [State.countsAsSuccess, h, State.countsAsSuccess]

theorem ReceiptsOf.congr {t : State} (h : ReceiptsOf tip u receipts)
    (hreceipts : t.receipts = u.receipts) : ReceiptsOf tip t receipts := by
  refine ⟨fun htip receipt hmem => ?_, fun htip id => ?_⟩
  · rw [countsAsSuccess_congr hreceipts]
    exact h.1 htip receipt hmem
  · rw [countsAsSuccess_congr hreceipts]
    exact h.2 htip id

/-- No undo record stands under the ids of the transactions. -/
def UndoFresh (crates : Crates) (txs : List Transaction) (s : State) : Prop :=
  ∀ tx ∈ txs, s.storageUndo[crates.txid tx]? = none ∧ s.valueTransfersUndo[crates.txid tx]? = none

/-- The records under the ids of the transactions are those of another state. -/
def SameUndoOn (crates : Crates) (txs : List Transaction) (s t : State) : Prop :=
  ∀ tx ∈ txs, s.storageUndo[crates.txid tx]? = t.storageUndo[crates.txid tx]? ∧
    s.valueTransfersUndo[crates.txid tx]? = t.valueTransfersUndo[crates.txid tx]?

/-- **One transaction of a block is taken back.** -/
theorem unapply_step {p m : Progress V} {e : Transaction × Nat}
    (hstep : applyTx crates exec chainId block p e = .ok m) (hplain : e.1.isCoinbase = false)
    (hs : p.state.Canonical) (hcons : p.state.StorageConsistent crates.blake3)
    (hreversible : ReversibleStep crates chainId exec block tip p e)
    (hfresh : UndoFresh crates [e.1] p.state) (hsame : u.Same m.state)
    (hundo : SameUndoOn crates [e.1] u m.state) (hreceipts : ReceiptsOf tip u receipts)
    (hmem : ∀ receipt ∈ m.receipts, receipt ∈ receipts) :
    ∃ t, unapplyTx crates chainId u e.1 = .ok t ∧ t.Same p.state ∧ t.receipts = u.receipts ∧
      SameUndoExcept (crates.txid e.1) t u := by
  obtain ⟨hinput, hframe⟩ := hreversible
  rcases applyTx_ok hstep with ⟨hcb, -⟩ | ⟨-, receipt, hnew, htxid, hreports, heffect⟩
  · rw [hplain] at hcb
    cases hcb
  · obtain ⟨hsu, hvt⟩ := hfresh e.1 mem_cons_self
    obtain ⟨husu, huvt⟩ := hundo e.1 mem_cons_self
    have htell := hreceipts.tell (hmem receipt (hnew ▸ mem_append_right _ mem_cons_self))
      hreports
    rw [htxid] at htell
    obtain ⟨-, -, -, htrail⟩ := effect_invariants heffect hs hcons hinput
    rw [hvt] at htrail
    refine unapplyTx_of_effect heffect hs hcons hinput hsu hsame ?_
      (reversedTrail_eq_committed htell hframe (huvt.trans htrail)) (.inl husu)
    intro create hcreate
    rw [hcreate] at htell hframe ⊢
    exact endowment_or_tell htell hframe

/-- **The transactions of a block are taken back**, the last first. -/
theorem unapply_run {p p' : Progress V}
    (hrun : es.foldlM (applyTx crates exec chainId block) p = .ok p')
    (hplain : ∀ e ∈ es, e.1.isCoinbase = false) (hs : p.state.Canonical)
    (hcons : p.state.StorageConsistent crates.blake3)
    (hsteps : EachStep (applyTx crates exec chainId block)
      (ReversibleStep crates chainId exec block tip) p es)
    (hnodup : ((es.map Prod.fst).map crates.txid).Nodup)
    (hfresh : UndoFresh crates (es.map Prod.fst) p.state) (hsame : u.Same p'.state)
    (hundo : SameUndoOn crates (es.map Prod.fst) u p'.state)
    (hreceipts : ReceiptsOf tip u p'.receipts) :
    ∃ t, (es.map Prod.fst).reverse.foldlM (unapplyTx crates chainId) u = .ok t ∧
      t.Same p.state ∧ t.receipts = u.receipts ∧
      SameUndoOutside crates (es.map Prod.fst) t u := by
  induction es generalizing p with
  | nil =>
    obtain rfl := foldlM_nil_ok.mp hrun
    exact ⟨u, rfl, hsame, rfl, fun _ _ => ⟨rfl, rfl⟩⟩
  | cons e es ih =>
    obtain ⟨m, hstep, hrest⟩ := foldlM_cons_ok.mp hrun
    obtain ⟨hreversible, hnext⟩ := (eachStep_cons hstep).mp hsteps
    rw [map_cons, map_cons, nodup_cons] at hnodup
    have hplain' : ∀ e' ∈ es, e'.1.isCoinbase = false :=
      fun e' he' => hplain e' (mem_cons_of_mem e he')
    obtain ⟨hmc, hmcons, hmundo⟩ : m.state.Canonical ∧
        m.state.StorageConsistent crates.blake3 ∧ SameUndoExcept (crates.txid e.1) m.state p.state := by
      rcases applyTx_ok hstep with ⟨hcb, -⟩ | ⟨-, receipt, -, -, -, heffect⟩
      · rw [hplain e mem_cons_self] at hcb
        cases hcb
      · obtain ⟨h₁, h₂, h₃, -⟩ := effect_invariants heffect hs hcons hreversible.1
        exact ⟨h₁, h₂, h₃⟩
    have hne : ∀ tx ∈ es.map Prod.fst, crates.txid tx ≠ crates.txid e.1 := by
      intro tx htx h
      exact hnodup.1 (h ▸ mem_map_of_mem htx)
    have hfresh' : UndoFresh crates (es.map Prod.fst) m.state := by
      intro tx htx
      obtain ⟨h₁, h₂⟩ := hmundo _ (hne tx htx)
      obtain ⟨h₃, h₄⟩ := hfresh tx (mem_cons_of_mem _ htx)
      exact ⟨h₁.trans h₃, h₂.trans h₄⟩
    obtain ⟨t₁, ht₁, hsame₁, hreceipts₁, hundo₁⟩ := ih hrest hplain' hmc hmcons hnext hnodup.2
      hfresh' (fun tx htx => hundo tx (mem_cons_of_mem _ htx))
    obtain ⟨-, -, hkept, hmem, -⟩ := run_keeps hrest hplain' hmc hmcons hnext
    have hundo₂ : SameUndoOn crates [e.1] t₁ m.state := by
      intro tx htx
      obtain rfl := mem_singleton.mp htx
      obtain ⟨h₁, h₂⟩ := hundo₁ _ hnodup.1
      obtain ⟨h₃, h₄⟩ := hundo e.1 mem_cons_self
      obtain ⟨h₅, h₆⟩ := hkept _ hnodup.1
      exact ⟨h₁.trans (h₃.trans h₅), h₂.trans (h₄.trans h₆)⟩
    obtain ⟨t, ht, htsame, htreceipts, htundo⟩ := unapply_step hstep
      (hplain e mem_cons_self) hs hcons hreversible
      (fun tx htx => hfresh tx (by simp_all)) hsame₁ hundo₂ (hreceipts.congr hreceipts₁) hmem
    refine ⟨t, ?_, htsame, htreceipts.trans hreceipts₁, fun id hid => ?_⟩
    · rw [map_cons, reverse_cons]
      exact foldlM_concat_ok.mpr ⟨t₁, ht₁, ht⟩
    · rw [map_cons, map_cons, mem_cons, not_or] at hid
      obtain ⟨h₁, h₂⟩ := htundo id hid.1
      obtain ⟨h₃, h₄⟩ := hundo₁ id hid.2
      exact ⟨h₁.trans h₃, h₂.trans h₄⟩

/-! ### Blocks -/

/-- Exactly one coinbase, placed first. -/
def Block.CoinbaseFirst (block : Block) : Prop :=
  ∃ cb rest, block.transactions = .transfer cb :: rest ∧ cb.isCoinbase = true ∧
    ∀ tx ∈ rest, tx.isCoinbase = false

variable {r : State × Option V}

/-- A block with its coinbase first: the coinbase is credited, the others follow. -/
theorem applyBlockInner_coinbaseFirst {vm : Option V} {cb : TransferTx} {rest : List Transaction}
    (hindex : 0 < block.index) (htxs : block.transactions = .transfer cb :: rest)
    (hflag : cb.isCoinbase = true) (h : applyBlockInner crates exec s block chainId vm = .ok r) :
    ∃ s₁ p, State.credit { s with receipts := [] } cb.receiver cb.amount = .ok s₁ ∧
      (rest.zipIdx 1).foldlM (applyTx crates exec chainId block)
        ⟨s₁, vm, [transferReceipt crates (.transfer cb) block 0 []]⟩ = .ok p ∧
      r = ({ p.state with receipts := p.receipts }, p.vm) ∧
      ∀ P, AtEachTx crates exec chainId block s vm P →
        EachStep (applyTx crates exec chainId block) P
          ⟨s₁, vm, [transferReceipt crates (.transfer cb) block 0 []]⟩ (rest.zipIdx 1) := by
  obtain ⟨-, cb', i, s₁, p, hcb, hle, hcredit, hrun, rfl⟩ := (applyBlockInner_ok hindex).mp h
  have hfirst : coinbaseOf block = some (.transfer cb, 0) := by
    rw [coinbaseOf, htxs, zipIdx_cons]
    exact find?_cons_of_pos hflag
  obtain ⟨h₁, rfl⟩ := Prod.mk.inj (Option.some.inj (hcb.symm.trans hfirst))
  obtain rfl := Transaction.transfer.inj h₁
  have hskip : ∀ q : Progress V,
      applyTx crates exec chainId block q (.transfer cb', 0) = .ok q := fun q => if_pos hflag
  rw [htxs, zipIdx_cons] at hrun
  obtain ⟨m, hm, hrest⟩ := foldlM_cons_ok.mp hrun
  obtain rfl := Except.ok.inj ((hskip _).symm.trans hm)
  refine ⟨s₁, p, hcredit, hrest, rfl, fun P hP => ?_⟩
  have heach := hP _ (applyCoinbase_ok.mpr ⟨cb', 0, s₁, hcb, hle, hcredit, rfl⟩)
  rw [htxs, zipIdx_cons] at heach
  exact ((eachStep_cons (hskip _)).mp heach).2

/-- With distinct ids a receipt is found under its own. -/
theorem find?_receipt {receipt : Receipt} (hnodup : (receipts.map Receipt.txid).Nodup)
    (hmem : receipt ∈ receipts) :
    receipts.find? (fun r => r.txid == receipt.txid) = some receipt := by
  induction receipts with
  | nil => cases hmem
  | cons r receipts ih =>
    rw [map_cons, nodup_cons] at hnodup
    rcases mem_cons.mp hmem with rfl | hmem
    · exact find?_cons_of_pos (by simp)
    · have hne : r.txid ≠ receipt.txid := fun h => hnodup.1 (h ▸ mem_map_of_mem hmem)
      rw [find?_cons_of_neg (by simpa using hne)]
      exact ih hnodup.2 hmem

theorem receiptsOf_tip (h : (u.receipts.map Receipt.txid).Nodup) :
    ReceiptsOf true u u.receipts := by
  refine ⟨fun _ receipt hmem => ?_, nofun⟩
  rw [State.countsAsSuccess, find?_receipt h hmem]
  rfl

theorem receiptsOf_below (h : u.receipts = []) (receipts : List Receipt) :
    ReceiptsOf false u receipts := by
  refine ⟨nofun, fun _ id => ?_⟩
  rw [State.countsAsSuccess, h]
  rfl

/-- The coinbase credit, and that it is taken back. -/
theorem credit_keeps {s₁ : State} {cb : TransferTx} (hs : s.Canonical)
    (hcons : s.StorageConsistent crates.blake3)
    (h : State.credit { s with receipts := [] } cb.receiver cb.amount = .ok s₁) :
    s₁.Canonical ∧ s₁.StorageConsistent crates.blake3 ∧ s₁.storageUndo = s.storageUndo ∧
      s₁.valueTransfersUndo = s.valueTransfersUndo ∧
      debitFn s₁.getBalance cb.receiver cb.amount = some s.getBalance ∧
      s₁.getNonce = s.getNonce ∧ s₁.kind = s.kind ∧ s₁.contractStorage = s.contractStorage := by
  have hstart : State.Canonical { s with receipts := [] } := hs.of_balances rfl
  obtain ⟨hfn, hs₁, hviews⟩ :=
    (actsAs_credit TransferTx.receiver TransferTx.amount cb).effect hstart h
  have hkind : s₁.kind = s.kind := kind_views hviews
  have hstorage : s₁.contractStorage = s.contractStorage := storage_views hviews
  exact ⟨hs₁, hcons.congr hkind hstorage, undo_views hviews,
    trail_views hviews, creditFn_iff_debitFn.mp hfn,
    nonce_views hviews, hkind, hstorage⟩

/-- **What a block keeps.** -/
theorem block_keeps {vm : Option V} (hindex : 0 < block.index) (hfirst : block.CoinbaseFirst)
    (hok : applyBlockInner crates exec s block chainId vm = .ok r) (hs : s.Canonical)
    (hcons : s.StorageConsistent crates.blake3) (hsteps : AtEachTx crates exec chainId block s vm
      (ReversibleStep crates chainId exec block tip)) :
    r.1.Canonical ∧ r.1.StorageConsistent crates.blake3 ∧
      SameUndoOutside crates block.transactions r.1 s := by
  obtain ⟨cb, rest, htxs, hflag, hrest⟩ := hfirst
  obtain ⟨s₁, p, hcredit, hrun, rfl, heach⟩ := applyBlockInner_coinbaseFirst hindex htxs hflag hok
  obtain ⟨hs₁, hs₁cons, hsu, hvt, -⟩ := credit_keeps hs hcons hcredit
  have hplain : ∀ e ∈ rest.zipIdx 1, e.1.isCoinbase = false :=
    fun e he => hrest e.1 (fst_mem_of_mem_zipIdx he)
  obtain ⟨hp, hpcons, hundo, -, -⟩ := run_keeps hrun hplain hs₁ hs₁cons (heach _ hsteps)
  rw [zipIdx_map_fst] at hundo
  refine ⟨hp.of_balances rfl, hpcons.congr rfl rfl, fun id hid => ?_⟩
  rw [htxs, map_cons, mem_cons, not_or] at hid
  obtain ⟨h₁, h₂⟩ := hundo id hid.2
  exact ⟨h₁.trans (by rw [hsu]), h₂.trans (by rw [hvt])⟩

/-- **A block is taken back.**  At the tip the receipts are those of the block,
below it there are none. -/
theorem unapplyBlock_of_apply {vm : Option V} (hindex : 0 < block.index)
    (hfirst : block.CoinbaseFirst) (hok : applyBlockInner crates exec s block chainId vm = .ok r)
    (hs : s.Canonical) (hcons : s.StorageConsistent crates.blake3)
    (hsteps : AtEachTx crates exec chainId block s vm
      (ReversibleStep crates chainId exec block tip))
    (hnodup : (block.transactions.map crates.txid).Nodup)
    (hfresh : UndoFresh crates block.transactions s) (hsame : u.Same r.1)
    (hundo : SameUndoOn crates block.transactions u r.1)
    (hreceipts : u.receipts = if tip then r.1.receipts else []) :
    ∃ t, unapplyBlock crates u block chainId = .ok t ∧ t.Same s ∧ t.receipts = [] ∧
      SameUndoOutside crates block.transactions t u := by
  obtain ⟨cb, rest, htxs, hflag, hrest⟩ := hfirst
  obtain ⟨s₁, p, hcredit, hrun, rfl, heach⟩ := applyBlockInner_coinbaseFirst hindex htxs hflag hok
  obtain ⟨hs₁, hs₁cons, hsu, hvt, hdebit, hnonce, hkind, hstorage⟩ := credit_keeps hs hcons hcredit
  have hplain : ∀ e ∈ rest.zipIdx 1, e.1.isCoinbase = false :=
    fun e he => hrest e.1 (fst_mem_of_mem_zipIdx he)
  have hids := (run_keeps hrun hplain hs₁ hs₁cons (heach _ hsteps)).2.2.2.2
  rw [htxs, map_cons] at hnodup
  have hreceipts' : ReceiptsOf tip u p.receipts := by
    cases tip with
    | false => exact receiptsOf_below hreceipts _
    | true =>
      have heq : u.receipts = p.receipts := hreceipts
      rw [← heq]
      refine receiptsOf_tip ?_
      rw [heq, hids, zipIdx_map_fst]
      exact hnodup
  have hmap := zipIdx_map_fst 1 rest
  obtain ⟨t₁, ht₁, hsame₁, -, hundo₁⟩ := unapply_run hrun hplain hs₁ hs₁cons (heach _ hsteps)
    (by rw [hmap]; exact (nodup_cons.mp hnodup).2)
    (by
      rw [hmap]
      intro tx htx
      change s₁.storageUndo[_]? = none ∧ s₁.valueTransfersUndo[_]? = none
      rw [hsu, hvt]
      exact hfresh tx (htxs ▸ mem_cons_of_mem _ htx))
    hsame
    (by
      rw [hmap]
      exact fun tx htx => hundo tx (htxs ▸ mem_cons_of_mem _ htx))
    hreceipts'
  rw [hmap] at ht₁ hundo₁
  -- the coinbase last
  obtain ⟨hb, hn, hk⟩ := State.views_of_balances hsame₁.1
  have hdebit₁ : debitFn t₁.getBalance cb.receiver cb.amount = some s.getBalance := by
    rw [hb]
    exact hdebit
  obtain ⟨t, ht, htc, htviews⟩ :=
    (actsAs_unapplyCoinbase hflag).apply (hs₁.of_balances hsame₁.1) hdebit₁
  have hne : block.index ≠ 0 := UInt64.pos_iff_ne_zero.mp hindex
  refine ⟨{ t with receipts := [] }, ?_, ⟨?_, ?_⟩, rfl, fun id hid => ?_⟩
  · unfold unapplyBlock
    rw [if_neg hne, htxs, reverse_cons]
    exact bind_eq_ok.mpr ⟨t, foldlM_concat_ok.mpr ⟨t₁, ht₁, ht⟩, rfl⟩
  · change t.balances = s.balances
    exact State.balances_eq_of_views htc hs (balance_views htviews)
      ((nonce_views htviews).trans (hn.trans hnonce))
      ((kind_views htviews).trans (hk.trans hkind))
  · exact (storage_views htviews).trans (hsame₁.2.trans hstorage)
  · rw [htxs, map_cons, mem_cons, not_or] at hid
    have h₁ : t.storageUndo = t₁.storageUndo := undo_views htviews
    have h₂ : t.valueTransfersUndo = t₁.valueTransfersUndo :=
      trail_views htviews
    change t.storageUndo[id]? = _ ∧ t.valueTransfersUndo[id]? = _
    rw [h₁, h₂]
    exact hundo₁ id hid.2

/-! ### Chains -/

variable (crates chainId exec) in
/-- Blocks applied one after another. -/
def applyChain (r : State × V) (blocks : List Block) : Except CoreError (State × V) :=
  blocks.foldlM (fun r block => applyBlockWithVm crates exec r.1 block chainId r.2) r

variable (crates chainId) in
/-- Blocks rolled back one after another, the last first. -/
def unapplyChain (s : State) (blocks : List Block) : Except CoreError State :=
  blocks.reverse.foldlM (fun s block => unapplyBlock crates s block chainId) s

variable (crates chainId exec) in
/-- Every transaction is reversible when it is processed; the last block is the tip. -/
def ChainReversible : State × V → List Block → Prop
  | _, [] => True
  | r, block :: blocks =>
    AtEachTx crates exec chainId block r.1 (some r.2)
      (ReversibleStep crates chainId exec block blocks.isEmpty) ∧
    ∀ r', applyBlockWithVm crates exec r.1 block chainId r.2 = .ok r' → ChainReversible r' blocks

instance ChainReversible.decidable : ∀ (r : State × V) (blocks : List Block),
    Decidable (ChainReversible crates chainId exec r blocks)
  | _, [] => .isTrue trivial
  | _, _ :: blocks =>
    have := fun r => ChainReversible.decidable r blocks
    inferInstanceAs (Decidable (_ ∧ _))

/-- Blocks after genesis, each with its one coinbase first. -/
def WellFormedBlocks (blocks : List Block) : Prop :=
  ∀ block ∈ blocks, 0 < block.index ∧ block.CoinbaseFirst

/-- The transactions of a sequence of blocks. -/
def allTransactions (blocks : List Block) : List Transaction := blocks.flatMap Block.transactions

variable (crates) in
/-- A state in which the ids are unused, accounts and storage being in order. -/
structure Ready (blocks : List Block) (s : State) : Prop where
  canonical : s.Canonical
  consistent : s.StorageConsistent crates.blake3
  fresh : UndoFresh crates (allTransactions blocks) s

/-- A block leaves the state ready for the blocks after it. -/
theorem Ready.step {vm : V} {r : State × V} {blocks : List Block}
    (hready : Ready crates (block :: blocks) s) (hindex : 0 < block.index)
    (hfirst : block.CoinbaseFirst) (hok : applyBlockWithVm crates exec s block chainId vm = .ok r)
    (hsteps : AtEachTx crates exec chainId block s (some vm)
      (ReversibleStep crates chainId exec block tip))
    (hnodup : ((allTransactions (block :: blocks)).map crates.txid).Nodup) :
    Ready crates blocks r.1 ∧ SameUndoOutside crates block.transactions r.1 s := by
  obtain ⟨q, hq, hr⟩ := bind_eq_ok.mp hok
  obtain rfl := Except.ok.inj hr
  obtain ⟨hc, hcons, hundo⟩ := block_keeps hindex hfirst hq hready.canonical hready.consistent hsteps
  refine ⟨⟨hc, hcons, fun tx htx => ?_⟩, hundo⟩
  rw [allTransactions, flatMap_cons, map_append] at hnodup
  have hout : crates.txid tx ∉ block.transactions.map crates.txid := fun hmem =>
    disjoint_of_nodup_append hnodup hmem (mem_map_of_mem htx)
  obtain ⟨h₁, h₂⟩ := hundo _ hout
  obtain ⟨h₃, h₄⟩ := hready.fresh tx (mem_append_right _ htx)
  exact ⟨h₁.trans h₃, h₂.trans h₄⟩

/-- **A chain is taken back**, and the records of other ids stay. -/
theorem chain_rollback {r r' : State × V} {blocks : List Block}
    (hready : Ready crates blocks r.1) (hblocks : WellFormedBlocks blocks)
    (hnodup : ((allTransactions blocks).map crates.txid).Nodup)
    (hrun : applyChain crates chainId exec r blocks = .ok r')
    (hrev : ChainReversible crates chainId exec r blocks) :
    ∃ t, unapplyChain crates chainId r'.1 blocks = .ok t ∧ t.Same r.1 ∧
      SameUndoOutside crates (allTransactions blocks) t r.1 ∧
      t.receipts = if blocks.isEmpty then r.1.receipts else [] := by
  induction blocks generalizing r with
  | nil =>
    obtain rfl := foldlM_nil_ok.mp hrun
    exact ⟨r.1, rfl, ⟨rfl, rfl⟩, fun _ _ => ⟨rfl, rfl⟩, rfl⟩
  | cons block blocks ih =>
    obtain ⟨m, hm, hrest⟩ := foldlM_cons_ok.mp hrun
    obtain ⟨hindex, hfirst⟩ := hblocks block mem_cons_self
    obtain ⟨hready', hkept⟩ := hready.step hindex hfirst hm hrev.1 hnodup
    have hsplit := hnodup
    rw [allTransactions, flatMap_cons, map_append] at hsplit
    obtain ⟨t₁, ht₁, hsame₁, hundo₁, hreceipts₁⟩ := ih hready'
      (fun b hb => hblocks b (mem_cons_of_mem _ hb)) (List.Nodup.of_append_right hsplit) hrest
      (hrev.2 m hm)
    have hundo₂ : SameUndoOn crates block.transactions t₁ m.1 := fun tx htx =>
      hundo₁ _ fun hmem => disjoint_of_nodup_append hsplit (mem_map_of_mem htx) hmem
    obtain ⟨q, hq, hr⟩ := bind_eq_ok.mp hm
    obtain rfl := Except.ok.inj hr
    obtain ⟨t, ht, hsame, hreceipts, hundo⟩ := unapplyBlock_of_apply hindex hfirst hq
      hready.canonical hready.consistent hrev.1 (List.Nodup.of_append_left hsplit)
      (fun tx htx => hready.fresh tx (mem_append_left _ htx)) hsame₁ hundo₂ hreceipts₁
    refine ⟨t, ?_, hsame, fun id hid => ?_, hreceipts⟩
    · unfold unapplyChain at ht₁ ⊢
      rw [reverse_cons]
      exact foldlM_concat_ok.mpr ⟨t₁, ht₁, ht⟩
    · rw [allTransactions, flatMap_cons, map_append, mem_append, not_or] at hid
      obtain ⟨h₁, h₂⟩ := hundo id hid.1
      obtain ⟨h₃, h₄⟩ := hundo₁ id hid.2
      obtain ⟨h₅, h₆⟩ := hkept id hid.1
      exact ⟨h₁.trans (h₃.trans h₅), h₂.trans (h₄.trans h₆)⟩

/-- The state after some of the blocks is ready for the others, which are still
reversible. -/
theorem Ready.run {r q : State × V} {before rest : List Block}
    (hready : Ready crates (before ++ rest) r.1) (hblocks : WellFormedBlocks (before ++ rest))
    (hnodup : ((allTransactions (before ++ rest)).map crates.txid).Nodup)
    (hrev : ChainReversible crates chainId exec r (before ++ rest))
    (hrun : applyChain crates chainId exec r before = .ok q) :
    Ready crates rest q.1 ∧ ChainReversible crates chainId exec q rest ∧
      ((allTransactions rest).map crates.txid).Nodup := by
  induction before generalizing r with
  | nil =>
    obtain rfl := foldlM_nil_ok.mp hrun
    exact ⟨hready, hrev, hnodup⟩
  | cons block before ih =>
    obtain ⟨m, hm, hrest⟩ := foldlM_cons_ok.mp hrun
    obtain ⟨hindex, hfirst⟩ := hblocks block mem_cons_self
    have hready' := (hready.step hindex hfirst hm hrev.1 hnodup).1
    have hsplit := hnodup
    rw [cons_append, allTransactions, flatMap_cons, map_append] at hsplit
    exact ih hready' (fun b hb => hblocks b (mem_cons_of_mem _ hb))
      (List.Nodup.of_append_right hsplit) (hrev.2 m hm) hrest

/-- **Chained rollback.**  In a sequence of accepted blocks whose transactions are all
reversible when they are processed, rolling back any number of blocks from the end
succeeds and restores the state that preceded them. -/
theorem unapplyChain_of_reversible (crates : Crates) (exec : VmExecutor V) (chainId : UInt32)
    (s : State) (vm : V) (blocks : List Block) (r : State × V) (hs : s.Canonical)
    (hblocks : WellFormedBlocks blocks)
    (hnodup : ((allTransactions blocks).map crates.txid).Nodup)
    (hrun : applyChain crates chainId exec (s, vm) blocks = .ok r)
    (hcons : s.StorageConsistent crates.blake3)
    (hfresh : UndoFresh crates (allTransactions blocks) s)
    (hrev : ChainReversible crates chainId exec (s, vm) blocks) :
    ∀ before rest q, blocks = before ++ rest →
      applyChain crates chainId exec (s, vm) before = .ok q →
      ∃ t, unapplyChain crates chainId r.1 rest = .ok t ∧ t.Same q.1 := by
  rintro before rest q rfl hbefore
  obtain ⟨hready, hrev', hnodup'⟩ := Ready.run (r := (s, vm)) ⟨hs, hcons, hfresh⟩ hblocks hnodup
    hrev hbefore
  obtain ⟨q', hq', hrest⟩ := foldlM_append_ok.mp hrun
  obtain rfl := Except.ok.inj (hq'.symm.trans hbefore)
  obtain ⟨t, ht, hsame, -⟩ := chain_rollback hready
    (fun b hb => hblocks b (mem_append_right _ hb)) hnodup' hrest hrev'
  exact ⟨t, ht, hsame⟩

end

end

/-! ### Two chains -/

/-- No contract was ever deployed. -/
structure State.Untouched (s : State) : Prop where
  kind : s.kind = fun _ => none
  storage : s.contractStorage = ∅
  storageUndo : s.storageUndo = ∅
  valueTransfersUndo : s.valueTransfersUndo = ∅

/-- A regtest block with a coinbase worth nothing and one more transaction. -/
def oneTxBlock (index : UInt64) (miner : String) (tx : Transaction) : Block :=
  .ofTransactions index [.transfer (.reward CHAIN_ID_REGTEST miner 0), tx]

theorem oneTxBlock_wellFormed {index : UInt64} {miner : String} {tx : Transaction}
    (hindex : 0 < index) (htx : tx.isCoinbase = false) :
    0 < (oneTxBlock index miner tx).index ∧ (oneTxBlock index miner tx).CoinbaseFirst :=
  ⟨hindex, _, _, rfl, rfl, by simpa using htx⟩

theorem State.Untouched.setBalance (s : State) (a : String) (b : UInt64)
    (h : s.Canonical ∧ s.Untouched) :
    (s.setBalance a b).Canonical ∧ (s.setBalance a b).Untouched := by
  have hviews := h.1.views_setBalance a b
  refine ⟨h.1.setBalance a b, ?_, ?_, ?_, ?_⟩
  · exact (kind_views hviews).trans h.2.kind
  · exact (storage_views hviews).trans h.2.storage
  · exact (undo_views hviews).trans h.2.storageUndo
  · exact (trail_views hviews).trans h.2.valueTransfersUndo

theorem State.untouched_funded (accounts : List (String × UInt64)) :
    (State.funded accounts).Canonical ∧ (State.funded accounts).Untouched := by
  refine funded_induction ⟨canonical_new, ?_, rfl, rfl, rfl⟩ Untouched.setBalance accounts
  funext a
  simp [State.kind, State.account, State.new]

theorem State.Untouched.ready (h : s.Canonical ∧ s.Untouched) (crates : Crates)
    (blocks : List Block) : Ready crates blocks s := by
  refine ⟨h.1, ⟨?_, ?_⟩, ?_⟩
  · intro a m hm
    rw [h.2.storage] at hm
    simp at hm
  · intro a k hk
    rw [h.2.kind] at hk
    cases hk
  · intro tx _
    rw [h.2.storageUndo, h.2.valueTransfersUndo]
    simp

/-- A deployment and then a call that sends value to the new contract roll back. -/
theorem unapplyChain_deploy_call :
    ∃ (blocks : List Block) (r : State × Unit) (t : State),
      applyChain referenceCrates CHAIN_ID_REGTEST payableVm (.funded [("alice", 10)], ()) blocks =
        .ok r ∧
      unapplyChain referenceCrates CHAIN_ID_REGTEST r.1 blocks = .ok t ∧
      t.Same (.funded [("alice", 10)]) := by
  let blocks := [oneTxBlock 1 "miner" (.deployment "alice" 4 1),
    oneTxBlock 2 "miner2" (.payableCall "alice" firstContract 3 2)]
  have hrun : (applyChain referenceCrates CHAIN_ID_REGTEST payableVm (.funded [("alice", 10)], ())
      blocks).isOk = true := by
    rw [referenceCrates_eq]
    decide +kernel
  obtain ⟨r, hr⟩ := isOk_iff.mp hrun
  have hblocks : WellFormedBlocks blocks := by
    intro block hmem
    rcases mem_cons.mp hmem with rfl | hmem
    · exact oneTxBlock_wellFormed (by decide) rfl
    · obtain rfl := mem_singleton.mp hmem
      exact oneTxBlock_wellFormed (by decide) rfl
  have hready := State.Untouched.ready (State.untouched_funded [("alice", 10)]) referenceCrates blocks
  obtain ⟨t, ht⟩ := unapplyChain_of_reversible referenceCrates payableVm CHAIN_ID_REGTEST
    (.funded [("alice", 10)]) () blocks r hready.canonical hblocks (by rw [referenceCrates_eq]; decide +kernel) hr
    hready.consistent hready.fresh (by rw [referenceCrates_eq]; decide +kernel) [] blocks _ rfl rfl
  exact ⟨blocks, r, t, hr, ht⟩

/-- A call of an earlier block that failed is taken for a success once the tip is rolled
back: the contract is asked for 5 coins that it never received. -/
theorem unapplyChain_failed_call :
    ¬ ∀ (blocks : List Block) (r : State × Unit), WellFormedBlocks blocks →
      ((allTransactions blocks).map referenceCrates.txid).Nodup →
      applyChain referenceCrates CHAIN_ID_REGTEST revertingVm (.funded [("alice", 10)], ()) blocks =
        .ok r →
      ∃ t, unapplyChain referenceCrates CHAIN_ID_REGTEST r.1 blocks = .ok t ∧
        t.Same (.funded [("alice", 10)]) := by
  intro h
  let blocks := [oneTxBlock 1 "miner" (.deployment "alice" 4 1),
    oneTxBlock 2 "miner2" (.payableCall "alice" firstContract 5 2),
    .ofTransactions 3 [.transfer (.reward CHAIN_ID_REGTEST "miner3" 0)]]
  have hrun : (applyChain referenceCrates CHAIN_ID_REGTEST revertingVm
      (.funded [("alice", 10)], ()) blocks).isOk = true := by
    rw [referenceCrates_eq]
    decide +kernel
  obtain ⟨r, hr⟩ := isOk_iff.mp hrun
  have hblocks : WellFormedBlocks blocks := by
    intro block hmem
    rcases mem_cons.mp hmem with rfl | hmem
    · exact oneTxBlock_wellFormed (by decide) rfl
    rcases mem_cons.mp hmem with rfl | hmem
    · exact oneTxBlock_wellFormed (by decide) rfl
    obtain rfl := mem_singleton.mp hmem
    exact ⟨by decide, _, _, rfl, rfl, by simp⟩
  obtain ⟨t, ht, -⟩ := h blocks r hblocks (by rw [referenceCrates_eq]; decide +kernel) hr
  have hfail : (applyChain referenceCrates CHAIN_ID_REGTEST revertingVm
      (.funded [("alice", 10)], ()) blocks >>= fun r =>
        unapplyChain referenceCrates CHAIN_ID_REGTEST r.1 blocks).isOk = false := by
    rw [referenceCrates_eq]
    decide +kernel
  rw [hr] at hfail
  change (unapplyChain referenceCrates CHAIN_ID_REGTEST r.1 blocks).isOk = false at hfail
  rw [ht] at hfail
  cases hfail

end Strangecoin
