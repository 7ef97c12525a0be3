import Strangecoin.LedgerMoves
import Strangecoin.ReferenceCrates

/-! # Round trips of transfer blocks

Applying a block credits the first coinbase **before** the loop and passes over
every coinbase inside it; rolling back walks the list backwards and takes back
every coinbase **where it stands**.  Since single steps are inverse to each other,
rolling back is the inverse of applying the transactions *as listed*, each coinbase
credited at its place (`listedFn`).
-/
namespace Strangecoin
open List

/-! ### Transfers as listed -/

/-- A transfer or a coinbase applied at its place. -/
def listedFn (f : String → UInt64) (tx : TransferTx) : Option (String → UInt64) :=
  if tx.isCoinbase then creditFn f tx.receiver tx.amount else moveFn f tx.move

/-- A transfer or a coinbase taken back. -/
def unlistedFn (f : String → UInt64) (tx : TransferTx) : Option (String → UInt64) :=
  if tx.isCoinbase then debitFn f tx.receiver tx.amount else unmoveFn f tx.move

theorem listedFn_iff_unlistedFn (f g : String → UInt64) (tx : TransferTx) :
    listedFn f tx = some g ↔ unlistedFn g tx = some f := by
  unfold listedFn unlistedFn
  split
  · exact creditFn_iff_debitFn
  · exact moveFn_iff_unmoveFn

/-- What a credit adds to each balance. -/
def creditDelta (addr : String) (amount : UInt64) (b : String) : Int :=
  if b = addr then amount.toNat else 0

variable {f g : String → UInt64}

theorem creditFn_iff_delta {a : String} {x : UInt64} :
    creditFn f a x = some g ↔ ∀ b, ((g b).toNat : Int) = (f b).toNat + creditDelta a x b := by
  unfold creditFn creditDelta
  rw [Option.map_eq_some_iff]
  constructor
  · rintro ⟨v, hv, rfl⟩ b
    have := checkedAdd_eq_some.mp hv
    by_cases hb : b = a
    · subst hb
      simp only [Function.update_self, if_true]
      omega
    · simp [hb]
  · intro h
    refine ⟨g a, checkedAdd_eq_some.mpr ?_, ?_⟩
    · have := h a
      simp only [if_true] at this
      omega
    · funext b
      by_cases hb : b = a
      · rw [hb, Function.update_self]
      · rw [Function.update_of_ne hb]
        have := h b
        simp only [if_neg hb] at this
        exact UInt64.toNat_inj.mp (by omega)

theorem debitFn_delta {a : String} {x : UInt64} (h : debitFn f a x = some g) (b : String) :
    ((g b).toNat : Int) = (f b).toNat - creditDelta a x b := by
  have := creditFn_iff_delta.mp (creditFn_iff_debitFn.mpr h) b
  omega

/-- What a transaction as listed adds to each balance. -/
def TransferTx.delta (tx : TransferTx) (b : String) : Int :=
  if tx.isCoinbase then creditDelta tx.receiver tx.amount b
  else creditDelta tx.receiver tx.amount b - creditDelta tx.sender tx.amount b

variable {tx : TransferTx}

theorem listedFn_delta (h : listedFn f tx = some g) (b : String) :
    ((g b).toNat : Int) = (f b).toNat + tx.delta b := by
  unfold listedFn at h
  unfold TransferTx.delta
  split at h
  · rename_i hflag
    rw [if_pos hflag]
    exact creditFn_iff_delta.mp h b
  · rename_i hflag
    rw [if_neg hflag]
    obtain ⟨m, hdebit, hcredit⟩ := Option.bind_eq_some_iff.mp h
    have hd := debitFn_delta hdebit b
    have hc := creditFn_iff_delta.mp hcredit b
    simp only [TransferTx.move] at hd hc
    omega

variable {txs : List TransferTx}

/-- **The balances after a run are those before plus the sum of the deltas**, in
whatever order it was done. -/
theorem listedFn_run_delta (h : txs.foldlM listedFn f = some g) (b : String) :
    ((g b).toNat : Int) = (f b).toNat + (txs.map (fun tx => tx.delta b)).sum := by
  induction txs generalizing f with
  | nil =>
    obtain rfl : f = g := Option.some.inj h
    simp
  | cons tx txs ih =>
    obtain ⟨m, hm, hrest⟩ := Option.bind_eq_some_iff.mp h
    have hone := listedFn_delta hm b
    have hrun := ih hrest
    rw [map_cons, sum_cons]
    omega

/-- The transactions that are not coinbases. -/
def payments (txs : List TransferTx) : List TransferTx := txs.filter (fun tx => !tx.isCoinbase)

/-- Passing over the coinbases loses exactly their amounts. -/
theorem sum_delta_payments (txs : List TransferTx) (b : String) :
    (txs.map (fun tx => tx.delta b)).sum = ((payments txs).map (fun tx => tx.delta b)).sum +
      ((txs.filter TransferTx.isCoinbase).map
        (fun tx => creditDelta tx.receiver tx.amount b)).sum := by
  induction txs with
  | nil => rfl
  | cons tx txs ih =>
    unfold payments at ih ⊢
    cases hflag : tx.isCoinbase with
    | true =>
      have hdelta : tx.delta b = creditDelta tx.receiver tx.amount b := if_pos hflag
      rw [filter_cons_of_neg (by simp [hflag]), filter_cons_of_pos hflag, map_cons,
        map_cons, sum_cons, sum_cons, ih, hdelta]
      omega
    | false =>
      rw [filter_cons_of_pos (by simp [hflag]), filter_cons_of_neg (by simp [hflag]),
        map_cons, map_cons, sum_cons, sum_cons, ih]
      omega

/-- Coinbases whose amounts add up to nothing are worth nothing each. -/
theorem amounts_eq_zero (h : ∀ b, (txs.map (fun tx => creditDelta tx.receiver tx.amount b)).sum = 0) :
    ∀ tx ∈ txs, tx.amount = 0 := by
  intro tx hmem
  have hnonneg : ∀ x ∈ txs.map (fun t => creditDelta t.receiver t.amount tx.receiver), 0 ≤ x := by
    intro x hx
    obtain ⟨t, -, rfl⟩ := mem_map.mp hx
    unfold creditDelta
    split <;> omega
  have hle := single_le_sum hnonneg _ (mem_map.mpr ⟨tx, hmem, rfl⟩)
  rw [h tx.receiver, creditDelta, if_pos rfl] at hle
  exact UInt64.toNat_inj.mp (by simp only [UInt64.toNat_zero]; omega)

/-- A coinbase worth nothing changes nothing. -/
theorem listedFn_zero (hflag : tx.isCoinbase = true) (hzero : tx.amount = 0) :
    listedFn f tx = some f := by
  rw [listedFn, if_pos hflag, hzero]
  refine creditFn_iff_delta.mpr fun b => ?_
  simp [creditDelta]

theorem listedFn_run_payments (hzero : ∀ tx ∈ txs, tx.isCoinbase = true → tx.amount = 0)
    (f : String → UInt64) : txs.foldlM listedFn f = (payments txs).foldlM listedFn f := by
  induction txs generalizing f with
  | nil => rfl
  | cons tx txs ih =>
    have ih := ih fun t ht => hzero t (mem_cons_of_mem tx ht)
    cases hflag : tx.isCoinbase with
    | true =>
      rw [foldlM_cons, listedFn_zero hflag (hzero tx mem_cons_self hflag)]
      simpa [payments, filter_cons, hflag] using ih f
    | false =>
      simp only [payments, filter_cons, hflag, Bool.not_false, if_true, foldlM_cons]
      exact congrArg _ (funext ih)

variable {cb : TransferTx}

/-- **The two orders.**  The coinbase is credited first and the payments follow;
the transactions as listed lead to the same balances exactly when the payments
before the coinbase go through without it and the further coinbases are worth
nothing. -/
theorem listed_iff {before rest : List TransferTx} {f₁ f₂ f₃ : String → UInt64}
    (hcb : cb.isCoinbase = true) (hcredit : creditFn f cb.receiver cb.amount = some f₁)
    (hfirst : before.foldlM listedFn f₁ = some f₂)
    (hsecond : (payments rest).foldlM listedFn f₂ = some f₃) :
    (before ++ cb :: rest).foldlM listedFn f = some f₃ ↔
      (∀ tx ∈ rest, tx.isCoinbase = true → tx.amount = 0) ∧
        ∃ g, before.foldlM listedFn f = some g := by
  -- the coinbase and the payments before it can change places
  have hswap : ∀ g, before.foldlM listedFn f = some g → listedFn g cb = some f₂ := by
    intro g hg
    rw [listedFn, if_pos hcb]
    refine creditFn_iff_delta.mpr fun b => ?_
    have h₁ := creditFn_iff_delta.mp hcredit b
    have h₂ := listedFn_run_delta hfirst b
    have h₃ := listedFn_run_delta hg b
    omega
  rw [foldlM_append]
  simp only [foldlM_cons, Option.bind_eq_bind, Option.bind_eq_some_iff]
  constructor
  · rintro ⟨g, hg, m, hm, hrun⟩
    obtain rfl : m = f₂ := Option.some.inj (hm.symm.trans (hswap g hg))
    refine ⟨fun tx htx hflag => ?_, g, hg⟩
    refine amounts_eq_zero (fun b => ?_) tx (mem_filter.mpr ⟨htx, hflag⟩)
    have h₁ := listedFn_run_delta hrun b
    have h₂ := listedFn_run_delta hsecond b
    have h₃ := sum_delta_payments rest b
    omega
  · rintro ⟨hzero, g, hg⟩
    exact ⟨g, hg, f₂, hswap g hg, (listedFn_run_payments hzero f₂).trans hsecond⟩

/-! ### Blocks of transfers -/

/-- The transactions before the first coinbase. -/
def beforeCoinbase (txs : List TransferTx) : List TransferTx :=
  txs.takeWhile (fun tx => !tx.isCoinbase)

/-- The transactions after the first coinbase. -/
def afterCoinbase (txs : List TransferTx) : List TransferTx :=
  (txs.dropWhile (fun tx => !tx.isCoinbase)).tail

theorem find?_coinbase_split (h : txs.find? TransferTx.isCoinbase = some cb) :
    cb.isCoinbase = true ∧ txs = beforeCoinbase txs ++ cb :: afterCoinbase txs := by
  have hflag := find?_some h
  refine ⟨hflag, ?_⟩
  induction txs with
  | nil => cases h
  | cons tx txs ih =>
    cases htx : tx.isCoinbase with
    | true =>
      rw [find?_cons_of_pos htx] at h
      obtain rfl := Option.some.inj h
      simp [beforeCoinbase, afterCoinbase, htx]
    | false =>
      rw [find?_cons_of_neg (by simp [htx])] at h
      have ih := ih h
      simp only [beforeCoinbase, afterCoinbase, htx, takeWhile_cons, dropWhile_cons,
        Bool.not_false, if_true, cons_append, List.cons.injEq, true_and] at ih ⊢
      exact ih

/-- The credited coinbase of a block of transfers. -/
theorem coinbaseOf_transfers {block : Block} {i : Nat}
    (hblock : block.transactions = txs.map Transaction.transfer)
    (h : coinbaseOf block = some (.transfer cb, i)) :
    txs.find? TransferTx.isCoinbase = some cb := by
  have hfst := coinbaseOf_fst block
  rw [h, hblock, find?_map] at hfst
  obtain ⟨tx, htx, heq⟩ := Option.map_eq_some_iff.mp hfst.symm
  obtain rfl := Transaction.transfer.inj heq
  exact htx

section
variable {V : Type} {crates : Crates} {exec : VmExecutor V} {chainId : UInt32} {block : Block}

/-- The loop of a block of transfers applies its payments. -/
theorem run_transfers {k : Nat} {p p' : Progress V}
    (h : ((txs.map Transaction.transfer).zipIdx k).foldlM (applyTx crates exec chainId block) p =
      .ok p') : (payments txs).foldlM applyTransfer p.state = .ok p'.state := by
  induction txs generalizing p k with
  | nil =>
    obtain rfl := foldlM_nil_ok.mp h
    rfl
  | cons tx txs ih =>
    obtain ⟨m, hstep, hrest⟩ := foldlM_cons_ok.mp h
    have ih := ih hrest
    unfold payments at ih ⊢
    rcases applyTx_ok hstep with ⟨hcb, rfl⟩ | ⟨hcb, receipt, -, -, -, heffect⟩
    · have hflag : tx.isCoinbase = true := hcb
      rwa [filter_cons_of_neg (by simp [hflag])]
    · have hflag : tx.isCoinbase = false := hcb
      rw [filter_cons_of_pos (by simp [hflag])]
      cases heffect with
      | transfer hflag happly => exact foldlM_cons_ok.mpr ⟨m.state, happly, ih⟩

theorem actsAs_listed (hflag : tx.isCoinbase = false) :
    ActsAs applyTransfer listedFn bumpNonce tx := by
  have h := actsAs_applyTransfer tx
  have heq : ∀ f, listedFn f tx = moveFn f tx.move := fun f => if_neg (by simp [hflag])
  constructor
  · intro s g hs hg
    exact h.defined hs ((heq _).symm.trans hg)
  · intro s t hs ht
    rw [heq]
    exact h.effect hs ht

/-- The nonces with what a transaction did to them taken back. -/
def unlistedNonce (n : String → UInt64) (tx : TransferTx) : String → UInt64 :=
  if tx.isCoinbase then n else unbumpNonce n tx

theorem actsAs_unlisted (tx : TransferTx) :
    ActsAs unapplyTransfer unlistedFn unlistedNonce tx := by
  cases hflag : tx.isCoinbase with
  | true =>
    have h := actsAs_unapplyCoinbase hflag
    constructor
    · intro s g hs hg
      rw [unlistedFn, if_pos hflag] at hg
      exact h.defined hs hg
    · intro s t hs ht
      rw [unlistedFn, if_pos hflag, unlistedNonce, if_pos hflag]
      exact h.effect hs ht
  | false =>
    have h := actsAs_unapplyTransfer hflag
    have hflag' : ¬ tx.isCoinbase = true := by simp [hflag]
    constructor
    · intro s g hs hg
      rw [unlistedFn, if_neg hflag'] at hg
      exact h.defined hs hg
    · intro s t hs ht
      rw [unlistedFn, if_neg hflag', unlistedNonce, if_neg hflag']
      exact h.effect hs ht

/-- The nonces come back whatever the coinbases are. -/
theorem unlistedNonce_run (txs : List TransferTx) (n : String → UInt64) :
    txs.reverse.foldl unlistedNonce ((payments txs).foldl bumpNonce n) = n := by
  induction txs generalizing n with
  | nil => rfl
  | cons tx txs ih =>
    unfold payments at ih ⊢
    cases hflag : tx.isCoinbase with
    | true =>
      rw [filter_cons_of_neg (by simp [hflag]), reverse_cons, foldl_append, ih]
      simp [unlistedNonce, hflag]
    | false =>
      rw [filter_cons_of_pos (by simp [hflag]), foldl_cons, reverse_cons,
        foldl_append, ih]
      simp [unlistedNonce, hflag, unbumpNonce_bumpNonce]

/-- Rolling back restores the state exactly when the transactions as listed lead
from the balances before to those after. -/
theorem unapply_run_iff {s p : State} (receipts : List Receipt) (hs : s.Canonical)
    (hp : p.Canonical) (hviews : p.views = { s.views with
      balance := p.getBalance, nonce := (payments txs).foldl bumpNonce s.getNonce, receipts := [] }) :
    (∃ t, txs.reverse.foldlM unapplyTransfer { p with receipts := receipts } = .ok t ∧ t.Same s) ↔
      txs.foldlM listedFn s.getBalance = some p.getBalance := by
  have hrun := @ActsAs.run _ _ _ _ txs.reverse fun tx _ => actsAs_unlisted tx
  have hpr : State.Canonical { p with receipts := receipts } := hp.of_balances rfl
  rw [foldlM_iff_reverse listedFn_iff_unlistedFn]
  constructor
  · rintro ⟨t, ht, hsame, -⟩
    obtain ⟨hfn, -, -⟩ := hrun.effect hpr ht
    have hbalance : t.getBalance = s.getBalance := by
      funext a
      rw [State.getBalance, State.getBalance, hsame]
    rw [← hbalance]
    exact hfn
  · intro hback
    obtain ⟨t, ht, htc, htviews⟩ := hrun.apply hpr hback
    have hnonce : p.getNonce = (payments txs).foldl bumpNonce s.getNonce :=
      nonce_views hviews
    have htnonce : t.getNonce = s.getNonce := by
      have h : t.getNonce = txs.reverse.foldl unlistedNonce p.getNonce :=
        nonce_views htviews
      rw [h, hnonce, unlistedNonce_run]
    have htkind : t.kind = s.kind :=
      (kind_views htviews : t.kind = p.kind).trans (kind_views hviews)
    have htstorage : t.contractStorage = s.contractStorage :=
      (storage_views htviews : t.contractStorage = p.contractStorage).trans
        (storage_views hviews)
    exact ⟨t, ht, State.balances_eq_of_views htc hs (balance_views htviews) htnonce htkind,
      htstorage⟩

theorem unapplyBlock_transfers {s s' : State} (hindex : 0 < block.index)
    (hblock : block.transactions = txs.map Transaction.transfer) :
    (∃ t, unapplyBlock crates s' block chainId = .ok t ∧ t.Same s) ↔
      ∃ t, txs.reverse.foldlM unapplyTransfer s' = .ok t ∧ t.Same s := by
  have hne : block.index ≠ 0 := UInt64.pos_iff_ne_zero.mp hindex
  have hrun : block.transactions.reverse.foldlM (unapplyTx crates chainId) s' =
      txs.reverse.foldlM unapplyTransfer s' := by
    rw [hblock, ← map_reverse, foldlM_map]
    rfl
  unfold unapplyBlock
  rw [if_neg hne, hrun]
  constructor
  · rintro ⟨t, ht, hsame⟩
    obtain ⟨u, hu, rfl⟩ := map_eq_ok.mp ht
    exact ⟨u, hu, hsame⟩
  · rintro ⟨u, hu, hsame⟩
    exact ⟨{ u with receipts := [] }, bind_eq_ok.mpr ⟨u, hu, rfl⟩, hsame⟩

/-- **Round trip of a transfer block.**  Rolling it back restores the state exactly
when the transfers listed before the first coinbase go through on the state before
the block, without the coinbase, and every further coinbase is worth nothing. -/
theorem unapplyBlock_transfers_iff (crates : Crates) (s : State) (block : Block)
    (txs : List TransferTx) (chainId : UInt32) (s' : State) (hindex : 0 < block.index)
    (hs : s.Canonical) (hblock : block.transactions = txs.map Transaction.transfer)
    (hok : applyBlock crates s block chainId = .ok s') :
    (∃ t, unapplyBlock crates s' block chainId = .ok t ∧ t.Same s) ↔
      (∀ tx ∈ afterCoinbase txs, tx.isCoinbase = true → tx.amount = 0) ∧
        ∃ t, (beforeCoinbase txs).foldlM applyTransfer s = .ok t := by
  obtain ⟨r, hr, hs'⟩ := bind_eq_ok.mp hok
  obtain rfl : r.1 = s' := Except.ok.inj hs'
  obtain ⟨-, cb, i, s₁, p, hcb, -, hcredit, hrun, rfl⟩ := (applyBlockInner_ok hindex).mp hr
  obtain ⟨hflag, hsplit⟩ := find?_coinbase_split (coinbaseOf_transfers hblock hcb)
  have hstart : State.Canonical { s with receipts := [] } := hs.of_balances rfl
  obtain ⟨hcreditFn, hs₁, hs₁views⟩ :=
    (actsAs_credit TransferTx.receiver TransferTx.amount cb).effect hstart hcredit
  change creditFn s.getBalance cb.receiver cb.amount = some s₁.getBalance at hcreditFn
  rw [hblock] at hrun
  have hpay : ∀ tx ∈ payments txs, ActsAs applyTransfer listedFn bumpNonce tx := fun tx htx =>
    actsAs_listed (by simpa using (mem_filter.mp htx).2)
  obtain ⟨hpayFn, hp, hpviews⟩ := (ActsAs.run hpay).effect hs₁ (run_transfers hrun)
  -- the payments are those before the coinbase and those after it
  have hbefore : ∀ tx ∈ beforeCoinbase txs, tx.isCoinbase = false := fun tx htx => by
    simpa using mem_takeWhile_imp htx
  have hpayments : payments txs = beforeCoinbase txs ++ payments (afterCoinbase txs) := by
    conv_lhs => rw [hsplit]
    unfold payments
    rw [filter_append, filter_cons_of_neg (by simp [hflag]),
      filter_eq_self.mpr fun tx htx => by simp [hbefore tx htx]]
  rw [hpayments, foldlM_append] at hpayFn
  obtain ⟨f₂, hfirst, hsecond⟩ := Option.bind_eq_some_iff.mp hpayFn
  rw [unapplyBlock_transfers hindex hblock, unapply_run_iff p.receipts hs hp]
  · have hiff := listed_iff hflag hcreditFn hfirst hsecond
    rw [← hsplit] at hiff
    rw [hiff, and_congr_right_iff]
    intro _
    have hlisted := ActsAs.run fun tx htx => actsAs_listed (hbefore tx htx)
    constructor
    · rintro ⟨g, hg⟩
      exact hlisted.defined hs hg
    · rintro ⟨t, ht⟩
      exact ⟨_, (hlisted.effect hs ht).1⟩
  · have hnonce : s₁.getNonce = s.getNonce := nonce_views hs₁views
    rw [hpviews, hs₁views, hnonce]
    rfl

end

/-- The round trip of one payment after the coinbase. -/
theorem unapplyBlock_payment :
    ∃ (s : State) (txs : List TransferTx) (s' t : State),
      let block := Block.ofTransactions 1 (txs.map Transaction.transfer)
      applyBlock referenceCrates s block CHAIN_ID_MAINNET = .ok s' ∧
      unapplyBlock referenceCrates s' block CHAIN_ID_MAINNET = .ok t ∧ t.Same s := by
  let s : State := .funded [("alice", 10)]
  let txs := [TransferTx.reward CHAIN_ID_MAINNET "miner" 50, .payment CHAIN_ID_MAINNET "miner" "bob" 40 1,
    .payment CHAIN_ID_MAINNET "alice" "alice" 10 1]
  let block := Block.ofTransactions 1 (txs.map Transaction.transfer)
  have hrun : (applyBlock referenceCrates s block CHAIN_ID_MAINNET).isOk = true := by
    decide
  obtain ⟨s', hs'⟩ := isOk_iff.mp hrun
  obtain ⟨t, ht⟩ := (unapplyBlock_transfers_iff referenceCrates s block txs CHAIN_ID_MAINNET s'
    (by decide) (State.canonical_funded _) rfl hs').mpr ⟨by decide, s, rfl⟩
  exact ⟨s, txs, s', t, hs', ht⟩

/-- **An accepted transfer block that cannot be rolled back**: the miner spends the
coinbase in a transfer listed before it. -/
theorem unapplyBlock_not_inverse :
    ¬ ∀ (s : State) (block : Block) (s' : State), 0 < block.index → s.Canonical →
      (∀ tx ∈ block.transactions, ∃ t, tx = .transfer t) →
      applyBlock referenceCrates s block CHAIN_ID_MAINNET = .ok s' →
      ∃ t, unapplyBlock referenceCrates s' block CHAIN_ID_MAINNET = .ok t ∧ t.Same s := by
  intro h
  let block := Block.ofTransactions 1 ([TransferTx.payment CHAIN_ID_MAINNET "miner" "bob" 50 1,
    .reward CHAIN_ID_MAINNET "miner" 50].map Transaction.transfer)
  have hrun : (applyBlock referenceCrates .new block CHAIN_ID_MAINNET).isOk = true := by
    decide
  obtain ⟨s', hs'⟩ := isOk_iff.mp hrun
  obtain ⟨t, ht, -⟩ := h .new block s' (by decide) State.canonical_new
    (fun tx htx => by
      obtain ⟨t, -, rfl⟩ := mem_map.mp htx
      exact ⟨t, rfl⟩) hs'
  have hback : (applyBlock referenceCrates .new block CHAIN_ID_MAINNET >>= fun s' =>
      unapplyBlock referenceCrates s' block CHAIN_ID_MAINNET).isOk = false := by
    decide
  rw [bind_eq_ok.mpr ⟨s', hs', ht⟩] at hback
  cases hback

end Strangecoin
