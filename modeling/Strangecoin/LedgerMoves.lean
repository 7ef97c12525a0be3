import Strangecoin.ApplySteps

/-! # The operations as moves on the ledger

On canonical states every balance operation is a partial function of the balances
and every nonce operation a total function of the nonces; the rest of the state
stays.  `ActsAs` says this of a step, and it carries over to runs (`ActsAs.run`).
-/
namespace Strangecoin

/-- A step changes the balances by `fn`, where that is defined, the nonces by
`nf`, and nothing else. -/
structure ActsAs {α : Type} (step : State → α → Except CoreError State)
    (fn : (String → UInt64) → α → Option (String → UInt64))
    (nf : (String → UInt64) → α → String → UInt64) (x : α) : Prop where
  defined : ∀ {s : State} {g : String → UInt64}, s.Canonical → fn s.getBalance x = some g →
    ∃ t, step s x = .ok t
  effect : ∀ {s t : State}, s.Canonical → step s x = .ok t →
    fn s.getBalance x = some t.getBalance ∧ t.Canonical ∧
      t.views = { s.views with balance := t.getBalance, nonce := nf s.getNonce x }

section
variable {α β : Type} {step : State → α → Except CoreError State}
  {fn : (String → UInt64) → α → Option (String → UInt64)}
  {nf : (String → UInt64) → α → String → UInt64}

/-- A step succeeds where its function is defined, with that function's value. -/
theorem ActsAs.apply {x : α} (h : ActsAs step fn nf x) {s : State} {g : String → UInt64}
    (hs : s.Canonical) (hg : fn s.getBalance x = some g) :
    ∃ t, step s x = .ok t ∧ t.Canonical ∧
      t.views = { s.views with balance := g, nonce := nf s.getNonce x } := by
  obtain ⟨t, ht⟩ := h.defined hs hg
  obtain ⟨hfn, hcanonical, hviews⟩ := h.effect hs ht
  obtain rfl : g = t.getBalance := Option.some.inj (hg.symm.trans hfn)
  exact ⟨t, ht, hcanonical, hviews⟩

theorem ActsAs.bind {x : α} {step' : State → α → Except CoreError State}
    {fn' : (String → UInt64) → α → Option (String → UInt64)}
    {nf' : (String → UInt64) → α → String → UInt64} (h : ActsAs step fn nf x)
    (h' : ActsAs step' fn' nf' x) :
    ActsAs (fun s x => step s x >>= fun m => step' m x)
      (fun f x => (fn f x).bind fun g => fn' g x) (fun n x => nf' (nf n x) x) x where
  defined := by
    intro s g hs hg
    obtain ⟨g₁, hg₁, hg₂⟩ := Option.bind_eq_some_iff.mp hg
    obtain ⟨m, hm, hmc, hviews⟩ := h.apply hs hg₁
    have hbalance : m.getBalance = g₁ := balance_views hviews
    rw [← hbalance] at hg₂
    obtain ⟨t, ht⟩ := h'.defined hmc hg₂
    exact ⟨t, bind_eq_ok.mpr ⟨m, hm, ht⟩⟩
  effect := by
    intro s t hs ht
    obtain ⟨m, hm, ht⟩ := bind_eq_ok.mp ht
    obtain ⟨hfn, hmc, hmviews⟩ := h.effect hs hm
    obtain ⟨hfn', htc, htviews⟩ := h'.effect hmc ht
    have hnonce : m.getNonce = nf s.getNonce x := nonce_views hmviews
    refine ⟨Option.bind_eq_some_iff.mpr ⟨_, hfn, hfn'⟩, htc, ?_⟩
    rw [htviews, hnonce, hmviews]

/-- **What the steps are, the run is.** -/
theorem ActsAs.run {xs : List α} (h : ∀ x ∈ xs, ActsAs step fn nf x) :
    ActsAs (fun s xs => List.foldlM step s xs) (fun f xs => List.foldlM fn f xs)
      (fun n xs => List.foldl nf n xs) xs := by
  induction xs with
  | nil =>
    constructor
    · intro s g _ _
      exact ⟨s, rfl⟩
    · intro s t hs ht
      obtain rfl := foldlM_nil_ok.mp ht
      exact ⟨rfl, hs, rfl⟩
  | cons x xs ih =>
    have hx := h x List.mem_cons_self
    have hxs := ih fun y hy => h y (List.mem_cons_of_mem x hy)
    constructor
    · intro s g hs hg
      obtain ⟨g₁, hg₁, hg₂⟩ := Option.bind_eq_some_iff.mp hg
      obtain ⟨m, hm, hmc, hviews⟩ := hx.apply hs hg₁
      have hbalance : m.getBalance = g₁ := balance_views hviews
      rw [← hbalance] at hg₂
      obtain ⟨t, ht⟩ := hxs.defined hmc hg₂
      exact ⟨t, foldlM_cons_ok.mpr ⟨m, hm, ht⟩⟩
    · intro s t hs ht
      obtain ⟨m, hm, ht⟩ := foldlM_cons_ok.mp ht
      obtain ⟨hfn, hmc, hmviews⟩ := hx.effect hs hm
      obtain ⟨hfn', htc, htviews⟩ := hxs.effect hmc ht
      have hnonce : m.getNonce = nf s.getNonce x := nonce_views hmviews
      refine ⟨Option.bind_eq_some_iff.mpr ⟨_, hfn, hfn'⟩, htc, ?_⟩
      rw [htviews, hnonce, hmviews]
      rfl

end

/-! ### Credits, debits and moves -/

section
variable {α : Type} (addr : α → String) (amount : α → UInt64) (x : α)

theorem actsAs_credit :
    ActsAs (fun s x => s.credit (addr x) (amount x)) (fun f x => creditFn f (addr x) (amount x))
      (fun n _ => n) x where
  defined := by
    intro s g hs hg
    obtain ⟨b, hb, -⟩ := Option.map_eq_some_iff.mp hg
    exact ⟨_, State.credit_ok.mpr ⟨b, checkedAdd_eq_some.mp hb, rfl⟩⟩
  effect := by
    intro s t hs ht
    obtain ⟨b, hb, rfl⟩ := State.credit_ok.mp ht
    rw [State.getBalance_setBalance_eq]
    exact ⟨Option.map_eq_some_iff.mpr ⟨b, checkedAdd_eq_some.mpr hb, rfl⟩, hs.setBalance _ b,
      hs.views_setBalance _ b⟩

theorem actsAs_debit :
    ActsAs (fun s x => s.debit (addr x) (amount x)) (fun f x => debitFn f (addr x) (amount x))
      (fun n _ => n) x where
  defined := by
    intro s g hs hg
    obtain ⟨b, hb, -⟩ := Option.map_eq_some_iff.mp hg
    exact ⟨_, State.debit_ok.mpr ⟨b, checkedSub_eq_some.mp hb, rfl⟩⟩
  effect := by
    intro s t hs ht
    obtain ⟨b, hb, rfl⟩ := State.debit_ok.mp ht
    rw [State.getBalance_setBalance_eq]
    exact ⟨Option.map_eq_some_iff.mpr ⟨b, checkedSub_eq_some.mpr hb, rfl⟩, hs.setBalance _ b,
      hs.views_setBalance _ b⟩

theorem actsAs_setNonce (next : UInt64 → UInt64) :
    ActsAs (fun s x => .ok (s.setNonce (addr x) (next (s.getNonce (addr x))))) (fun f _ => some f)
      (fun n x => Function.update n (addr x) (next (n (addr x)))) x where
  defined := fun _ _ => ⟨_, rfl⟩
  effect := by
    intro s t hs ht
    obtain rfl := Except.ok.inj ht
    rw [State.getBalance_setNonce_eq]
    exact ⟨rfl, hs.setNonce _ _, hs.views_setNonce _ _⟩

end

theorem actsAs_moveValue (t : ValueTransfer) :
    ActsAs State.moveValue moveFn (fun n _ => n) t :=
  (actsAs_debit ValueTransfer.payer ValueTransfer.amount t).bind
    (actsAs_credit ValueTransfer.payee ValueTransfer.amount t)

theorem actsAs_unmoveValue (t : ValueTransfer) :
    ActsAs State.unmoveValue unmoveFn (fun n _ => n) t :=
  (actsAs_debit ValueTransfer.payee ValueTransfer.amount t).bind
    (actsAs_credit ValueTransfer.payer ValueTransfer.amount t)

/-! ### Transfers -/

/-- The move of a transfer. -/
def TransferTx.move (tx : TransferTx) : ValueTransfer := ⟨tx.sender, tx.receiver, tx.amount⟩

/-- The nonces with the sender's raised. -/
def bumpNonce (n : String → UInt64) (tx : TransferTx) : String → UInt64 :=
  Function.update n tx.sender (n tx.sender + 1)

def unbumpNonce (n : String → UInt64) (tx : TransferTx) : String → UInt64 :=
  Function.update n tx.sender (n tx.sender - 1)

theorem unbumpNonce_bumpNonce (n : String → UInt64) (tx : TransferTx) :
    unbumpNonce (bumpNonce n tx) tx = n := by
  simp [unbumpNonce, bumpNonce]

theorem actsAs_applyTransfer (tx : TransferTx) :
    ActsAs applyTransfer (fun f tx => moveFn f tx.move) bumpNonce tx := by
  have hsteps := ((actsAs_debit TransferTx.sender TransferTx.amount tx).bind
    (actsAs_credit TransferTx.receiver TransferTx.amount tx)).bind
      (actsAs_setNonce TransferTx.sender tx (fun n => n + 1))
  have heq : ∀ s t, applyTransfer s tx = .ok t ↔ ((s.debit tx.sender tx.amount >>= fun m =>
      m.credit tx.receiver tx.amount) >>= fun m =>
        .ok (m.setNonce tx.sender (m.getNonce tx.sender + 1))) = .ok t := by
    intro s t
    simp only [applyTransfer_ok, bind_eq_ok, Except.ok.injEq]
    constructor
    · rintro ⟨s₁, s₂, h₁, h₂, rfl⟩
      exact ⟨s₂, ⟨s₁, h₁, h₂⟩, rfl⟩
    · rintro ⟨s₂, ⟨s₁, h₁, h₂⟩, rfl⟩
      exact ⟨s₁, s₂, h₁, h₂, rfl⟩
  constructor
  · intro s g hs hg
    obtain ⟨t, ht⟩ := hsteps.defined hs (Option.bind_eq_some_iff.mpr ⟨g, hg, rfl⟩)
    exact ⟨t, (heq s t).mpr ht⟩
  · intro s t hs ht
    obtain ⟨hfn, ht, hviews⟩ := hsteps.effect hs ((heq s t).mp ht)
    obtain ⟨g, hg, hgt⟩ := Option.bind_eq_some_iff.mp hfn
    exact ⟨hgt ▸ hg, ht, hviews⟩

theorem actsAs_unapplyTransfer {tx : TransferTx} (hflag : tx.isCoinbase = false) :
    ActsAs unapplyTransfer (fun f tx => unmoveFn f tx.move) unbumpNonce tx := by
  have hsteps := ((actsAs_setNonce TransferTx.sender tx (fun n => n - 1)).bind
    (actsAs_debit TransferTx.receiver TransferTx.amount tx)).bind
      (actsAs_credit TransferTx.sender TransferTx.amount tx)
  have heq : ∀ s, unapplyTransfer s tx = (((Except.ok (s.setNonce tx.sender
      (s.getNonce tx.sender - 1)) : Except CoreError State) >>= fun m =>
        m.debit tx.receiver tx.amount) >>= fun m => m.credit tx.sender tx.amount) := by
    intro s
    simp only [unapplyTransfer, hflag, Bool.false_eq_true, if_false]
    rfl
  constructor
  · intro s g hs hg
    obtain ⟨t, ht⟩ := hsteps.defined hs hg
    exact ⟨t, (heq s).trans ht⟩
  · intro s t hs ht
    exact hsteps.effect hs ((heq s).symm.trans ht)

theorem actsAs_unapplyCoinbase {tx : TransferTx} (hflag : tx.isCoinbase = true) :
    ActsAs unapplyTransfer (fun f tx => debitFn f tx.receiver tx.amount) (fun n _ => n) tx := by
  have hstep := actsAs_debit TransferTx.receiver TransferTx.amount tx
  have heq : ∀ s, unapplyTransfer s tx = s.debit tx.receiver tx.amount := by
    intro s
    simp only [unapplyTransfer, hflag, if_true]
    rfl
  constructor
  · intro s g hs hg
    obtain ⟨t, ht⟩ := hstep.defined hs hg
    exact ⟨t, (heq s).trans ht⟩
  · intro s t hs ht
    exact hstep.effect hs ((heq s).symm.trans ht)

end Strangecoin
