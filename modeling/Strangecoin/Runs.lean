import Mathlib

/-! # Runs of a fallible step

A loop that stops at the first error is `List.foldlM` over `Except`.  This
module has its rules: a run splits at any point (`foldlM_append_ok`), and a
property kept by every step is kept by the run (`run_invariant`).

`EachStep step P s xs` says that `P` holds of every element of `xs`, in the state in which
the run from `s` reaches it.
-/
namespace Strangecoin
open List

variable {ε α β σ : Type}

variable {x : Except ε α} {f : α → Except ε β}

theorem bind_eq_ok {b : β} : (x >>= f) = .ok b ↔ ∃ a, x = .ok a ∧ f a = .ok b := by
  cases x with
  | error e => exact ⟨nofun, nofun⟩
  | ok a =>
    constructor
    · intro h; exact ⟨a, rfl, h⟩
    · rintro ⟨_, ⟨⟩, h⟩; exact h

theorem map_eq_ok {f : α → β} {b : β} : (f <$> x) = .ok b ↔ ∃ a, x = .ok a ∧ f a = b := by
  cases x with
  | error e => exact ⟨nofun, nofun⟩
  | ok a =>
    constructor
    · intro h; exact ⟨a, rfl, Except.ok.inj h⟩
    · rintro ⟨_, ⟨⟩, rfl⟩; rfl

theorem ok_pair {a a' : α} {b b' : β} (h : (.ok (a, b) : Except ε (α × β)) = .ok (a', b')) :
    a = a' ∧ b = b' :=
  Prod.mk.inj (Except.ok.inj h)

variable {e : ε}

theorem bind_eq_error : (x >>= f) = .error e ↔ x = .error e ∨ ∃ a, x = .ok a ∧ f a = .error e := by
  cases x with
  | error d =>
    constructor
    · rintro ⟨⟩; exact .inl rfl
    · rintro (⟨⟨⟩⟩ | ⟨_, ⟨⟩, _⟩); rfl
  | ok a =>
    constructor
    · intro h; exact .inr ⟨a, rfl, h⟩
    · rintro (⟨⟨⟩⟩ | ⟨_, ⟨⟩, h⟩); exact h

theorem isOk_iff : x.isOk = true ↔ ∃ a, x = .ok a := by
  cases x with
  | error e => exact ⟨nofun, nofun⟩
  | ok a => exact ⟨fun _ => ⟨a, rfl⟩, fun _ => rfl⟩

theorem mapError_eq_ok {ε' : Type} {f : ε → ε'} {a : α} :
    x.mapError f = .ok a ↔ x = .ok a := by
  cases x with
  | error e => exact ⟨nofun, nofun⟩
  | ok b => exact ⟨fun h => congrArg _ (Except.ok.inj h), fun h => congrArg _ (Except.ok.inj h)⟩

/-- The value of an option, or the given error: Rust's `ok_or`. -/
def okOr (x : Option α) (e : ε) : Except ε α :=
  match x with
  | some a => .ok a
  | none => .error e

@[simp] theorem okOr_eq_ok {x : Option α} {a : α} : okOr x e = .ok a ↔ x = some a := by
  cases x <;> simp [okOr]

/-- The error unless the test holds: an early return of `Err`. -/
def guardWith (c : Prop) [Decidable c] (e : ε) : Except ε Unit :=
  if c then .ok () else .error e

@[simp] theorem guardWith_eq_ok {c : Prop} [Decidable c] {u : Unit} :
    guardWith c e = .ok u ↔ c := by
  unfold guardWith
  split <;> simp_all

theorem guardWith_eq_error {c : Prop} [Decidable c] {e' : ε} :
    guardWith c e = .error e' ↔ ¬ c ∧ e = e' := by
  unfold guardWith
  split <;> simp_all

variable {step : σ → α → Except ε σ}

variable {xs : List α} {s t : σ}

theorem foldlM_cons_ok {x : α} :
    (x :: xs).foldlM step s = .ok t ↔
      ∃ u, step s x = .ok u ∧ xs.foldlM step u = .ok t := by
  rw [foldlM_cons, bind_eq_ok]

theorem foldlM_nil_ok : ([] : List α).foldlM step s = .ok t ↔ s = t := by
  rw [foldlM_nil]
  exact ⟨fun h => Except.ok.inj h, fun h => congrArg _ h⟩

theorem foldlM_append_ok {ys : List α} :
    (xs ++ ys).foldlM step s = .ok t ↔
      ∃ u, xs.foldlM step s = .ok u ∧ ys.foldlM step u = .ok t := by
  rw [foldlM_append, bind_eq_ok]

theorem foldlM_concat_ok {x : α} :
    (xs ++ [x]).foldlM step s = .ok t ↔
      ∃ u, xs.foldlM step s = .ok u ∧ step u x = .ok t := by
  rw [foldlM_append_ok]
  constructor
  · rintro ⟨u, hu, ht⟩
    obtain ⟨v, hv, he⟩ := foldlM_cons_ok.mp ht
    exact ⟨u, hu, by rw [hv, foldlM_nil_ok.mp he]⟩
  · rintro ⟨u, hu, ht⟩
    exact ⟨u, hu, foldlM_cons_ok.mpr ⟨t, ht, foldlM_nil_ok.mpr rfl⟩⟩

variable {I : σ → Prop}

/-- **The invariant rule.**  What one step keeps, a run keeps. -/
theorem run_invariant (hstep : ∀ s x t, I s → step s x = .ok t → I t) (hs : I s)
    (h : xs.foldlM step s = .ok t) : I t := by
  induction xs generalizing s with
  | nil => exact foldlM_nil_ok.mp h ▸ hs
  | cons x xs ih =>
    obtain ⟨u, hu, ht⟩ := foldlM_cons_ok.mp h
    exact ih (hstep s x u hs hu) ht

/-- The error of a run is that of a step. -/
theorem run_error {E : ε → Prop} (hstep : ∀ s x e, step s x = .error e → E e)
    (h : xs.foldlM step s = .error e) : E e := by
  induction xs generalizing s with
  | nil => cases h
  | cons x xs ih =>
    rw [foldlM_cons] at h
    rcases bind_eq_error.mp h with hx | ⟨u, -, hxs⟩
    · exact hstep s x e hx
    · exact ih hxs

theorem mapM_ok {ys : List β} :
    xs.mapM f = .ok ys ↔ List.Forall₂ (fun x y => f x = .ok y) xs ys := by
  induction xs generalizing ys with
  | nil =>
    rw [mapM_nil, forall₂_nil_left_iff]
    exact ⟨fun h => (Except.ok.inj h).symm, fun h => congrArg Except.ok h.symm⟩
  | cons x xs ih =>
    rw [mapM_cons, bind_eq_ok]
    constructor
    · rintro ⟨y, hy, h⟩
      obtain ⟨ys', hys, ⟨⟩⟩ := bind_eq_ok.mp h
      exact .cons hy (ih.mp hys)
    · rintro (_ | ⟨hy, hys⟩)
      exact ⟨_, hy, bind_eq_ok.mpr ⟨_, ih.mpr hys, rfl⟩⟩

/-- Every element on the right of a relation of lists has a partner. -/
theorem exists_of_forall₂ {R : α → β → Prop} {ys : List β} (h : List.Forall₂ R xs ys) {y : β}
    (hy : y ∈ ys) : ∃ x ∈ xs, R x y := by
  induction h with
  | nil => exact absurd hy (by simp)
  | cons hR _ ih =>
    rcases mem_cons.mp hy with rfl | hy
    · exact ⟨_, by simp, hR⟩
    · obtain ⟨x, hx, hR⟩ := ih hy
      exact ⟨x, by simp [hx], hR⟩

theorem mapM_congr {g : α → Except ε β} (h : ∀ x ∈ xs, f x = g x) : xs.mapM f = xs.mapM g := by
  induction xs with
  | nil => rfl
  | cons x xs ih =>
    rw [mapM_cons, mapM_cons, h x (by simp), ih fun y hy => h y (by simp [hy])]

/-- A loop of checks passes exactly when every element does. -/
theorem forM_ok {check : α → Except ε Unit} {u : Unit} :
    xs.forM check = .ok u ↔ ∀ x ∈ xs, check x = .ok () := by
  induction xs with
  | nil => simp [pure, Except.pure]
  | cons x xs ih =>
    rw [forM_eq_forM, forM_cons, bind_eq_ok]
    constructor
    · rintro ⟨⟨⟩, hx, hxs⟩ y hy
      rcases mem_cons.mp hy with rfl | hy
      · exact hx
      · exact ih.mp hxs y hy
    · intro h
      exact ⟨(), h x (by simp), ih.mpr fun y hy => h y (by simp [hy])⟩

/-! ### Computations that agree -/

/-- Both succeed with related results, or both fail with the same error. -/
inductive Except.Agree (R : α → β → Prop) : Except ε α → Except ε β → Prop where
  | ok {a : α} {b : β} (h : R a b) : Except.Agree R (.ok a) (.ok b)
  | error (e : ε) : Except.Agree R (.error e) (.error e)

namespace Except.Agree
variable {γ δ : Type} {R : α → β → Prop} {S : γ → δ → Prop}

theorem refl (x : Except ε α) : Except.Agree Eq x x := by
  cases x with
  | ok a => exact .ok rfl
  | error e => exact .error e

theorem bind {y : Except ε β} {f : α → Except ε γ} {g : β → Except ε δ} (h : Except.Agree R x y)
    (hfg : ∀ a b, R a b → Except.Agree S (f a) (g b)) : Except.Agree S (x >>= f) (y >>= g) := by
  cases h with
  | ok h => exact hfg _ _ h
  | error e => exact .error e

theorem bind_left {f : α → Except ε γ} {g : α → Except ε δ} (hfg : ∀ a, Except.Agree S (f a) (g a)) :
    Except.Agree S (x >>= f) (x >>= g) :=
  (refl x).bind fun _ _ h => h ▸ hfg _

theorem foldlM {τ : Type} {T : σ → τ → Prop} {f : σ → α → Except ε σ} {g : τ → α → Except ε τ}
    (hfg : ∀ s t x, T s t → Except.Agree T (f s x) (g t x)) {t : τ} (hst : T s t) (xs : List α) :
    Except.Agree T (xs.foldlM f s) (xs.foldlM g t) := by
  induction xs generalizing s t with
  | nil => exact .ok hst
  | cons x xs ih =>
    rw [foldlM_cons, foldlM_cons]
    exact (hfg s t x hst).bind fun u v huv => ih huv

theorem of_ok {y : Except ε β} {a : α} (h : Except.Agree R x y) (hx : x = .ok a) :
    ∃ b, y = .ok b ∧ R a b := by
  cases h with
  | ok h => exact ⟨_, rfl, Except.ok.inj hx ▸ h⟩
  | error e => cases hx

end Except.Agree

/-! ### Runs and their reversals -/

/-- **Steps that undo each other make runs that undo each other**, the second
one backwards. -/
theorem foldlM_iff_reverse {f g : σ → α → Option σ} (h : ∀ s t x, f s x = some t ↔ g t x = some s) :
    xs.foldlM f s = some t ↔ xs.reverse.foldlM g t = some s := by
  induction xs generalizing s with
  | nil => simp [eq_comm]
  | cons x xs ih =>
    rw [foldlM_cons, reverse_cons, foldlM_append]
    simp only [foldlM_cons, foldlM_nil, Option.bind_eq_bind, Option.pure_def,
      Option.bind_eq_some_iff]
    constructor
    · rintro ⟨u, hstep, hrest⟩
      exact ⟨u, ih.mp hrest, s, (h s u x).mp hstep, rfl⟩
    · rintro ⟨u, hrest, _, hstep, ⟨⟩⟩
      exact ⟨u, (h s u x).mpr hstep, ih.mpr hrest⟩

/-! ### What holds when an element is processed -/

/-- `P` holds of every element of the list in the state in which the run from
the given state processes it. -/
def EachStep (step : σ → α → Except ε σ) (P : σ → α → Prop) : σ → List α → Prop
  | _, [] => True
  | s, x :: xs => P s x ∧ ∀ t, step s x = .ok t → EachStep step P t xs

variable {P Q : σ → α → Prop}

@[simp] theorem eachStep_nil : EachStep step P s [] ↔ True := Iff.rfl

/-- What holds of the result of a computation, if it has one, can be tested. -/
instance decidableForallOk {x : Except ε α} {Q : α → Prop} [DecidablePred Q] :
    Decidable (∀ a, x = .ok a → Q a) :=
  match x with
  | .error _ => .isTrue nofun
  | .ok a => decidable_of_iff (Q a)
      ⟨fun h _ hb => Except.ok.inj hb ▸ h, fun h => h a rfl⟩

instance EachStep.decidable [∀ s x, Decidable (P s x)] :
    ∀ (s : σ) (xs : List α), Decidable (EachStep step P s xs)
  | _, [] => .isTrue trivial
  | _, _ :: xs =>
    have := fun t => EachStep.decidable t xs
    inferInstanceAs (Decidable (_ ∧ _))

theorem eachStep_cons {x : α} (h : step s x = .ok t) :
    EachStep step P s (x :: xs) ↔ P s x ∧ EachStep step P t xs := by
  constructor
  · rintro ⟨hx, hxs⟩
    exact ⟨hx, hxs t h⟩
  · rintro ⟨hx, hxs⟩
    refine ⟨hx, fun u hu => ?_⟩
    rw [h] at hu
    exact Except.ok.inj hu ▸ hxs

theorem EachStep.of_forall (h : ∀ s x, P s x) : EachStep step P s xs := by
  induction xs generalizing s with
  | nil => trivial
  | cons x xs ih => exact ⟨h s x, fun _ _ => ih⟩

/-- The invariant rule when each step needs what holds at it. -/
theorem run_invariant_each (hstep : ∀ s x t, I s → P s x → step s x = .ok t → I t) (hs : I s)
    (hP : EachStep step P s xs) (h : xs.foldlM step s = .ok t) : I t := by
  induction xs generalizing s with
  | nil => exact foldlM_nil_ok.mp h ▸ hs
  | cons x xs ih =>
    obtain ⟨u, hu, ht⟩ := foldlM_cons_ok.mp h
    exact ih (hstep s x u hs hP.1 hu) (hP.2 u hu) ht

/-! ### Counters -/

/-- The list counts on from `n`: it is `n + 1`, `n + 2` and so on. -/
def CountsFrom (n : Nat) (ns : List Nat) : Prop := ns = List.range' (n + 1) ns.length

instance {n : Nat} {ns : List Nat} : Decidable (CountsFrom n ns) :=
  inferInstanceAs (Decidable (_ = _))

variable {n : Nat}

@[simp] theorem countsFrom_nil : CountsFrom n [] := rfl

variable {ns : List Nat}

theorem countsFrom_cons {m : Nat} : CountsFrom n (m :: ns) ↔ m = n + 1 ∧ CountsFrom (n + 1) ns := by
  rw [CountsFrom, length_cons, List.range'_succ, List.cons.injEq, CountsFrom]

theorem countsFrom_append {ms : List Nat} :
    CountsFrom n (ms ++ ns) ↔ CountsFrom n ms ∧ CountsFrom (n + ms.length) ns := by
  induction ms generalizing n with
  | nil => simp
  | cons m ms ih =>
    rw [cons_append, countsFrom_cons, countsFrom_cons, ih, length_cons, and_assoc,
      Nat.add_assoc, Nat.add_comm 1]

theorem CountsFrom.nodup (h : CountsFrom n ns) : ns.Nodup := by
  rw [h]
  exact nodup_range'

/-- **Counters along a run.**  Every step carries numbers for each key, `P` says that they
count on from the counters of the state, and a step with `P` moves the counters past them.
Then `P` holds at every step if and only if the numbers of the whole run count on. -/
theorem eachStep_countsFrom {κ : Type*} {K : κ → Prop} (count : σ → κ → Nat)
    (carried : κ → α → List Nat) (hkeep : ∀ s, ∀ x ∈ xs, ∀ t, I s → step s x = .ok t → I t)
    (hiff : ∀ s, ∀ x ∈ xs, ∀ t, I s → step s x = .ok t →
      (P s x ↔ ∀ k, K k → CountsFrom (count s k) (carried k x)))
    (hcount : ∀ s, ∀ x ∈ xs, ∀ t, I s → step s x = .ok t → P s x →
      ∀ k, K k → count t k = count s k + (carried k x).length) (hs : I s)
    (h : xs.foldlM step s = .ok t) :
    (EachStep step P s xs ↔ ∀ k, K k → CountsFrom (count s k) (xs.flatMap (carried k))) ∧
      (EachStep step P s xs → ∀ k, K k → count t k = count s k + (xs.flatMap (carried k)).length) := by
  induction xs generalizing s with
  | nil =>
    obtain rfl := foldlM_nil_ok.mp h
    simp
  | cons x xs ih =>
    obtain ⟨u, hu, ht⟩ := foldlM_cons_ok.mp h
    have hx : x ∈ x :: xs := mem_cons_self
    have hiffx := hiff s x hx u hs hu
    have hcountx := hcount s x hx u hs hu
    have hrest := ih (fun s y hy => hkeep s y (mem_cons_of_mem x hy))
      (fun s y hy => hiff s y (mem_cons_of_mem x hy))
      (fun s y hy => hcount s y (mem_cons_of_mem x hy)) (hkeep s x hx u hs hu) ht
    rw [eachStep_cons hu]
    simp only [flatMap_cons, countsFrom_append, length_append]
    refine ⟨⟨?_, ?_⟩, ?_⟩
    · rintro ⟨hP, hsteps⟩ k hk
      refine ⟨hiffx.mp hP k hk, ?_⟩
      rw [← hcountx hP k hk]
      exact hrest.1.mp hsteps k hk
    · intro hall
      have hP : P s x := hiffx.mpr fun k hk => (hall k hk).1
      refine ⟨hP, hrest.1.mpr fun k hk => ?_⟩
      rw [hcountx hP k hk]
      exact (hall k hk).2
    · rintro ⟨hP, hsteps⟩ k hk
      rw [hrest.2 hsteps k hk, hcountx hP k hk, Nat.add_assoc]

end Strangecoin
