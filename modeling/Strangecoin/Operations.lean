import Mathlib

/-! # Operations on a state that may stop

A method on a mutable receiver that returns a `Result` is an `EStateM`: when it stops,
the state is what it had made of it by then.  An operation that first only reads and checks
(`ReadsOnly`), and from its first write on cannot stop in a way that counts (`NeverStops`),
is `Atomic`.

Which ways of stopping count is a parameter `E`: a returned error does, a crash does not.
-/
namespace Strangecoin

variable {ε σ α β : Type} {E : ε → Prop}

/-- The result of a computation that does not see the state. -/
def check (x : Except ε α) : EStateM ε σ α := fun s =>
  match x with
  | .ok a => .ok a s
  | .error e => .error e s

variable {s : σ}

theorem run_check {x : Except ε α} :
    (check x : EStateM ε σ α).run s =
      match x with
      | .ok a => .ok a s
      | .error e => .error e s :=
  rfl

variable {s' : σ}

theorem run_check_eq_ok {x : Except ε α} {a : α} :
    (check x : EStateM ε σ α).run s = .ok a s' ↔ x = .ok a ∧ s' = s := by
  cases x with
  | error e => exact ⟨nofun, fun h => nomatch h.1⟩
  | ok b =>
    rw [run_check]
    constructor
    · rintro ⟨⟩
      exact ⟨rfl, rfl⟩
    · rintro ⟨⟨⟩, rfl⟩
      rfl

variable {f : α → EStateM ε σ β} {x : EStateM ε σ α}

theorem run_seq_ok {b : β} :
    (x >>= f).run s = .ok b s' ↔ ∃ a t, x.run s = .ok a t ∧ (f a).run t = .ok b s' := by
  change (match x.run s with
    | .ok a t => (f a).run t
    | .error e t => .error e t) = _ ↔ _
  cases x.run s with
  | error e t => exact ⟨nofun, nofun⟩
  | ok a t =>
    constructor
    · intro h; exact ⟨a, t, rfl, h⟩
    · rintro ⟨_, _, ⟨⟩, h⟩; exact h

theorem run_seq_error {e : ε} :
    (x >>= f).run s = .error e s' ↔
      x.run s = .error e s' ∨ ∃ a t, x.run s = .ok a t ∧ (f a).run t = .error e s' := by
  change (match x.run s with
    | .ok a t => (f a).run t
    | .error e t => .error e t) = _ ↔ _
  cases x.run s with
  | error d t =>
    constructor
    · rintro ⟨⟩
      exact .inl rfl
    · rintro (⟨⟨⟩⟩ | ⟨_, _, ⟨⟩, _⟩)
      rfl
  | ok a t =>
    constructor
    · intro h; exact .inr ⟨a, t, rfl, h⟩
    · rintro (⟨⟨⟩⟩ | ⟨_, _, ⟨⟩, h⟩)
      exact h

theorem run_get_bind {f : σ → EStateM ε σ β} : (get >>= f).run s = (f s).run s := rfl

theorem run_modify_bind {g : σ → σ} {f : PUnit → EStateM ε σ β} :
    (modify g >>= f).run s = (f ⟨⟩).run (g s) :=
  rfl

theorem run_check_bind_ok {x : Except ε α} {b : β} :
    (check x >>= f).run s = .ok b s' ↔ ∃ a, x = .ok a ∧ (f a).run s = .ok b s' := by
  rw [run_seq_ok]
  constructor
  · rintro ⟨a, t, hx, hf⟩
    obtain ⟨hx, ht⟩ := run_check_eq_ok.mp hx
    exact ⟨a, hx, ht ▸ hf⟩
  · rintro ⟨a, hx, hf⟩
    exact ⟨a, s, run_check_eq_ok.mpr ⟨hx, rfl⟩, hf⟩

theorem run_check_bind_error {x : Except ε α} {e : ε} :
    (check x >>= f).run s = .error e s' ↔
      (x = .error e ∧ s' = s) ∨ ∃ a, x = .ok a ∧ (f a).run s = .error e s' := by
  cases x with
  | error d =>
    constructor
    · intro h
      cases h
      exact .inl ⟨rfl, rfl⟩
    · rintro (⟨⟨⟩, rfl⟩ | ⟨_, ⟨⟩, _⟩)
      rfl
  | ok a =>
    constructor
    · intro h
      exact .inr ⟨a, rfl, h⟩
    · rintro (⟨⟨⟩, _⟩ | ⟨_, ⟨⟩, h⟩)
      exact h

/-- The same operation, with another error when it stops. -/
def mapStop {ε' : Type} (f : ε → ε') (x : EStateM ε σ α) : EStateM ε' σ α := fun s =>
  match x.run s with
  | .ok a t => .ok a t
  | .error e t => .error (f e) t

theorem run_mapStop_ok {ε' : Type} {f : ε → ε'} {a : α} :
    (mapStop f x).run s = .ok a s' ↔ x.run s = .ok a s' := by
  change (match x.run s with
    | .ok a t => EStateM.Result.ok a t
    | .error e t => EStateM.Result.error (f e) t) = _ ↔ _
  cases x.run s with
  | ok b t => exact ⟨fun h => by cases h; rfl, fun h => by cases h; rfl⟩
  | error e t => exact ⟨nofun, nofun⟩

theorem run_mapStop_error {ε' : Type} {f : ε → ε'} {e' : ε'} :
    (mapStop f x).run s = .error e' s' ↔ ∃ e, x.run s = .error e s' ∧ e' = f e := by
  change (match x.run s with
    | .ok a t => EStateM.Result.ok a t
    | .error e t => EStateM.Result.error (f e) t) = _ ↔ _
  cases x.run s with
  | ok b t => exact ⟨nofun, nofun⟩
  | error e t =>
    constructor
    · intro h
      cases h
      exact ⟨e, rfl, rfl⟩
    · rintro ⟨_, ⟨⟩, rfl⟩
      rfl

/-! ### Operations that change nothing when they stop -/

/-- The state is never changed. -/
def ReadsOnly (x : EStateM ε σ α) : Prop :=
  (∀ s a s', x.run s = .ok a s' → s' = s) ∧ ∀ s e s', x.run s = .error e s' → s' = s

/-- No stop that counts. -/
def NeverStops (E : ε → Prop) (x : EStateM ε σ α) : Prop :=
  ∀ s e s', x.run s = .error e s' → ¬ E e

/-- After a stop that counts, the state is what it was. -/
def Atomic (E : ε → Prop) (x : EStateM ε σ α) : Prop :=
  ∀ s e s', x.run s = .error e s' → E e → s' = s

theorem readsOnly_get : ReadsOnly (get : EStateM ε σ σ) := by
  refine ⟨?_, ?_⟩
  · rintro s a s' ⟨⟩
    rfl
  · rintro s e s' ⟨⟩

theorem readsOnly_pure (a : α) : ReadsOnly (pure a : EStateM ε σ α) := by
  refine ⟨?_, ?_⟩
  · rintro s a s' ⟨⟩
    rfl
  · rintro s e s' ⟨⟩

theorem readsOnly_check (x : Except ε α) : ReadsOnly (check x : EStateM ε σ α) := by
  refine ⟨fun s a s' h => (run_check_eq_ok.mp h).2, fun s e s' h => ?_⟩
  cases x with
  | error d =>
    cases h
    rfl
  | ok a => cases h

theorem neverStops_modify (f : σ → σ) : NeverStops E (modify f : EStateM ε σ PUnit) := by
  rintro s e s' ⟨⟩

theorem neverStops_get : NeverStops E (get : EStateM ε σ σ) := by
  rintro s e s' ⟨⟩

theorem neverStops_pure (a : α) : NeverStops E (pure a : EStateM ε σ α) := by
  rintro s e s' ⟨⟩

theorem neverStops_check {x : Except ε α} (h : ∀ e, x = .error e → ¬ E e) :
    NeverStops E (check x : EStateM ε σ α) := by
  intro s e s' hrun
  cases x with
  | error d =>
    cases hrun
    exact h e rfl
  | ok a => cases hrun

theorem NeverStops.bind (hx : NeverStops E x) (hf : ∀ a, NeverStops E (f a)) :
    NeverStops E (x >>= f) := by
  intro s e s' h
  rcases run_seq_error.mp h with hx' | ⟨a, t, -, hf'⟩
  · exact hx s e s' hx'
  · exact hf a t e s' hf'

theorem ReadsOnly.atomic (h : ReadsOnly x) : Atomic E x :=
  fun s e s' hrun _ => h.2 s e s' hrun

theorem NeverStops.atomic (h : NeverStops E x) : Atomic E x :=
  fun s e s' hrun hE => absurd hE (h s e s' hrun)

theorem ReadsOnly.bind_atomic (hx : ReadsOnly x) (hf : ∀ a, Atomic E (f a)) :
    Atomic E (x >>= f) := by
  intro s e s' h hE
  rcases run_seq_error.mp h with hx' | ⟨a, t, hok, hf'⟩
  · exact hx.2 s e s' hx'
  · rw [← hx.1 s a t hok]
    exact hf a t e s' hf' hE

/-! ### Operations that go by steps -/

/-- From this state the operation goes from state to state by steps of `R`, however it ends. -/
def FollowsFrom (R : σ → σ → Prop) (s : σ) (x : EStateM ε σ α) : Prop :=
  (∀ a s', x.run s = .ok a s' → Relation.ReflTransGen R s s') ∧
    ∀ e s', x.run s = .error e s' → Relation.ReflTransGen R s s'

section
variable {R : σ → σ → Prop} {s : σ}

theorem followsFrom_pure (a : α) : FollowsFrom R s (pure a : EStateM ε σ α) := by
  refine ⟨?_, ?_⟩
  · rintro a s' ⟨⟩
    exact .refl
  · rintro e s' ⟨⟩

theorem followsFrom_throw (e : ε) : FollowsFrom R s (throw e : EStateM ε σ α) := by
  refine ⟨?_, ?_⟩
  · rintro a s' ⟨⟩
  · rintro e s' ⟨⟩
    exact .refl

theorem followsFrom_modify {g : σ → σ} (hstep : R s (g s)) :
    FollowsFrom R s (modify g : EStateM ε σ PUnit) := by
  refine ⟨?_, ?_⟩
  · rintro a s' ⟨⟩
    exact .single hstep
  · rintro e s' ⟨⟩

theorem FollowsFrom.bind (hx : FollowsFrom R s x)
    (hf : ∀ a s', x.run s = .ok a s' → FollowsFrom R s' (f a)) : FollowsFrom R s (x >>= f) := by
  refine ⟨fun b s' h => ?_, fun e s' h => ?_⟩
  · obtain ⟨a, t, hrun, hrest⟩ := run_seq_ok.mp h
    exact (hx.1 a t hrun).trans ((hf a t hrun).1 b s' hrest)
  · rcases run_seq_error.mp h with herr | ⟨a, t, hrun, hrest⟩
    · exact hx.2 e s' herr
    · exact (hx.1 a t hrun).trans ((hf a t hrun).2 e s' hrest)

theorem FollowsFrom.get_bind {f : σ → EStateM ε σ β} (h : FollowsFrom R s (f s)) :
    FollowsFrom R s (get >>= f) :=
  h

theorem FollowsFrom.modify_bind {g : σ → σ} {f : PUnit → EStateM ε σ β} (hstep : R s (g s))
    (h : FollowsFrom R (g s) (f ⟨⟩)) : FollowsFrom R s (modify g >>= f) := by
  refine (followsFrom_modify hstep).bind ?_
  rintro ⟨⟩ s' ⟨⟩
  exact h

theorem FollowsFrom.check_bind {x : Except ε α} (h : ∀ a, x = .ok a → FollowsFrom R s (f a)) :
    FollowsFrom R s (check x >>= f) := by
  cases x with
  | ok a => exact h a rfl
  | error e => exact followsFrom_throw e

end

end Strangecoin
