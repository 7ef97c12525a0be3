import Strangecoin.Readers

/-! # What a reader recognizes

A reader **recognizes** a relation between byte strings and values if it reads a value
exactly from the strings that are related to it, whatever follows them.  The relation of
a sequence of readers is the composition of theirs, so the strings that a parser accepts
can be read off its text, and none of them is a proper beginning of another.
-/
namespace Strangecoin
open List
namespace Reader
variable {ε α β : Type}

/-- A check of how many bytes are left. -/
def ensure (p : Nat → Bool) (e : ε) : Reader ε Unit := fun bytes =>
  if p bytes.length then .ok ((), bytes) else .error e

/-- The value that is read from all of the bytes; `e` when some are left. -/
def finish (r : Reader ε α) (e : ε) (bytes : List UInt8) : Except ε α := do
  let (a, rest) ← r.run bytes
  guardWith (rest = []) e
  return a

/-- The value that is read, by a reader that checks the length itself. -/
def value (r : Reader ε α) (bytes : List UInt8) : Except ε α := (r.run bytes).map Prod.fst

def Recognizes (r : Reader ε α) (P : List UInt8 → α → Prop) : Prop :=
  ∀ bytes a rest, r.run bytes = .ok (a, rest) ↔ ∃ w, bytes = w ++ rest ∧ P w a

/-- A string of the one relation and then one of the other. -/
def Then (P : List UInt8 → α → Prop) (Q : α → List UInt8 → β → Prop) (w : List UInt8) (b : β) :
    Prop :=
  ∃ u v a, w = u ++ v ∧ P u a ∧ Q a v b

/-- One string for each of the values, of which there are `n`. -/
def Repeated (P : List UInt8 → α → Prop) (n : Nat) (w : List UInt8) (as : List α) : Prop :=
  ∃ ws : List (List UInt8), w = ws.flatten ∧ ws.length = n ∧ List.Forall₂ P ws as

/-- No string is a proper beginning of another. -/
def Delim (P : List UInt8 → α → Prop) : Prop :=
  ∀ w extra a b, P w a → P (w ++ extra) b → extra = []

/-- The reader takes all of the bytes, and checks that there are no more. -/
structure RecognizesAll (r : Reader ε α) (P : List UInt8 → α → Prop) : Prop where
  run : ∀ bytes a rest, r.run bytes = .ok (a, rest) ↔ rest = [] ∧ P bytes a
  delim : Delim P

/-- The parser accepts the strings of `P`. -/
structure Accepts (parse : List UInt8 → Except ε α) (P : List UInt8 → α → Prop) : Prop where
  iff : ∀ bytes a, parse bytes = .ok a ↔ P bytes a
  delim : Delim P

section
variable {r : Reader ε α} {f : α → Reader ε β} {P P' : List UInt8 → α → Prop}
  {Q : α → List UInt8 → β → Prop}

theorem Recognizes.congr (h : Recognizes r P) (hP : ∀ w a, P w a ↔ P' w a) : Recognizes r P' :=
  fun bytes a rest => (h bytes a rest).trans (exists_congr fun w => and_congr_right' (hP w a))

theorem RecognizesAll.congr (h : RecognizesAll r P) (hP : ∀ w a, P w a ↔ P' w a) :
    RecognizesAll r P' where
  run bytes a rest := (h.run bytes a rest).trans (and_congr_right' (hP bytes a))
  delim w extra a b ha hb := h.delim w extra a b ((hP _ _).mpr ha) ((hP _ _).mpr hb)

theorem recognizes_pure (a : α) : Recognizes (pure a : Reader ε α) fun w b => w = [] ∧ b = a := by
  intro bytes b rest
  rw [run_pure_ok]
  constructor
  · rintro ⟨rfl, rfl⟩
    exact ⟨[], rfl, rfl, rfl⟩
  · rintro ⟨w, rfl, rfl, rfl⟩
    exact ⟨rfl, rfl⟩

theorem recognizes_check (x : Except ε α) : Recognizes (check x) fun w a => w = [] ∧ x = .ok a := by
  intro bytes a rest
  rw [run_check_ok]
  constructor
  · rintro ⟨hx, rfl⟩
    exact ⟨[], rfl, rfl, hx⟩
  · rintro ⟨w, rfl, rfl, hx⟩
    exact ⟨hx, rfl⟩

theorem recognizes_take (n : Nat) (e : ε) :
    Recognizes (take n e) fun w v => w.length = n ∧ v = w := by
  intro bytes v rest
  rw [run_take_ok]
  constructor
  · rintro ⟨rfl, hlength⟩
    exact ⟨v, rfl, hlength, rfl⟩
  · rintro ⟨w, rfl, hlength, rfl⟩
    exact ⟨rfl, hlength⟩

theorem recognizes_byte (e : ε) : Recognizes (byte e) fun w b => w = [b] := by
  intro bytes b rest
  rw [run_byte_ok]
  constructor
  · rintro rfl
    exact ⟨[b], rfl, rfl⟩
  · rintro ⟨w, rfl, rfl⟩
    rfl

theorem Recognizes.bind (hr : Recognizes r P) (hf : ∀ a, Recognizes (f a) (Q a)) :
    Recognizes (r >>= f) (Then P Q) := by
  intro bytes b rest
  rw [run_bind_ok]
  constructor
  · rintro ⟨a, mid, ha, hb⟩
    obtain ⟨u, rfl, hu⟩ := (hr _ _ _).mp ha
    obtain ⟨v, rfl, hv⟩ := (hf a _ _ _).mp hb
    exact ⟨u ++ v, (append_assoc u v rest).symm, u, v, a, rfl, hu, hv⟩
  · rintro ⟨w, rfl, u, v, a, rfl, hu, hv⟩
    exact ⟨a, v ++ rest, (hr _ _ _).mpr ⟨u, append_assoc u v rest, hu⟩,
      (hf a _ _ _).mpr ⟨v, rfl, hv⟩⟩

/-- Every element has a string of its own. -/
theorem Recognizes.times (hr : Recognizes r P) (n : Nat) :
    Recognizes (times n r) (Repeated P n) := by
  induction n with
  | zero =>
    refine (recognizes_pure []).congr fun w as => ?_
    constructor
    · rintro ⟨rfl, rfl⟩
      exact ⟨[], rfl, rfl, .nil⟩
    · rintro ⟨ws, rfl, hlength, hws⟩
      obtain rfl := eq_nil_of_length_eq_zero hlength
      cases hws
      exact ⟨rfl, rfl⟩
  | succ n ih =>
    refine (hr.bind fun a => ih.bind fun as => recognizes_pure (a :: as)).congr fun w as => ?_
    constructor
    · rintro ⟨u, _, a, rfl, hu, v, _, as', rfl, ⟨ws, rfl, hlength, hws⟩, rfl, rfl⟩
      exact ⟨u :: ws, by simp, by simp [hlength], .cons hu hws⟩
    · rintro ⟨ws, rfl, hlength, hws⟩
      cases hws with
      | nil => cases hlength
      | @cons u a ws as hu hws =>
        exact ⟨u, ws.flatten, a, rfl, hu, ws.flatten, [], as, by simp,
          ⟨ws, rfl, Nat.succ.inj hlength, hws⟩, rfl, rfl⟩

variable {bytes : List UInt8} {e : ε} {p : Nat → Bool}

theorem run_ensure_ok {rest : List UInt8} {u : Unit} :
    (ensure p e).run bytes = .ok (u, rest) ↔ p bytes.length = true ∧ rest = bytes := by
  change (if p bytes.length then Except.ok ((), bytes) else .error e) = _ ↔ _
  split
  · rename_i h
    constructor
    · rintro ⟨⟩
      exact ⟨h, rfl⟩
    · rintro ⟨_, rfl⟩
      rfl
  · rename_i h
    exact ⟨nofun, fun hp => absurd hp.1 h⟩

/-- A check that is passed whenever the rest can be read. -/
theorem Recognizes.ensure (hr : Recognizes r P) (hp : ∀ w a k, P w a → p (w.length + k) = true) :
    Recognizes (ensure p e >>= fun _ => r) P := by
  intro bytes a rest
  rw [run_bind_ok]
  constructor
  · rintro ⟨_, _, hensure, hrun⟩
    obtain ⟨-, rfl⟩ := run_ensure_ok.mp hensure
    exact (hr _ _ _).mp hrun
  · rintro ⟨w, rfl, hw⟩
    refine ⟨(), _, run_ensure_ok.mpr ⟨?_, rfl⟩, (hr _ _ _).mpr ⟨w, rfl, hw⟩⟩
    rw [length_append]
    exact hp w a rest.length hw

/-! ### Beginnings -/

theorem Recognizes.inj (hr : Recognizes r P) {u u' v v' : List UInt8} {a a' : α} (hu : P u a)
    (hu' : P u' a') (h : u ++ v = u' ++ v') : a = a' ∧ v = v' := by
  have hrun := (hr (u ++ v) a v).mpr ⟨u, rfl, hu⟩
  have hrun' := (hr (u' ++ v') a' v').mpr ⟨u', rfl, hu'⟩
  rw [h, hrun'] at hrun
  obtain ⟨ha, hv⟩ := ok_pair hrun
  exact ⟨ha.symm, hv.symm⟩

theorem Recognizes.delim (hr : Recognizes r P) : Delim P := by
  intro w extra a b ha hb
  exact (hr.inj ha hb (append_nil (w ++ extra)).symm).2

theorem Recognizes.delim_then (hr : Recognizes r P) (hQ : ∀ a, Delim (Q a)) : Delim (Then P Q) := by
  rintro w extra b b' ⟨u, v, a, rfl, hu, hv⟩ ⟨u', v', a', hw, hu', hv'⟩
  rw [append_assoc] at hw
  obtain ⟨rfl, rfl⟩ := hr.inj hu hu' hw
  exact hQ a v extra b b' hv hv'

/-! ### Readers that take everything -/

theorem Recognizes.bindAll (hr : Recognizes r P) (hf : ∀ a, RecognizesAll (f a) (Q a)) :
    RecognizesAll (r >>= f) (Then P Q) where
  delim := hr.delim_then fun a => (hf a).delim
  run bytes b rest := by
    rw [run_bind_ok]
    constructor
    · rintro ⟨a, mid, ha, hb⟩
      obtain ⟨u, rfl, hu⟩ := (hr _ _ _).mp ha
      obtain ⟨rfl, hv⟩ := ((hf a).run _ _ _).mp hb
      exact ⟨rfl, u, mid, a, rfl, hu, hv⟩
    · rintro ⟨rfl, u, v, a, rfl, hu, hv⟩
      exact ⟨a, v, (hr _ _ _).mpr ⟨u, rfl, hu⟩, ((hf a).run _ _ _).mpr ⟨rfl, hv⟩⟩

theorem RecognizesAll.ensure (hr : RecognizesAll r P) (hp : ∀ w a, P w a → p w.length = true) :
    RecognizesAll (Reader.ensure p e >>= fun _ => r) P where
  delim := hr.delim
  run bytes a rest := by
    rw [run_bind_ok]
    constructor
    · rintro ⟨_, _, hensure, hrun⟩
      obtain ⟨-, rfl⟩ := run_ensure_ok.mp hensure
      exact (hr.run _ _ _).mp hrun
    · rintro ⟨rfl, hw⟩
      exact ⟨(), bytes, run_ensure_ok.mpr ⟨hp bytes a hw, rfl⟩, (hr.run _ _ _).mpr ⟨rfl, hw⟩⟩

/-- A check that exactly the bytes of the rest are left. -/
theorem Recognizes.exactly {n : Nat} (hr : Recognizes r P) (hp : ∀ k, p k = true ↔ k = n)
    (hlength : ∀ w a, P w a → w.length = n) :
    RecognizesAll (Reader.ensure p e >>= fun _ => r) P where
  delim := hr.delim
  run bytes a rest := by
    rw [run_bind_ok]
    constructor
    · rintro ⟨_, _, hensure, hrun⟩
      obtain ⟨hn, rfl⟩ := run_ensure_ok.mp hensure
      obtain ⟨w, hw, hP⟩ := (hr _ _ _).mp hrun
      have hrest := congrArg List.length hw
      rw [length_append, hlength w a hP, (hp _).mp hn] at hrest
      obtain rfl := eq_nil_of_length_eq_zero (show rest.length = 0 by omega)
      rw [append_nil] at hw
      exact ⟨rfl, hw ▸ hP⟩
    · rintro ⟨rfl, hP⟩
      refine ⟨(), bytes, run_ensure_ok.mpr ⟨(hp _).mpr (hlength _ _ hP), rfl⟩, ?_⟩
      exact (hr _ _ _).mpr ⟨bytes, (append_nil _).symm, hP⟩

/-! ### Parsers -/

theorem Recognizes.finish (hr : Recognizes r P) : Accepts (finish r e) P where
  delim := hr.delim
  iff bytes a := by
    unfold Reader.finish
    rw [bind_eq_ok]
    constructor
    · rintro ⟨⟨a', rest⟩, hrun, h⟩
      obtain ⟨_, hguard, h⟩ := bind_eq_ok.mp h
      obtain rfl := guardWith_eq_ok.mp hguard
      cases h
      obtain ⟨w, rfl, hw⟩ := (hr _ _ _).mp hrun
      rwa [append_nil]
    · intro h
      refine ⟨(a, []), (hr _ _ _).mpr ⟨bytes, (append_nil _).symm, h⟩, ?_⟩
      exact bind_eq_ok.mpr ⟨(), guardWith_eq_ok.mpr rfl, rfl⟩

theorem RecognizesAll.value (hr : RecognizesAll r P) : Accepts (value r) P where
  delim := hr.delim
  iff bytes a := by
    change Prod.fst <$> r.run bytes = .ok a ↔ _
    rw [map_eq_ok]
    constructor
    · rintro ⟨⟨a', rest⟩, hrun, rfl⟩
      exact ((hr.run _ _ _).mp hrun).2
    · exact fun h => ⟨(a, []), (hr.run _ _ _).mpr ⟨rfl, h⟩, rfl⟩

/-- What is accepted is not accepted with more bytes or with fewer. -/
theorem Accepts.rejects {parse : List UInt8 → Except ε α} (h : Accepts parse P) {extra : List UInt8}
    {a : α} (ha : parse bytes = .ok a) (hextra : extra ≠ []) :
    ∃ e, parse (bytes ++ extra) = .error e := by
  cases hparse : parse (bytes ++ extra) with
  | error e => exact ⟨e, rfl⟩
  | ok b => exact absurd (h.delim _ _ _ _ ((h.iff _ _).mp ha) ((h.iff _ _).mp hparse)) hextra

end

section
variable {P : List UInt8 → α → Prop} {n k : Nat} {w : List UInt8} {as : List α}

theorem repeated_length (hP : ∀ w a, P w a → w.length = k) (h : Repeated P n w as) :
    w.length = n * k := by
  obtain ⟨ws, rfl, rfl, hws⟩ := h
  induction hws with
  | nil => simp
  | cons h _ ih => simp [hP _ _ h, ih, Nat.succ_mul, Nat.add_comm]

theorem le_repeated_length (hP : ∀ w a, P w a → k ≤ w.length) (h : Repeated P n w as) :
    n * k ≤ w.length := by
  obtain ⟨ws, rfl, rfl, hws⟩ := h
  induction hws with
  | nil => simp
  | cons h _ ih =>
    have hhead := hP _ _ h
    simp only [flatten_cons, length_append, length_cons, Nat.succ_mul]
    omega

theorem forall₂_encoded {enc : α → List UInt8} {V : α → Prop} {ws : List (List UInt8)} :
    List.Forall₂ (fun w a => w = enc a ∧ V a) ws as ↔ ws = as.map enc ∧ ∀ a ∈ as, V a := by
  constructor
  · intro h
    induction h with
    | nil => simp
    | cons h _ ih =>
      obtain ⟨rfl, hV⟩ := h
      obtain ⟨rfl, hall⟩ := ih
      exact ⟨rfl, forall_mem_cons.mpr ⟨hV, hall⟩⟩
  · rintro ⟨rfl, hall⟩
    rw [forall₂_map_left_iff, forall₂_same]
    exact fun a ha => ⟨rfl, hall a ha⟩

end

end Reader
end Strangecoin
