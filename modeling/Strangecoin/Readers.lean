import Strangecoin.Bytes

/-! # Readers of byte strings

A reader takes a value off the front of a buffer.  Two facts are kept about a
reader: the bytes it accepts for a value (`Reads`), and that the bytes it took
are those an encoder writes (`Exact`).  Both are closed under sequencing.

An encoding is self-delimiting (`Delimits`) when its end can be told from the bytes.
-/
namespace Strangecoin
open List

/-- A computation that takes bytes off the front of a buffer, or fails. -/
abbrev Reader (ε α : Type) := StateT (List UInt8) (Except ε) α

namespace Reader
variable {ε α β : Type}

/-- The next `n` bytes; `e` when there are fewer. -/
def take (n : Nat) (e : ε) : Reader ε (List UInt8) := fun bytes =>
  if bytes.length < n then .error e else .ok (bytes.take n, bytes.drop n)

/-- The next byte. -/
def byte (e : ε) : Reader ε UInt8
  | [] => .error e
  | b :: bytes => .ok (b, bytes)

/-- A computation that reads nothing. -/
def check (x : Except ε α) : Reader ε α := fun bytes => x.map fun a => (a, bytes)

/-- A reader run a number of times. -/
def times : Nat → Reader ε α → Reader ε (List α)
  | 0, _ => pure []
  | n + 1, r => do
    let a ← r
    let as ← times n r
    return a :: as

/-- A reader with its errors renamed. -/
def mapError {ε' : Type} (f : ε → ε') (r : Reader ε α) : Reader ε' α :=
  fun bytes => (r.run bytes).mapError f

/-- The bytes `w`, whatever follows them, are read as `a`. -/
def Reads (r : Reader ε α) (w : List UInt8) (a : α) : Prop :=
  ∀ rest, r.run (w ++ rest) = .ok (a, rest)

/-- The bytes taken for a value are its encoding. -/
def Exact (r : Reader ε α) (enc : α → List UInt8) : Prop :=
  ∀ bytes a rest, r.run bytes = .ok (a, rest) → bytes = enc a ++ rest

/-! ### Sequencing -/

section
variable {r : Reader ε α} {f : α → Reader ε β} {bytes rest w v : List UInt8} {a : α} {b : β}

theorem run_bind_ok :
    (r >>= f).run bytes = .ok (b, rest) ↔
      ∃ a mid, r.run bytes = .ok (a, mid) ∧ (f a).run mid = .ok (b, rest) := by
  rw [StateT.run_bind, bind_eq_ok]
  constructor
  · rintro ⟨⟨a, mid⟩, h, h'⟩
    exact ⟨a, mid, h, h'⟩
  · rintro ⟨a, mid, h, h'⟩
    exact ⟨(a, mid), h, h'⟩

theorem Exact.bind {enc : α → List UInt8} (hr : Exact r enc)
    (h : (r >>= f).run bytes = .ok (b, rest)) :
    ∃ a mid, bytes = enc a ++ mid ∧ (f a).run mid = .ok (b, rest) := by
  obtain ⟨a, mid, ha, hf⟩ := run_bind_ok.mp h
  exact ⟨a, mid, hr _ _ _ ha, hf⟩

theorem run_pure_ok {a' : α} :
    (pure a : Reader ε α).run bytes = .ok (a', rest) ↔ a' = a ∧ rest = bytes := by
  rw [StateT.run_pure]
  constructor
  · rintro ⟨⟩
    exact ⟨rfl, rfl⟩
  · rintro ⟨rfl, rfl⟩
    rfl

theorem run_check_ok {x : Except ε α} :
    (check x).run bytes = .ok (a, rest) ↔ x = .ok a ∧ rest = bytes := by
  cases x with
  | error e => exact ⟨nofun, fun h => nomatch h.1⟩
  | ok a' =>
    constructor
    · rintro ⟨⟩
      exact ⟨rfl, rfl⟩
    · rintro ⟨⟨⟩, rfl⟩
      rfl

variable {e : ε} {n : Nat}

theorem run_take_ok : (take n e).run bytes = .ok (w, rest) ↔ bytes = w ++ rest ∧ w.length = n := by
  change (if bytes.length < n then Except.error e else .ok (bytes.take n, bytes.drop n)) = _ ↔ _
  split
  · rename_i hshort
    refine ⟨nofun, ?_⟩
    rintro ⟨rfl, rfl⟩
    rw [length_append] at hshort
    omega
  · rename_i hlong
    constructor
    · intro h
      obtain ⟨rfl, rfl⟩ := ok_pair h
      exact ⟨(take_append_drop n bytes).symm, length_take_of_le (by omega)⟩
    · rintro ⟨rfl, rfl⟩
      rw [take_left, drop_left]

theorem run_byte_ok {b : UInt8} : (byte e).run bytes = .ok (b, rest) ↔ bytes = b :: rest := by
  cases bytes with
  | nil => exact ⟨nofun, nofun⟩
  | cons c bytes =>
    constructor
    · rintro ⟨⟩
      rfl
    · rintro ⟨⟩
      rfl

theorem run_bind_error (h : r.run bytes = .error e) : (r >>= f).run bytes = .error e := by
  rw [StateT.run_bind, h]
  rfl

theorem Reads.run_bind (h : Reads r w a) : (r >>= f).run (w ++ rest) = (f a).run rest := by
  rw [StateT.run_bind, h rest]
  rfl

theorem Reads.bind (h : Reads r w a) (h' : Reads (f a) v b) : Reads (r >>= f) (w ++ v) b := by
  intro rest
  rw [append_assoc, h.run_bind]
  exact h' rest

theorem reads_pure : Reads (pure a : Reader ε α) [] a := fun _ => rfl

theorem reads_take (h : w.length = n) : Reads (take n e) w w :=
  fun _ => run_take_ok.mpr ⟨rfl, h⟩

theorem reads_byte {b : UInt8} : Reads (byte e) [b] b := fun _ => rfl

theorem reads_check {x : Except ε α} (h : x = .ok a) : Reads (check x) [] a :=
  fun _ => run_check_ok.mpr ⟨h, rfl⟩

theorem reads_times {ws : List (List UInt8)} {as : List α} (h : List.Forall₂ (Reads r) ws as) :
    Reads (times as.length r) ws.flatten as := by
  induction h with
  | nil => exact reads_pure
  | @cons w a ws as hw _ ih =>
    have hrest := ih.bind (f := fun as => (pure (a :: as) : Reader ε (List α))) reads_pure
    rw [append_nil] at hrest
    exact hw.bind hrest

/-- Every element is read from bytes of its own. -/
theorem times_ok {P : List UInt8 → α → Prop} {as : List α}
    (hr : ∀ bytes a rest, r.run bytes = .ok (a, rest) → ∃ w, bytes = w ++ rest ∧ P w a)
    (h : (times n r).run bytes = .ok (as, rest)) :
    ∃ ws : List (List UInt8), bytes = ws.flatten ++ rest ∧ ws.length = n ∧
      List.Forall₂ P ws as := by
  induction n generalizing bytes as with
  | zero =>
    obtain ⟨rfl, rfl⟩ := run_pure_ok.mp h
    exact ⟨[], rfl, rfl, .nil⟩
  | succ n ih =>
    obtain ⟨a, _, ha, h⟩ := run_bind_ok.mp h
    obtain ⟨as', _, has, h⟩ := run_bind_ok.mp h
    obtain ⟨rfl, rfl⟩ := run_pure_ok.mp h
    obtain ⟨w, rfl, hw⟩ := hr _ _ _ ha
    obtain ⟨ws, rfl, hlength, hws⟩ := ih has
    exact ⟨w :: ws, by simp, by simp [hlength], .cons hw hws⟩

theorem run_mapError_ok {ε' : Type} {g : ε → ε'} :
    (mapError g r).run bytes = .ok (a, rest) ↔ r.run bytes = .ok (a, rest) := by
  change (r.run bytes).mapError g = _ ↔ _
  cases r.run bytes with
  | error e => exact ⟨nofun, nofun⟩
  | ok x =>
    constructor
    · rintro ⟨⟩
      rfl
    · rintro ⟨⟩
      rfl

theorem Reads.mapError {ε' : Type} {g : ε → ε'} (h : Reads r w a) : Reads (mapError g r) w a :=
  fun rest => run_mapError_ok.mpr (h rest)

end

end Reader

/-! ### Failures -/

namespace Reader
variable {ε α β : Type}

/-- The errors a reader stops with. -/
def FailsWith (r : Reader ε α) (E : ε → Prop) : Prop :=
  ∀ bytes e, r.run bytes = .error e → E e

section
variable {r : Reader ε α} {f : α → Reader ε β} {E : ε → Prop}

theorem failsWith_pure {a : α} : FailsWith (pure a : Reader ε α) E := nofun

theorem FailsWith.bind (hr : FailsWith r E) (hf : ∀ a, FailsWith (f a) E) :
    FailsWith (r >>= f) E := by
  intro bytes e h
  rw [StateT.run_bind, bind_eq_error] at h
  rcases h with h | ⟨⟨a, rest⟩, -, h⟩
  · exact hr bytes e h
  · exact hf a rest e h

theorem failsWith_take {n : Nat} {e : ε} (he : E e) : FailsWith (take n e) E := by
  intro bytes e' h
  change (if bytes.length < n then Except.error e else .ok _) = _ at h
  split at h
  · exact Except.error.inj h ▸ he
  · exact absurd h nofun

theorem failsWith_mapError {ε' : Type} {r : Reader ε' α} {g : ε' → ε} (hg : ∀ e, E (g e)) :
    FailsWith (r.mapError g) E := by
  intro bytes e h
  change (r.run bytes).mapError g = _ at h
  cases hr : r.run bytes with
  | error e' =>
    rw [hr] at h
    exact Except.error.inj h ▸ hg e'
  | ok x =>
    rw [hr] at h
    exact absurd h nofun

theorem failsWith_check {ε' : Type} {x : Except ε' α} {g : ε' → ε} (hg : ∀ e, E (g e)) :
    FailsWith (check (x.mapError g)) E := by
  intro bytes e h
  cases x with
  | error e' => exact Except.error.inj h ▸ hg e'
  | ok a => exact absurd h nofun

theorem FailsWith.times (hr : FailsWith r E) (n : Nat) : FailsWith (times n r) E := by
  induction n with
  | zero => exact failsWith_pure
  | succ n ih => exact hr.bind fun _ => ih.bind fun _ => failsWith_pure

end

end Reader

/-! ### Self-delimiting encodings -/

section
variable {α β : Type}

/-- On the values of `P`, the bytes say where an encoding ends. -/
def Delimits (enc : α → List UInt8) (P : α → Prop) : Prop :=
  ∀ a b x y, P a → P b → enc a ++ x = enc b ++ y → a = b ∧ x = y

variable {enc : α → List UInt8}

theorem Delimits.total {a b : α} {x y : List UInt8} (h : Delimits enc fun _ => True)
    (heq : enc a ++ x = enc b ++ y) : a = b ∧ x = y :=
  h a b x y trivial trivial heq

/-- An injective encoding of fixed length. -/
theorem delimits_of_length {n : Nat} (hlength : ∀ a, (enc a).length = n)
    (hinj : Function.Injective enc) : Delimits enc fun _ => True := by
  intro a b x y _ _ h
  obtain ⟨henc, hrest⟩ := append_inj h ((hlength a).trans (hlength b).symm)
  exact ⟨hinj henc, hrest⟩

/-- The elements of two lists of the same length. -/
theorem Delimits.flatMap {P : α → Prop} (h : Delimits enc P) {as bs : List α} {x y : List UInt8}
    (hlength : as.length = bs.length) (ha : ∀ a ∈ as, P a) (hb : ∀ b ∈ bs, P b)
    (heq : as.flatMap enc ++ x = bs.flatMap enc ++ y) : as = bs ∧ x = y := by
  induction as generalizing bs with
  | nil =>
    obtain rfl := eq_nil_of_length_eq_zero hlength.symm
    exact ⟨rfl, heq⟩
  | cons a as ih =>
    cases bs with
    | nil => exact absurd hlength (by simp)
    | cons b bs =>
      rw [flatMap_cons, flatMap_cons, append_assoc, append_assoc] at heq
      obtain ⟨rfl, hrest⟩ := h a b _ _ (ha a (by simp)) (hb b (by simp)) heq
      obtain ⟨rfl, rfl⟩ := ih (by simpa using hlength) (fun c hc => ha c (by simp [hc]))
        (fun c hc => hb c (by simp [hc])) hrest
      exact ⟨rfl, rfl⟩

end

/-! ### Big-endian numbers -/

/-- The number a byte string stands for, least significant byte first. -/
def leNat : List UInt8 → Nat
  | [] => 0
  | b :: bytes => b.toNat + 256 * leNat bytes

theorem leNat_leBytes {n x : Nat} (h : x < 256 ^ n) : leNat (leBytes n x) = x := by
  induction n generalizing x with
  | zero =>
    obtain rfl : x = 0 := by simpa using h
    rfl
  | succ n ih =>
    have hdiv : x / 256 < 256 ^ n := Nat.div_lt_of_lt_mul (by rw [pow_succ] at h; linarith)
    rw [leBytes, leNat, ih hdiv, UInt8.toNat_ofNat']
    omega

theorem leBytes_leNat (bytes : List UInt8) : leBytes bytes.length (leNat bytes) = bytes := by
  induction bytes with
  | nil => rfl
  | cons b bytes ih =>
    have hb := b.toNat_lt
    have hlow : (b.toNat + 256 * leNat bytes) % 256 = b.toNat := by omega
    have hhigh : (b.toNat + 256 * leNat bytes) / 256 = leNat bytes := by omega
    rw [length_cons, leNat, leBytes, hlow, hhigh, ih, UInt8.ofNat_toNat]

theorem leNat_lt (bytes : List UInt8) : leNat bytes < 256 ^ bytes.length := by
  induction bytes with
  | nil => simp [leNat]
  | cons b bytes ih =>
    have hb := b.toNat_lt
    rw [length_cons, leNat, pow_succ]
    omega

/-- `u32::from_be_bytes`. -/
def fromBeBytes32 (bytes : List UInt8) : UInt32 := UInt32.ofNat (leNat bytes.reverse)

/-- `u64::from_be_bytes`. -/
def fromBeBytes64 (bytes : List UInt8) : UInt64 := UInt64.ofNat (leNat bytes.reverse)

@[simp] theorem fromBeBytes64_toBeBytes (x : UInt64) : fromBeBytes64 (toBeBytes x) = x := by
  have hx := x.toNat_lt
  rw [fromBeBytes64, toBeBytes, reverse_reverse, leNat_leBytes (by omega), UInt64.ofNat_toNat]

@[simp] theorem fromBeBytes32_toBeBytes32 (x : UInt32) : fromBeBytes32 (toBeBytes32 x) = x := by
  have hx := x.toNat_lt
  rw [fromBeBytes32, toBeBytes32, reverse_reverse, leNat_leBytes (by omega),
    UInt32.ofNat_toNat]

variable {bytes : List UInt8}

theorem toBeBytes_fromBeBytes64 (h : bytes.length = 8) :
    toBeBytes (fromBeBytes64 bytes) = bytes := by
  have hlt := leNat_lt bytes.reverse
  rw [length_reverse, h] at hlt
  have hnat : (fromBeBytes64 bytes).toNat = leNat bytes.reverse := UInt64.toNat_ofNat_of_lt (by omega)
  have hlength : bytes.reverse.length = 8 := by rw [length_reverse, h]
  rw [toBeBytes, hnat, ← hlength, leBytes_leNat, reverse_reverse]

theorem toBeBytes32_fromBeBytes32 (h : bytes.length = 4) :
    toBeBytes32 (fromBeBytes32 bytes) = bytes := by
  have hlt := leNat_lt bytes.reverse
  rw [length_reverse, h] at hlt
  have hnat : (fromBeBytes32 bytes).toNat = leNat bytes.reverse :=
    UInt32.toNat_ofNat_of_lt (by omega)
  have hlength : bytes.reverse.length = 4 := by rw [length_reverse, h]
  rw [toBeBytes32, hnat, ← hlength, leBytes_leNat, reverse_reverse]

theorem delimits_toBeBytes : Delimits toBeBytes fun _ => True :=
  delimits_of_length length_toBeBytes (Function.LeftInverse.injective fromBeBytes64_toBeBytes)

theorem delimits_toBeBytes32 : Delimits toBeBytes32 fun _ => True :=
  delimits_of_length length_toBeBytes32 (Function.LeftInverse.injective fromBeBytes32_toBeBytes32)

end Strangecoin
