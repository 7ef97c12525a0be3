import Mathlib

/-! # Decimal numerals

Numerals as they are printed, without leading zeros, and as Rust's `from_str`
reads them: with any number of leading zeros and an optional plus sign.  A
numeral is printed back as it was read exactly if it has neither.
-/
namespace Strangecoin

/-- The digits of a numeral after its optional sign. -/
def unsignedDigits : List Char → List Char
  | '+' :: digits => digits
  | digits => digits

/-- `from_str` of an unsigned type with `bound` values. -/
def parseUnsigned (bound : Nat) (s : List Char) : Option Nat :=
  let digits := unsignedDigits s
  if digits ≠ [] ∧ digits.all Char.isDigit ∧ Nat.ofDigitChars 10 digits 0 < bound then
    some (Nat.ofDigitChars 10 digits 0)
  else none

theorem unsignedDigits_eq (s : List Char) : s = unsignedDigits s ∨ s = '+' :: unsignedDigits s := by
  unfold unsignedDigits
  split
  · exact .inr rfl
  · exact .inl rfl

theorem parseUnsigned_eq_some {bound n : Nat} {s : List Char} :
    parseUnsigned bound s = some n ↔
      unsignedDigits s ≠ [] ∧ (unsignedDigits s).all Char.isDigit ∧
        Nat.ofDigitChars 10 (unsignedDigits s) 0 = n ∧ n < bound := by
  unfold parseUnsigned
  dsimp only
  split
  · rename_i h
    rw [Option.some.injEq]
    constructor
    · rintro rfl
      exact ⟨h.1, h.2.1, rfl, h.2.2⟩
    · exact fun h' => h'.2.2.1
  · rename_i h
    refine ⟨nofun, ?_⟩
    rintro ⟨hne, hall, rfl, hlt⟩
    exact absurd ⟨hne, hall, hlt⟩ h

/-! ### Printed numerals -/

theorem isDigit_toDigits {n : Nat} {c : Char} (h : c ∈ Nat.toDigits 10 n) : c.isDigit = true :=
  Nat.isDigit_of_mem_toDigits (by omega) (by omega) h

theorem unsignedDigits_of_isDigit {s : List Char} (h : s.all Char.isDigit) :
    unsignedDigits s = s := by
  unfold unsignedDigits
  split
  · exact absurd h (by simp [Char.isDigit])
  · rfl

/-- What is printed is read back. -/
theorem parseUnsigned_toDigits {bound n : Nat} (h : n < bound) :
    parseUnsigned bound (Nat.toDigits 10 n) = some n := by
  have hall : (Nat.toDigits 10 n).all Char.isDigit :=
    List.all_eq_true.mpr fun _ hc => isDigit_toDigits hc
  rw [parseUnsigned_eq_some, unsignedDigits_of_isDigit hall]
  exact ⟨Nat.toDigits_ne_nil, hall, Nat.ofDigitChars_toDigits (by omega) (by omega), h⟩

/-- Positive numerals are printed without a leading zero. -/
theorem head?_toDigits_ne {n : Nat} (h : 0 < n) : (Nat.toDigits 10 n).head? ≠ some '0' := by
  induction n using Nat.strong_induction_on with
  | _ n ih =>
    rw [Nat.toDigits_eq_if (by omega)]
    split
    · interval_cases n <;> decide
    · have hdiv := ih (n / 10) (by omega) (by omega)
      have hne : Nat.toDigits 10 (n / 10) ≠ [] := Nat.toDigits_ne_nil
      rwa [List.head?_append_of_ne_nil _ hne]

/-! ### Numerals that are read -/

theorem digitChar_sub {c : Char} (h : c.isDigit = true) :
    c.toNat - '0'.toNat < 10 ∧ (c.toNat - '0'.toNat).digitChar = c := by
  rw [Char.isDigit, Bool.and_eq_true, decide_eq_true_eq, decide_eq_true_eq] at h
  have hlow : 48 ≤ c.toNat := UInt32.le_iff_toNat_le.mp h.1
  have hhigh : c.toNat ≤ 57 := UInt32.le_iff_toNat_le.mp h.2
  have hofNat := Char.ofNat_toNat c
  generalize c.toNat = n at *
  subst hofNat
  interval_cases n <;> decide

/-- A numeral without a leading zero is what is printed for its value. -/
theorem toDigits_ofDigitChars {digits : List Char} (h : digits.all Char.isDigit)
    (hhead : digits.head? ≠ some '0') (hne : digits ≠ []) :
    0 < Nat.ofDigitChars 10 digits 0 ∧ Nat.toDigits 10 (Nat.ofDigitChars 10 digits 0) = digits := by
  induction digits using List.reverseRecOn with
  | nil => exact absurd rfl hne
  | append_singleton digits c ih =>
    rw [List.all_append, Bool.and_eq_true] at h
    obtain ⟨hlt, hchar⟩ := digitChar_sub (c := c) (by simpa using h.2)
    rw [Nat.ofDigitChars_append, Nat.ofDigitChars_cons]
    change 0 < 10 * Nat.ofDigitChars 10 digits 0 + (c.toNat - '0'.toNat) ∧
      Nat.toDigits 10 (10 * Nat.ofDigitChars 10 digits 0 + (c.toNat - '0'.toNat)) = _
    rcases List.eq_nil_or_concat digits with rfl | ⟨_, _, rfl⟩
    · have hpos : c.toNat - '0'.toNat ≠ 0 := by
        intro hzero
        rw [hzero] at hchar
        exact hhead (congrArg some hchar.symm)
      refine ⟨by omega, ?_⟩
      rw [Nat.toDigits_of_lt_base (by simpa [Nat.ofDigitChars] using hlt)]
      simpa [Nat.ofDigitChars] using hchar
    · rw [List.head?_append_of_ne_nil _ (by simp)] at hhead
      obtain ⟨hpos, hdigits⟩ := ih h.1 hhead (by simp)
      generalize Nat.ofDigitChars 10 _ 0 = v at hpos hdigits ⊢
      refine ⟨by omega, ?_⟩
      rw [Nat.toDigits_eq_if (by omega), if_neg (by omega), Nat.mul_add_mod,
        Nat.mod_eq_of_lt hlt, hchar, Nat.mul_add_div (by omega), Nat.div_eq_of_lt hlt, Nat.add_zero,
        hdigits]

end Strangecoin
