import Strangecoin.Types

/-! # Hexadecimal text

`hex::encode` and `hex::decode`: lower case out, both cases in, an error for an odd
number of bytes and for the first byte that is not a digit.
-/
namespace Strangecoin
open List

/-- `hex::FromHexError`. -/
inductive FromHexError where
  | invalidHexCharacter (c : Char) (index : Nat)
  | oddLength
deriving DecidableEq, Repr

/-- The value of a digit at a position of the text. -/
def hexVal (c : UInt8) (index : Nat) : Except FromHexError UInt8 :=
  if 65 ≤ c ∧ c ≤ 70 then .ok (c - 65 + 10)
  else if 97 ≤ c ∧ c ≤ 102 then .ok (c - 97 + 10)
  else if 48 ≤ c ∧ c ≤ 57 then .ok (c - 48)
  else .error (.invalidHexCharacter (Char.ofUInt8 c) index)

/-- The bytes of the pairs of digits from a position on. -/
def hexDecodePairs : List UInt8 → Nat → Except FromHexError (List UInt8)
  | hi :: lo :: rest, index => do
    let h ← hexVal hi index
    let l ← hexVal lo (index + 1)
    let bytes ← hexDecodePairs rest (index + 2)
    return ((h <<< 4) ||| l) :: bytes
  | _, _ => .ok []

/-- `hex::decode`. -/
def hexDecode (text : String) : Except FromHexError (List UInt8) :=
  if (asBytes text).length % 2 ≠ 0 then .error .oddLength else hexDecodePairs (asBytes text) 0

def hexDigits : List Char :=
  ['0', '1', '2', '3', '4', '5', '6', '7', '8', '9', 'a', 'b', 'c', 'd', 'e', 'f']

def hexDigit (d : UInt8) : Char := hexDigits.getD d.toNat '0'

def hexOfByte (b : UInt8) : List Char := [hexDigit (b >>> 4), hexDigit (b &&& 15)]

/-- `hex::encode`. -/
def hexEncode (bytes : List UInt8) : String := String.ofList (bytes.flatMap hexOfByte)

/-! ### The codec -/

theorem hexVal_hexDigit (d : Fin 16) (index : Nat) :
    ∃ c, String.utf8EncodeChar (hexDigit (UInt8.ofNat d)) = [c] ∧
      hexVal c index = .ok (UInt8.ofNat d) := by
  fin_cases d <;> exact ⟨_, rfl, rfl⟩

theorem nibbles (b : UInt8) :
    ∃ h l : Fin 16, b >>> 4 = UInt8.ofNat h ∧ b &&& 15 = UInt8.ofNat l ∧
      (UInt8.ofNat h <<< 4) ||| UInt8.ofNat l = b := by
  have hall : ∀ n : Fin 256, ∃ h l : Fin 16, UInt8.ofNat n >>> 4 = UInt8.ofNat h ∧
      UInt8.ofNat n &&& 15 = UInt8.ofNat l ∧
      (UInt8.ofNat h <<< 4) ||| UInt8.ofNat l = UInt8.ofNat n := by
    intro n
    refine ⟨⟨n / 16, by omega⟩, ⟨n % 16, by omega⟩, ?_⟩
    revert n
    decide +kernel
  have hb := hall ⟨b.toNat, b.toNat_lt⟩
  rwa [UInt8.ofNat_toNat] at hb

theorem asBytes_ofList (chars : List Char) :
    asBytes (String.ofList chars) = chars.flatMap String.utf8EncodeChar := by
  simp [asBytes, List.utf8Encode]

theorem length_asBytes_hexEncode (bytes : List UInt8) :
    (asBytes (hexEncode bytes)).length = 2 * bytes.length := by
  rw [hexEncode, asBytes_ofList]
  induction bytes with
  | nil => rfl
  | cons b bytes ih =>
    obtain ⟨h, l, hh, hl, -⟩ := nibbles b
    obtain ⟨ch, hch, -⟩ := hexVal_hexDigit h 0
    obtain ⟨cl, hcl, -⟩ := hexVal_hexDigit l 0
    rw [flatMap_cons, flatMap_append, length_append, ih, hexOfByte, hh, hl]
    simp only [flatMap_cons, flatMap_nil, hch, hcl, append_nil, length_append,
      length_cons, length_nil]
    omega

theorem hexDecodePairs_encoded (bytes : List UInt8) (index : Nat) :
    hexDecodePairs ((bytes.flatMap hexOfByte).flatMap
      String.utf8EncodeChar) index = .ok bytes := by
  induction bytes generalizing index with
  | nil => rfl
  | cons b bytes ih =>
    obtain ⟨h, l, hh, hl, hb⟩ := nibbles b
    obtain ⟨ch, hch, hvh⟩ := hexVal_hexDigit h index
    obtain ⟨cl, hcl, hvl⟩ := hexVal_hexDigit l (index + 1)
    rw [flatMap_cons, flatMap_append, hexOfByte, hh, hl]
    simp only [flatMap_cons, flatMap_nil, hch, hcl, append_nil, cons_append,
      nil_append]
    refine bind_eq_ok.mpr ⟨_, hvh, bind_eq_ok.mpr ⟨_, hvl, ?_⟩⟩
    refine bind_eq_ok.mpr ⟨bytes, ih _, ?_⟩
    rw [hb]
    rfl

/-- **Decoding inverts encoding.** -/
theorem hexDecode_hexEncode (bytes : List UInt8) : hexDecode (hexEncode bytes) = .ok bytes := by
  have hlength := length_asBytes_hexEncode bytes
  unfold hexDecode
  rw [if_neg (by omega), hexEncode, asBytes_ofList]
  exact hexDecodePairs_encoded bytes 0

theorem hexEncode_injective : Function.Injective hexEncode := by
  intro a b h
  have hdecode := hexDecode_hexEncode a
  rw [h, hexDecode_hexEncode] at hdecode
  exact (Except.ok.inj hdecode).symm

end Strangecoin
