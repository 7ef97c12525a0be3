import Strangecoin.Bytes

/-! # 256-bit arithmetic on limbs

Difficulty targets and chain work are 256-bit numbers kept as four 64-bit limbs, the
least significant first.  The operations are the ones of the node's consensus code:
schoolbook multiplication that keeps the low half, restoring binary division, and
comparisons that walk the limbs from the top.

`u128` intermediates never overflow there (`(2^64-1)^2 + 2 (2^64-1) = 2^128 - 1`), so
they are natural numbers here.
-/
namespace Strangecoin

/-- `[u64; 4]`, the least significant limb first. -/
@[ext] structure U256 where
  limb0 : UInt64
  limb1 : UInt64
  limb2 : UInt64
  limb3 : UInt64
deriving DecidableEq, Repr

namespace U256

def zero : U256 := ⟨0, 0, 0, 0⟩

/-- `[u64::MAX; 4]`. -/
def max256 : U256 := ⟨0 - 1, 0 - 1, 0 - 1, 0 - 1⟩

/-- The number the limbs stand for. -/
def toNat (a : U256) : Nat :=
  a.limb0.toNat + 2 ^ 64 * (a.limb1.toNat + 2 ^ 64 * (a.limb2.toNat + 2 ^ 64 * a.limb3.toNat))

theorem limbs_lt (a : U256) : a.limb0.toNat < 2 ^ 64 ∧ a.limb1.toNat < 2 ^ 64 ∧
    a.limb2.toNat < 2 ^ 64 ∧ a.limb3.toNat < 2 ^ 64 :=
  ⟨a.limb0.toNat_lt, a.limb1.toNat_lt, a.limb2.toNat_lt, a.limb3.toNat_lt⟩

theorem toNat_lt (a : U256) : a.toNat < 2 ^ 256 := by
  have h := a.limbs_lt
  unfold toNat
  omega

theorem toNat_max256 : max256.toNat = 2 ^ 256 - 1 := by decide

/-- `a[i]`. -/
def limb (a : U256) : Nat → UInt64
  | 0 => a.limb0
  | 1 => a.limb1
  | 2 => a.limb2
  | _ => a.limb3

def setLimb (a : U256) (i : Nat) (x : UInt64) : U256 :=
  match i with
  | 0 => { a with limb0 := x }
  | 1 => { a with limb1 := x }
  | 2 => { a with limb2 := x }
  | _ => { a with limb3 := x }

def limbs (a : U256) : List UInt64 := [a.limb0, a.limb1, a.limb2, a.limb3]

end U256

/-! ### Conversions -/

/-- Rust's `u64::from_be_bytes`. -/
def fromBeBytes (bytes : List UInt8) : UInt64 :=
  UInt64.ofNat (bytes.foldl (fun acc b => acc * 256 + b.toNat) 0)

/-- The first eight bytes are the most significant limb. -/
def u256FromBytes (bytes : Digest) : U256 :=
  let chunk := fun i => fromBeBytes ((bytes.toList.drop (8 * i)).take 8)
  ⟨chunk 3, chunk 2, chunk 1, chunk 0⟩

def u256FromU64 (v : UInt64) : U256 := ⟨v, 0, 0, 0⟩

def u256ToBytes (v : U256) : Digest :=
  ⟨(toBeBytes v.limb3 ++ toBeBytes v.limb2 ++ toBeBytes v.limb1 ++ toBeBytes v.limb0).toArray,
    by simp⟩

/-! ### Comparisons -/

def u256Gt (a b : U256) : Bool :=
  if a.limb3 > b.limb3 then true
  else if a.limb3 < b.limb3 then false
  else if a.limb2 > b.limb2 then true
  else if a.limb2 < b.limb2 then false
  else if a.limb1 > b.limb1 then true
  else if a.limb1 < b.limb1 then false
  else if a.limb0 > b.limb0 then true
  else false

def u256Le (a b : U256) : Bool :=
  if a.limb3 < b.limb3 then true
  else if a.limb3 > b.limb3 then false
  else if a.limb2 < b.limb2 then true
  else if a.limb2 > b.limb2 then false
  else if a.limb1 < b.limb1 then true
  else if a.limb1 > b.limb1 then false
  else if a.limb0 < b.limb0 then true
  else if a.limb0 > b.limb0 then false
  else true

def u256Min (a b : U256) : U256 :=
  if a.limb3 < b.limb3 then a
  else if a.limb3 > b.limb3 then b
  else if a.limb2 < b.limb2 then a
  else if a.limb2 > b.limb2 then b
  else if a.limb1 < b.limb1 then a
  else if a.limb1 > b.limb1 then b
  else if a.limb0 < b.limb0 then a
  else if a.limb0 > b.limb0 then b
  else a

def u256Max (a b : U256) : U256 :=
  if a.limb3 > b.limb3 then a
  else if a.limb3 < b.limb3 then b
  else if a.limb2 > b.limb2 then a
  else if a.limb2 < b.limb2 then b
  else if a.limb1 > b.limb1 then a
  else if a.limb1 < b.limb1 then b
  else if a.limb0 > b.limb0 then a
  else if a.limb0 < b.limb0 then b
  else a

/-- **The limb comparison is the numeric one.** -/
theorem u256Gt_iff {a b : U256} : u256Gt a b = true ↔ b.toNat < a.toNat := by
  have ha := a.limbs_lt
  have hb := b.limbs_lt
  unfold u256Gt U256.toNat
  simp only [gt_iff_lt, UInt64.lt_iff_toNat_lt]
  split_ifs <;> simp only [true_iff, false_iff] <;> omega

theorem u256Gt_max256 (a : U256) : u256Gt a U256.max256 = false := by
  rw [← Bool.not_eq_true, u256Gt_iff, U256.toNat_max256]
  have := a.toNat_lt
  omega

/-! ### Addition and multiplication -/

/-- One limb of a sum with the carry, and the carry out. -/
def addLimb (a b carry : UInt64) : UInt64 × UInt64 :=
  let sum := a.toNat + b.toNat + carry.toNat
  (UInt64.ofNat sum, UInt64.ofNat (sum / 2 ^ 64))

def u256Add (a b : U256) : U256 :=
  let r0 := addLimb a.limb0 b.limb0 0
  let r1 := addLimb a.limb1 b.limb1 r0.2
  let r2 := addLimb a.limb2 b.limb2 r1.2
  let r3 := addLimb a.limb3 b.limb3 r2.2
  ⟨r0.1, r1.1, r2.1, r3.1⟩

/-- A carry runs up the limbs until it is used up. -/
def propagateCarry : List UInt64 → Nat → List UInt64
  | [], _ => []
  | r :: rs, carry =>
    if carry = 0 then r :: rs
    else
      let cur := r.toNat + carry
      UInt64.ofNat cur :: propagateCarry rs (cur / 2 ^ 64)

/-- Add `ai * b` to the accumulator limbs from the current position up. -/
def mulRow (ai : UInt64) : List UInt64 → List UInt64 → Nat → List UInt64
  | _, [], _ => []
  | [], rs, carry => propagateCarry rs carry
  | bj :: bs, r :: rs, carry =>
    let cur := ai.toNat * bj.toNat + r.toNat + carry
    UInt64.ofNat cur :: mulRow ai bs rs (cur / 2 ^ 64)

/-- The rows of a product, each one limb higher than the one before. -/
def mulRows (b : List UInt64) : List UInt64 → List UInt64 → List UInt64
  | [], r => r
  | ai :: as, r =>
    match if ai = 0 then r else mulRow ai b r 0 with
    | [] => []
    | r0 :: rs => r0 :: mulRows b as rs

/-- The low 256 bits of a product. -/
def u256Mul (a b : U256) : U256 :=
  let r := mulRows b.limbs a.limbs (List.replicate 8 0)
  ⟨r.getD 0 0, r.getD 1 0, r.getD 2 0, r.getD 3 0⟩

/-! ### Division -/

/-- Shift left by one; the bit shifted out. -/
def u256Shl1 (v : U256) : U256 × UInt64 :=
  (⟨v.limb0 <<< 1, (v.limb1 <<< 1) ||| (v.limb0 >>> 63), (v.limb2 <<< 1) ||| (v.limb1 >>> 63),
    (v.limb3 <<< 1) ||| (v.limb2 >>> 63)⟩, v.limb3 >>> 63)

/-- One limb of a difference with the borrow, and the borrow out. -/
def subLimb (a b borrow : UInt64) : UInt64 × UInt64 :=
  let d1 := a - b
  let d2 := d1 - borrow
  (d2, (if a < b then 1 else 0) + (if d1 < borrow then 1 else 0))

def u256SubAssign (a b : U256) : U256 :=
  let r0 := subLimb a.limb0 b.limb0 0
  let r1 := subLimb a.limb1 b.limb1 r0.2
  let r2 := subLimb a.limb2 b.limb2 r1.2
  let r3 := subLimb a.limb3 b.limb3 r2.2
  ⟨r0.1, r1.1, r2.1, r3.1⟩

/-- One bit of the long division: quotient and remainder so far. -/
def divStep (a b : U256) (acc : U256 × U256) (bit : Nat) : U256 × U256 :=
  let (quotient, remainder) := acc
  let (remainder, out) := u256Shl1 remainder
  let remainder :=
    if (a.limb (bit / 64) >>> UInt64.ofNat (bit % 64)) &&& 1 = 1 then
      { remainder with limb0 := remainder.limb0 ||| 1 }
    else remainder
  if out = 1 || !u256Gt b remainder then
    (quotient.setLimb (bit / 64)
      (quotient.limb (bit / 64) ||| ((1 : UInt64) <<< UInt64.ofNat (bit % 64))),
      u256SubAssign remainder b)
  else (quotient, remainder)

/-- Truncating division; zero for a zero divisor. -/
def u256Div (a b : U256) : U256 :=
  if b = U256.zero then U256.zero
  else if u256Gt b a then U256.zero
  else ((List.range 256).reverse.foldl (divStep a b) (U256.zero, U256.zero)).1

/-- Multiplication that saturates; overflow is found by dividing back. -/
def u256MulSat (a b : U256) : U256 :=
  if a = U256.zero ∨ b = U256.zero then U256.zero
  else
    let product := u256Mul a b
    if u256Div product b = a then product else U256.max256

/-- The work a target stands for. -/
def workFromTarget (target : Digest) : U256 :=
  let target := u256FromBytes target
  if target = U256.zero then U256.zero else u256Div U256.max256 target

end Strangecoin
