import Strangecoin.Readers
import Strangecoin.U256

/-! # The limb arithmetic computes with numbers

Every operation on four limbs is compared with the operation on the number the limbs
stand for.  Carries and borrows are one equation per limb; the product follows row by
row; the long division keeps the quotient and the remainder of the bits it has read.
-/
namespace Strangecoin
open List

namespace U256

theorem toNat_inj {a b : U256} (h : a.toNat = b.toNat) : a = b := by
  have ha := a.limbs_lt
  have hb := b.limbs_lt
  unfold toNat at h
  ext1 <;> apply UInt64.toNat_inj.mp <;> omega

theorem toNat_eq_zero {a : U256} : a.toNat = 0 ↔ a = zero := by
  constructor
  · intro h
    exact toNat_inj (h.trans (by decide))
  · rintro rfl
    decide

end U256

/-! ### Order -/

variable {a b : U256}

theorem u256Le_iff : u256Le a b = true ↔ a.toNat ≤ b.toNat := by
  have ha := a.limbs_lt
  have hb := b.limbs_lt
  unfold u256Le U256.toNat
  simp only [gt_iff_lt, UInt64.lt_iff_toNat_lt]
  split_ifs <;> simp only [true_iff, false_iff] <;> omega

/-- The limbs are walked as by the comparison. -/
theorem u256Min_eq (a b : U256) : u256Min a b = if u256Le a b then a else b := by
  unfold u256Min u256Le
  split_ifs <;> first | rfl | contradiction

theorem u256Max_eq (a b : U256) : u256Max a b = if u256Le b a then a else b := by
  unfold u256Max u256Le
  simp only [gt_iff_lt]
  split_ifs <;> first | rfl | contradiction

theorem toNat_u256Min (a b : U256) : (u256Min a b).toNat = min a.toNat b.toNat := by
  rw [u256Min_eq]
  split
  · rename_i h
    exact (min_eq_left (u256Le_iff.mp h)).symm
  · rename_i h
    exact (min_eq_right (Nat.le_of_not_le fun hle => h (u256Le_iff.mpr hle))).symm

theorem toNat_u256Max (a b : U256) : (u256Max a b).toNat = max a.toNat b.toNat := by
  rw [u256Max_eq]
  split
  · rename_i h
    exact (max_eq_left (u256Le_iff.mp h)).symm
  · rename_i h
    exact (max_eq_right (Nat.le_of_not_le fun hle => h (u256Le_iff.mpr hle))).symm

/-! ### Addition -/

theorem addLimb_eq {a b carry : UInt64} (hcarry : carry.toNat ≤ 1) :
    (addLimb a b carry).1.toNat + 2 ^ 64 * (addLimb a b carry).2.toNat =
      a.toNat + b.toNat + carry.toNat ∧ (addLimb a b carry).2.toNat ≤ 1 := by
  have ha := a.toNat_lt
  have hb := b.toNat_lt
  simp only [addLimb, UInt64.toNat_ofNat']
  omega

/-- **Addition is addition modulo `2 ^ 256`.** -/
theorem toNat_u256Add (a b : U256) : (u256Add a b).toNat = (a.toNat + b.toNat) % 2 ^ 256 := by
  obtain ⟨h0, hc0⟩ := @addLimb_eq a.limb0 b.limb0 0 (by decide)
  obtain ⟨h1, hc1⟩ := @addLimb_eq a.limb1 b.limb1 _ hc0
  obtain ⟨h2, hc2⟩ := @addLimb_eq a.limb2 b.limb2 _ hc1
  obtain ⟨h3, hc3⟩ := @addLimb_eq a.limb3 b.limb3 _ hc2
  have hlt := (u256Add a b).toNat_lt
  have hzero : (0 : UInt64).toNat = 0 := rfl
  simp only [u256Add, U256.toNat] at hlt ⊢
  omega

/-! ### Multiplication -/

/-- The number a list of limbs stands for, the least significant one first. -/
def limbsNat : List UInt64 → Nat
  | [] => 0
  | limb :: limbs => limb.toNat + 2 ^ 64 * limbsNat limbs

theorem limbsNat_limbs (a : U256) : limbsNat a.limbs = a.toNat := by
  simp [limbsNat, U256.limbs, U256.toNat]

variable {n : Nat}

/-- One limb of a sum: the low part is stored, the high part goes on to the limbs above. -/
theorem limbsNat_store {cur rest : Nat} {limbs : List UInt64}
    (h : limbsNat limbs ≡ rest + cur / 2 ^ 64 [MOD 2 ^ (64 * n)]) :
    limbsNat (UInt64.ofNat cur :: limbs) ≡ cur + 2 ^ 64 * rest [MOD 2 ^ (64 * (n + 1))] := by
  have hsum : cur + 2 ^ 64 * rest = cur % 2 ^ 64 + 2 ^ 64 * (rest + cur / 2 ^ 64) := by omega
  rw [limbsNat, UInt64.toNat_ofNat', hsum, show 64 * (n + 1) = 64 + 64 * n by omega, pow_add]
  exact (h.mul_left' _).add_left _

theorem limbsNat_propagateCarry (limbs : List UInt64) (carry : Nat) :
    limbsNat (propagateCarry limbs carry) ≡ limbsNat limbs + carry [MOD 2 ^ (64 * limbs.length)] := by
  induction limbs generalizing carry with
  | nil => exact Nat.modEq_one
  | cons limb limbs ih =>
    rw [propagateCarry]
    split
    · rename_i hzero
      rw [hzero]
      rfl
    · have hstore := limbsNat_store (ih ((limb.toNat + carry) / 2 ^ 64))
      have hsum : limbsNat (limb :: limbs) + carry =
          limb.toNat + carry + 2 ^ 64 * limbsNat limbs := by
        rw [limbsNat]
        omega
      rw [hsum]
      exact hstore

/-- A row adds a multiple of `b` to the accumulator. -/
theorem limbsNat_mulRow (ai : UInt64) (b limbs : List UInt64) (carry : Nat) :
    limbsNat (mulRow ai b limbs carry) ≡ limbsNat limbs + ai.toNat * limbsNat b + carry
      [MOD 2 ^ (64 * limbs.length)] := by
  induction limbs generalizing b carry with
  | nil =>
    cases b <;> exact Nat.modEq_one
  | cons limb limbs ih =>
    cases b with
    | nil =>
      have hcarry := limbsNat_propagateCarry (limb :: limbs) carry
      simpa [mulRow, limbsNat] using hcarry
    | cons bj b =>
      have hstore := limbsNat_store (ih b ((ai.toNat * bj.toNat + limb.toNat + carry) / 2 ^ 64))
      have hsum : limbsNat (limb :: limbs) + ai.toNat * limbsNat (bj :: b) + carry =
          ai.toNat * bj.toNat + limb.toNat + carry +
            2 ^ 64 * (limbsNat limbs + ai.toNat * limbsNat b) := by
        simp only [limbsNat]
        ring
      rw [mulRow, hsum]
      exact hstore

theorem length_propagateCarry (limbs : List UInt64) (carry : Nat) :
    (propagateCarry limbs carry).length = limbs.length := by
  induction limbs generalizing carry with
  | nil => rfl
  | cons limb limbs ih =>
    rw [propagateCarry]
    split
    · rfl
    · rw [length_cons, ih, length_cons]

theorem length_mulRow (ai : UInt64) (b limbs : List UInt64) (carry : Nat) :
    (mulRow ai b limbs carry).length = limbs.length := by
  induction limbs generalizing b carry with
  | nil => cases b <;> rfl
  | cons limb limbs ih =>
    cases b with
    | nil => exact length_propagateCarry _ _
    | cons bj b => rw [mulRow, length_cons, ih, length_cons]

/-- The rows add the product, modulo what the accumulator holds. -/
theorem limbsNat_mulRows (b a limbs : List UInt64) :
    limbsNat (mulRows b a limbs) ≡ limbsNat limbs + limbsNat a * limbsNat b
      [MOD 2 ^ (64 * limbs.length)] ∧ (mulRows b a limbs).length = limbs.length := by
  induction a generalizing limbs with
  | nil =>
    refine ⟨?_, rfl⟩
    simp only [mulRows, limbsNat, Nat.zero_mul, Nat.add_zero]
    rfl
  | cons ai a ih =>
    -- the accumulator after this row, the skipped row of a zero limb included
    obtain ⟨row, hrow⟩ : ∃ row, (if ai = 0 then limbs else mulRow ai b limbs 0) = row := ⟨_, rfl⟩
    have hvalue : limbsNat row ≡ limbsNat limbs + ai.toNat * limbsNat b
        [MOD 2 ^ (64 * limbs.length)] := by
      rw [← hrow]
      split
      · rename_i hzero
        rw [hzero]
        simp only [UInt64.toNat_zero, Nat.zero_mul, Nat.add_zero]
        rfl
      · exact limbsNat_mulRow ai b limbs 0
    have hlength : row.length = limbs.length := by
      rw [← hrow]
      split
      · rfl
      · exact length_mulRow _ _ _ _
    rw [mulRows, hrow, ← hlength]
    rw [← hlength] at hvalue
    cases row with
    | nil => exact ⟨Nat.modEq_one, rfl⟩
    | cons r0 rs =>
      obtain ⟨hrest, hlen⟩ := ih rs
      refine ⟨?_, by simp [hlen]⟩
      have hsum : limbsNat limbs + limbsNat (ai :: a) * limbsNat b =
          limbsNat limbs + ai.toNat * limbsNat b + 2 ^ 64 * (limbsNat a * limbsNat b) := by
        simp only [limbsNat]
        ring
      have hscaled : 2 ^ 64 * limbsNat (mulRows b a rs) ≡
          2 ^ 64 * (limbsNat rs + limbsNat a * limbsNat b) [MOD 2 ^ (64 * (r0 :: rs).length)] := by
        rw [length_cons, show 64 * (rs.length + 1) = 64 + 64 * rs.length by omega, pow_add]
        exact hrest.mul_left' _
      rw [hsum]
      calc limbsNat (r0 :: mulRows b a rs)
          = r0.toNat + 2 ^ 64 * limbsNat (mulRows b a rs) := rfl
        _ ≡ r0.toNat + 2 ^ 64 * (limbsNat rs + limbsNat a * limbsNat b)
            [MOD 2 ^ (64 * (r0 :: rs).length)] := hscaled.add_left _
        _ = limbsNat (r0 :: rs) + 2 ^ 64 * (limbsNat a * limbsNat b) := by
          simp only [limbsNat]
          ring
        _ ≡ _ [MOD 2 ^ (64 * (r0 :: rs).length)] := hvalue.add_right _

/-- **Multiplication is multiplication modulo `2 ^ 256`.** -/
theorem toNat_u256Mul (a b : U256) : (u256Mul a b).toNat = a.toNat * b.toNat % 2 ^ 256 := by
  obtain ⟨hvalue, hlength⟩ := limbsNat_mulRows b.limbs a.limbs (List.replicate 8 0)
  rw [limbsNat_limbs, limbsNat_limbs] at hvalue
  have hzero : limbsNat (List.replicate 8 0) = 0 := by decide
  rw [hzero, Nat.zero_add, length_replicate] at hvalue
  rw [u256Mul]
  obtain ⟨r, hr⟩ : ∃ r, mulRows b.limbs a.limbs (List.replicate 8 0) = r := ⟨_, rfl⟩
  rw [hr] at hvalue hlength ⊢
  -- the accumulator has eight limbs, and the product keeps the low four
  have hlow : limbsNat r % 2 ^ 256 =
      (⟨r.getD 0 0, r.getD 1 0, r.getD 2 0, r.getD 3 0⟩ : U256).toNat := by
    match r, hlength with
    | [r0, r1, r2, r3, r4, r5, r6, r7], _ =>
      have h0 := r0.toNat_lt
      have h1 := r1.toNat_lt
      have h2 := r2.toNat_lt
      have h3 := r3.toNat_lt
      simp only [limbsNat, U256.toNat, getD_cons_zero, getD_cons_succ]
      omega
  rw [← hlow]
  exact hvalue.of_dvd (pow_dvd_pow 2 (by decide))

/-! ### Shifting, subtracting, single bits -/

/-- A shifted limb has room for one bit. -/
theorem toNat_shiftLeft_or {x c : UInt64} (hc : c.toNat ≤ 1) :
    ((x <<< 1) ||| c).toNat = 2 * x.toNat % 2 ^ 64 + c.toNat := by
  have hx := x.toNat_lt
  have hshift : (x <<< 1).toNat = 2 ^ 1 * (x.toNat % 2 ^ 63) := by
    rw [UInt64.toNat_shiftLeft, show (1 : UInt64).toNat % 64 = 1 from rfl, Nat.shiftLeft_eq]
    omega
  rw [UInt64.toNat_or, hshift, ← Nat.two_pow_add_eq_or_of_lt (by omega)]
  omega

theorem toNat_shiftRight_63 (x : UInt64) : (x >>> 63).toNat = x.toNat / 2 ^ 63 := by
  rw [UInt64.toNat_shiftRight, show (63 : UInt64).toNat % 64 = 63 from rfl, Nat.shiftRight_eq_div_pow]

theorem u256Shl1_eq (v : U256) :
    (u256Shl1 v).1.toNat + 2 ^ 256 * (u256Shl1 v).2.toNat = 2 * v.toNat ∧
      (u256Shl1 v).2.toNat ≤ 1 := by
  have h := v.limbs_lt
  have hbit : ∀ x : UInt64, (x >>> 63).toNat ≤ 1 := by
    intro x
    have hx := x.toNat_lt
    rw [toNat_shiftRight_63]
    omega
  have hlow : (v.limb0 <<< 1).toNat = 2 * v.limb0.toNat % 2 ^ 64 := by
    have h := @toNat_shiftLeft_or v.limb0 0 (by decide)
    rwa [UInt64.or_zero, UInt64.toNat_zero, Nat.add_zero] at h
  simp only [u256Shl1, U256.toNat, hlow, toNat_shiftLeft_or (hbit _), toNat_shiftRight_63]
  omega

theorem subLimb_eq {a b borrow : UInt64} (hborrow : borrow.toNat ≤ 1) :
    (subLimb a b borrow).1.toNat + b.toNat + borrow.toNat =
      a.toNat + 2 ^ 64 * (subLimb a b borrow).2.toNat ∧ (subLimb a b borrow).2.toNat ≤ 1 := by
  have ha := a.toNat_lt
  have hb := b.toNat_lt
  have hone : (1 : UInt64).toNat = 1 := rfl
  have hzero : (0 : UInt64).toNat = 0 := rfl
  simp only [subLimb, UInt64.lt_iff_toNat_lt, UInt64.toNat_sub, UInt64.toNat_add]
  split_ifs <;> simp only [hone, hzero] <;> omega

theorem u256SubAssign_eq (a b : U256) :
    (u256SubAssign a b).toNat = (a.toNat + (2 ^ 256 - b.toNat)) % 2 ^ 256 := by
  obtain ⟨h0, hc0⟩ := @subLimb_eq a.limb0 b.limb0 0 (by decide)
  obtain ⟨h1, hc1⟩ := @subLimb_eq a.limb1 b.limb1 _ hc0
  obtain ⟨h2, hc2⟩ := @subLimb_eq a.limb2 b.limb2 _ hc1
  obtain ⟨h3, hc3⟩ := @subLimb_eq a.limb3 b.limb3 _ hc2
  have hlt := (u256SubAssign a b).toNat_lt
  have hb := b.toNat_lt
  have hzero : (0 : UInt64).toNat = 0 := rfl
  simp only [u256SubAssign, U256.toNat] at hlt hb ⊢
  omega

namespace U256

theorem toNat_limb (a : U256) {j : Nat} (hj : j < 4) :
    (a.limb j).toNat = a.toNat / 2 ^ (64 * j) % 2 ^ 64 := by
  have h := a.limbs_lt
  match j with
  | 0 => simp only [limb, toNat]; omega
  | 1 => simp only [limb, toNat]; omega
  | 2 => simp only [limb, toNat]; omega
  | 3 => simp only [limb, toNat]; omega

theorem toNat_setLimb (a : U256) {j : Nat} (hj : j < 4) (x : UInt64) :
    (a.setLimb j x).toNat + 2 ^ (64 * j) * (a.limb j).toNat =
      a.toNat + 2 ^ (64 * j) * x.toNat := by
  match j with
  | 0 => simp only [limb, setLimb, toNat]; omega
  | 1 => simp only [limb, setLimb, toNat]; omega
  | 2 => simp only [limb, setLimb, toNat]; omega
  | 3 => simp only [limb, setLimb, toNat]; omega

theorem toNat_shiftAmount (bit : Nat) : (UInt64.ofNat (bit % 64)).toNat % 64 = bit % 64 := by
  rw [UInt64.toNat_ofNat']
  omega

theorem limb_bit (a : U256) {bit : Nat} (hbit : bit < 256) :
    (a.limb (bit / 64) >>> UInt64.ofNat (bit % 64)) &&& 1 = 1 ↔ a.toNat / 2 ^ bit % 2 = 1 := by
  have hsplit : bit = 64 * (bit / 64) + bit % 64 := by omega
  have hdiv : a.toNat / 2 ^ bit = a.toNat / 2 ^ (64 * (bit / 64)) / 2 ^ (bit % 64) := by
    rw [Nat.div_div_eq_div_mul, ← pow_add, ← hsplit]
  have hmod : ∀ x : Nat, x % 2 ^ 64 / 2 ^ (bit % 64) % 2 = x / 2 ^ (bit % 64) % 2 := by
    intro x
    have hpow : (2 : Nat) ^ 64 = 2 ^ (bit % 64) * (2 * 2 ^ (63 - bit % 64)) := by
      rw [← pow_succ', ← pow_add]
      congr 1
      omega
    rw [hpow, Nat.mod_mul_right_div_self, Nat.mod_mul_right_mod]
  rw [← UInt64.toNat_inj, UInt64.toNat_and, UInt64.toNat_shiftRight, toNat_shiftAmount,
    toNat_limb a (by omega), Nat.shiftRight_eq_div_pow, show (1 : UInt64).toNat = 1 from rfl,
    Nat.and_one_is_mod, hmod, ← hdiv]

/-- Setting a bit that is not set, nor any below it, adds its value. -/
theorem toNat_setBit (a : U256) {bit : Nat} (hbit : bit < 256) (ha : 2 ^ (bit + 1) ∣ a.toNat) :
    (a.setLimb (bit / 64) (a.limb (bit / 64) ||| ((1 : UInt64) <<< UInt64.ofNat (bit % 64)))).toNat =
      a.toNat + 2 ^ bit := by
  have hj : bit / 64 < 4 := by omega
  have hpow : (2 : Nat) ^ bit = 2 ^ (64 * (bit / 64)) * 2 ^ (bit % 64) := by
    rw [← pow_add]
    congr 1
    omega
  have hlt : (2 : Nat) ^ (bit % 64) < 2 ^ 64 := Nat.pow_lt_pow_right (by omega) (by omega)
  have hone : ((1 : UInt64) <<< UInt64.ofNat (bit % 64)).toNat = 2 ^ (bit % 64) := by
    rw [UInt64.toNat_shiftLeft, toNat_shiftAmount, Nat.shiftLeft_eq, show (1 : UInt64).toNat = 1 from rfl,
      Nat.one_mul, Nat.mod_eq_of_lt hlt]
  -- the limb is a multiple of twice the bit
  obtain ⟨q, hq⟩ : 2 ^ (bit % 64 + 1) ∣ (a.limb (bit / 64)).toNat := by
    rw [toNat_limb a hj]
    refine (Nat.dvd_mod_iff (pow_dvd_pow 2 (by omega))).mpr ?_
    refine Nat.dvd_div_of_mul_dvd ?_
    rw [← pow_add]
    refine Nat.dvd_trans (pow_dvd_pow 2 ?_) ha
    omega
  have hor : (a.limb (bit / 64) ||| ((1 : UInt64) <<< UInt64.ofNat (bit % 64))).toNat =
      (a.limb (bit / 64)).toNat + 2 ^ (bit % 64) := by
    rw [UInt64.toNat_or, hone, hq,
      ← Nat.two_pow_add_eq_or_of_lt (Nat.pow_lt_pow_right (by omega) (by omega))]
  have hset := toNat_setLimb a hj
    (a.limb (bit / 64) ||| ((1 : UInt64) <<< UInt64.ofNat (bit % 64)))
  rw [hor, Nat.mul_add, ← hpow] at hset
  omega

end U256

/-! ### Division -/

/-- The state of the long division when the bits from `n` up have been read: the
quotient of the number they form, in its place, and the remainder. -/
structure DivState (a b : U256) (n : Nat) (acc : U256 × U256) : Prop where
  shifted : 2 ^ n ∣ acc.1.toNat
  quotient : acc.1.toNat / 2 ^ n = a.toNat / 2 ^ n / b.toNat
  remainder : acc.2.toNat = a.toNat / 2 ^ n % b.toNat

/-- The remainder with the next bit of the dividend behind it, which may need 257 bits. -/
theorem shiftIn_eq (a r : U256) (hn : n < 256) :
    (if (a.limb (n / 64) >>> UInt64.ofNat (n % 64)) &&& 1 = 1 then
      { (u256Shl1 r).1 with limb0 := (u256Shl1 r).1.limb0 ||| 1 } else (u256Shl1 r).1).toNat +
        2 ^ 256 * (u256Shl1 r).2.toNat = 2 * r.toNat + a.toNat / 2 ^ n % 2 := by
  have hshift := (u256Shl1_eq r).1
  have hbit := a.limb_bit hn
  have hodd := Nat.mod_two_eq_zero_or_one (a.toNat / 2 ^ n)
  split
  · rename_i hset
    rw [hbit.mp hset, ← hshift]
    have hor : ((u256Shl1 r).1.limb0 ||| 1).toNat = (u256Shl1 r).1.limb0.toNat + 1 := by
      have hone := @toNat_shiftLeft_or r.limb0 1 (by decide)
      have hzero := @toNat_shiftLeft_or r.limb0 0 (by decide)
      rw [UInt64.or_zero, UInt64.toNat_zero, Nat.add_zero] at hzero
      change ((r.limb0 <<< 1) ||| 1).toNat = (r.limb0 <<< 1).toNat + 1
      rw [hone, hzero]
      rfl
    simp only [U256.toNat, hor]
    omega
  · rename_i hclear
    rw [hshift]
    have hzero : a.toNat / 2 ^ n % 2 = 0 := hodd.resolve_right fun h => hclear (hbit.mpr h)
    omega

/-- What one more bit does to a quotient and a remainder. -/
theorem div_mod_bit {x bit b : Nat} (hb : 0 < b) :
    (2 * x + bit) / b = 2 * (x / b) + (2 * (x % b) + bit) / b ∧
      (2 * x + bit) % b = (2 * (x % b) + bit) % b := by
  have hx : 2 * x + bit = 2 * (x % b) + bit + b * (2 * (x / b)) := by
    have hsplit := Nat.mod_add_div x b
    calc 2 * x + bit = 2 * (x % b + b * (x / b)) + bit := by rw [hsplit]
      _ = _ := by ring
  rw [hx]
  refine ⟨?_, Nat.add_mul_mod_self_left _ _ _⟩
  rw [Nat.add_mul_div_left _ _ hb]
  omega

variable {acc : U256 × U256}

theorem DivState.step (hb : 0 < b.toNat) (hn : n < 256) (h : DivState a b (n + 1) acc) :
    DivState a b n (divStep a b acc n) := by
  obtain ⟨q, r⟩ := acc
  obtain ⟨hshifted, hquotient, hremainder⟩ := h
  dsimp only at hshifted hquotient hremainder
  have hbit := Nat.mod_lt (a.toNat / 2 ^ n) (show 0 < 2 by decide)
  have hx : a.toNat / 2 ^ n = 2 * (a.toNat / 2 ^ (n + 1)) + a.toNat / 2 ^ n % 2 := by
    rw [pow_succ, ← Nat.div_div_eq_div_mul]
    omega
  obtain ⟨hdiv, hmod⟩ := @div_mod_bit (a.toNat / 2 ^ (n + 1)) (a.toNat / 2 ^ n % 2) b.toNat hb
  rw [← hx, ← hremainder] at hdiv hmod
  have hshift := shiftIn_eq a r hn
  have hout := (u256Shl1_eq r).2
  have hrlt : r.toNat < b.toNat := hremainder ▸ Nat.mod_lt _ hb
  have hblt := b.toNat_lt
  unfold divStep
  dsimp only
  generalize (if (a.limb (n / 64) >>> UInt64.ofNat (n % 64)) &&& 1 = 1 then
      { (u256Shl1 r).1 with limb0 := (u256Shl1 r).1.limb0 ||| 1 } else (u256Shl1 r).1) = v at hshift ⊢
  have hvlt := v.toNat_lt
  -- the remainder with the new bit is below `2 * b`, so the divisor is taken off once at most
  have hlow : 2 ^ n ∣ q.toNat := Nat.dvd_trans (pow_dvd_pow 2 (Nat.le_succ n)) hshifted
  have hdouble : q.toNat / 2 ^ n = 2 * (a.toNat / 2 ^ (n + 1) / b.toNat) := by
    obtain ⟨k, hk⟩ := hshifted
    rw [hk, Nat.mul_div_cancel_left _ (Nat.two_pow_pos _)] at hquotient
    rw [← hquotient, hk, pow_succ, Nat.mul_assoc, Nat.mul_div_cancel_left _ (Nat.two_pow_pos _)]
  have hcond : (u256Shl1 r).2 = 1 || !u256Gt b v ↔ b.toNat ≤ 2 * r.toNat + a.toNat / 2 ^ n % 2 := by
    rw [Bool.or_eq_true, decide_eq_true_eq, Bool.not_eq_true', ← Bool.not_eq_true, u256Gt_iff,
      ← UInt64.toNat_inj, show (1 : UInt64).toNat = 1 from rfl, ← hshift]
    omega
  split
  · rename_i htake
    have hge := hcond.mp htake
    refine ⟨?_, ?_, ?_⟩
    · rw [U256.toNat_setBit q hn hshifted]
      exact Nat.dvd_add hlow (dvd_refl _)
    · rw [U256.toNat_setBit q hn hshifted, Nat.add_div_right _ (Nat.two_pow_pos n), hdouble, hdiv]
      have hone : (2 * r.toNat + a.toNat / 2 ^ n % 2) / b.toNat = 1 :=
        Nat.div_eq_of_lt_le (by omega) (by omega)
      omega
    · have hrest : 2 * r.toNat + a.toNat / 2 ^ n % 2 - b.toNat < b.toNat := by omega
      rw [hmod, Nat.mod_eq_sub_mod hge, Nat.mod_eq_of_lt hrest, u256SubAssign_eq]
      omega
  · rename_i hkeep
    have hlt : 2 * r.toNat + a.toNat / 2 ^ n % 2 < b.toNat :=
      Nat.lt_of_not_le fun hge => hkeep (hcond.mpr hge)
    refine ⟨hlow, ?_, ?_⟩
    · rw [hdouble, hdiv, Nat.div_eq_of_lt hlt]
      rfl
    · rw [hmod, Nat.mod_eq_of_lt hlt]
      dsimp only
      omega

theorem DivState.run (hb : 0 < b.toNat) (hn : n ≤ 256) (h : DivState a b n acc) :
    DivState a b 0 ((List.range n).reverse.foldl (divStep a b) acc) := by
  induction n generalizing acc with
  | zero => exact h
  | succ n ih =>
    rw [range_succ, reverse_append, reverse_singleton, singleton_append,
      foldl_cons]
    exact ih (by omega) (h.step hb (by omega))

/-- **Division is division**, also by zero, where both give zero. -/
theorem toNat_u256Div (a b : U256) : (u256Div a b).toNat = a.toNat / b.toNat := by
  rw [u256Div]
  split
  · rename_i hzero
    rw [hzero, U256.toNat_eq_zero.mpr rfl, Nat.div_zero]
  · rename_i hzero
    have hb : 0 < b.toNat := Nat.pos_of_ne_zero fun h => hzero (U256.toNat_eq_zero.mp h)
    split
    · rename_i hgt
      rw [U256.toNat_eq_zero.mpr rfl, Nat.div_eq_of_lt (u256Gt_iff.mp hgt)]
    · -- before the first bit there is nothing to divide
      have hnone : a.toNat / 2 ^ 256 = 0 := Nat.div_eq_of_lt a.toNat_lt
      have hstart : DivState a b 256 (U256.zero, U256.zero) := by
        have hz : U256.zero.toNat = 0 := U256.toNat_eq_zero.mpr rfl
        refine ⟨?_, ?_, ?_⟩
        · rw [hz]
          exact dvd_zero _
        · rw [hz, hnone, Nat.zero_div, Nat.zero_div]
        · rw [hz, hnone, Nat.zero_mod]
      have hend := (DivState.run hb (Nat.le_refl 256) hstart).quotient
      rwa [pow_zero, Nat.div_one, Nat.div_one] at hend

/-! ### Saturating multiplication -/

/-- **A product that does not fit becomes the largest number.** -/
theorem toNat_u256MulSat (a b : U256) :
    (u256MulSat a b).toNat = min (a.toNat * b.toNat) (2 ^ 256 - 1) := by
  have ha := a.toNat_lt
  have hb := b.toNat_lt
  rw [u256MulSat]
  split
  · rename_i hzero
    rw [← U256.toNat_eq_zero, ← U256.toNat_eq_zero] at hzero
    have hprod : a.toNat * b.toNat = 0 := by
      rcases hzero with h | h <;> simp [h]
    rw [U256.toNat_eq_zero.mpr rfl, hprod]
    rfl
  · rename_i hzero
    rw [← U256.toNat_eq_zero, ← U256.toNat_eq_zero, not_or] at hzero
    have hbpos : 0 < b.toNat := Nat.pos_of_ne_zero hzero.2
    have hback : u256Div (u256Mul a b) b = a ↔ a.toNat * b.toNat < 2 ^ 256 := by
      constructor
      · intro h
        -- dividing back gives at most `a`, and less if anything was lost
        have hdiv := congrArg U256.toNat h
        rw [toNat_u256Div, toNat_u256Mul] at hdiv
        have hle := Nat.div_mul_le_self (a.toNat * b.toNat % 2 ^ 256) b.toNat
        rw [hdiv] at hle
        exact Nat.lt_of_le_of_lt hle (Nat.mod_lt _ (Nat.two_pow_pos 256))
      · intro hfits
        apply U256.toNat_inj
        rw [toNat_u256Div, toNat_u256Mul, Nat.mod_eq_of_lt hfits, Nat.mul_div_cancel _ hbpos]
    dsimp only
    split
    · rename_i h
      have hfits := hback.mp h
      rw [toNat_u256Mul, Nat.mod_eq_of_lt hfits, min_eq_left (by omega)]
    · rename_i h
      have hover : 2 ^ 256 ≤ a.toNat * b.toNat := Nat.le_of_not_lt fun hlt => h (hback.mpr hlt)
      rw [U256.toNat_max256, min_eq_right (by omega)]

/-! ### Bytes -/

/-- The number a byte string stands for, the most significant byte first. -/
def beNat (bytes : List UInt8) : Nat := leNat bytes.reverse

theorem leNat_append (xs ys : List UInt8) :
    leNat (xs ++ ys) = leNat xs + 256 ^ xs.length * leNat ys := by
  induction xs with
  | nil => simp [leNat]
  | cons x xs ih =>
    rw [cons_append, leNat, ih, leNat, length_cons, pow_succ]
    ring

theorem beNat_append (xs ys : List UInt8) :
    beNat (xs ++ ys) = 256 ^ ys.length * beNat xs + beNat ys := by
  rw [beNat, reverse_append, leNat_append, length_reverse, beNat, beNat]
  omega

theorem foldl_beNat (bytes : List UInt8) (acc : Nat) :
    bytes.foldl (fun acc b => acc * 256 + b.toNat) acc = 256 ^ bytes.length * acc + beNat bytes := by
  induction bytes generalizing acc with
  | nil => simp [beNat, leNat]
  | cons b bytes ih =>
    have hcons : beNat (b :: bytes) = 256 ^ bytes.length * b.toNat + beNat bytes := by
      have h := beNat_append [b] bytes
      simpa [beNat, leNat] using h
    rw [foldl_cons, ih, hcons, length_cons, pow_succ]
    ring

theorem toNat_fromBeBytes {bytes : List UInt8} (h : bytes.length = 8) :
    (fromBeBytes bytes).toNat = beNat bytes := by
  have hlt : beNat bytes < 2 ^ 64 := by
    have hlt := leNat_lt bytes.reverse
    rwa [length_reverse, h] at hlt
  rw [fromBeBytes, foldl_beNat, Nat.mul_zero, Nat.zero_add, UInt64.toNat_ofNat',
    Nat.mod_eq_of_lt hlt]

theorem fromBeBytes_toBeBytes (x : UInt64) : fromBeBytes (toBeBytes x) = x := by
  apply UInt64.toNat_inj.mp
  have hx := x.toNat_lt
  rw [toNat_fromBeBytes (length_toBeBytes x), beNat, toBeBytes, reverse_reverse,
    leNat_leBytes (by omega)]

/-- **The bytes of a digest are read as a big-endian number.** -/
theorem toNat_u256FromBytes (d : Digest) : (u256FromBytes d).toNat = beNat d.toList := by
  have hlength : d.toList.length = 32 := by simp
  have hchunk : ∀ i < 4, ((d.toList.drop (8 * i)).take 8).length = 8 := by
    intro i hi
    rw [length_take, length_drop]
    omega
  have hbytes : d.toList = (d.toList.drop (8 * 0)).take 8 ++ ((d.toList.drop (8 * 1)).take 8 ++
      ((d.toList.drop (8 * 2)).take 8 ++ (d.toList.drop (8 * 3)).take 8)) := by
    have hlast : (d.toList.drop 24).take 8 = d.toList.drop 24 :=
      take_of_length_le (by rw [length_drop]; omega)
    have hstep : ∀ n, d.toList.drop n = (d.toList.drop n).take 8 ++ d.toList.drop (n + 8) := by
      intro n
      rw [← drop_drop, take_append_drop]
    rw [hlast, ← hstep 16, ← hstep 8, ← hstep 0, drop_zero]
  have h0 := hchunk 0 (by decide)
  have h1 := hchunk 1 (by decide)
  have h2 := hchunk 2 (by decide)
  have h3 := hchunk 3 (by decide)
  conv_rhs => rw [hbytes]
  simp only [beNat_append, length_append, h1, h2, h3]
  simp only [u256FromBytes, U256.toNat, toNat_fromBeBytes h0, toNat_fromBeBytes h1,
    toNat_fromBeBytes h2, toNat_fromBeBytes h3]
  ring

theorem u256FromBytes_u256ToBytes (v : U256) : u256FromBytes (u256ToBytes v) = v := by
  have hlist : (u256ToBytes v).toList =
      toBeBytes v.limb3 ++ toBeBytes v.limb2 ++ toBeBytes v.limb1 ++ toBeBytes v.limb0 := by
    simp [u256ToBytes]
  unfold u256FromBytes
  simp only [hlist]
  ext1
  all_goals
    dsimp only
    simp [drop_append, drop_eq_nil_of_le, take_of_length_le, fromBeBytes_toBeBytes]

theorem beNat_injOn {xs ys : List UInt8} (hlength : xs.length = ys.length)
    (h : beNat xs = beNat ys) : xs = ys := by
  have hx := leBytes_leNat xs.reverse
  have hy := leBytes_leNat ys.reverse
  rw [← beNat, length_reverse] at hx hy
  rw [hlength, h, hy] at hx
  exact (reverse_injective hx).symm

theorem u256ToBytes_u256FromBytes (d : Digest) : u256ToBytes (u256FromBytes d) = d := by
  -- both have the same number
  have h := toNat_u256FromBytes (u256ToBytes (u256FromBytes d))
  rw [u256FromBytes_u256ToBytes, toNat_u256FromBytes] at h
  exact Vector.toList_inj.mp (beNat_injOn (by simp) h.symm)

/-- **The 256-bit arithmetic is that of numbers below `2 ^ 256`.** -/
theorem u256_arithmetic_correct (a b : U256) (d : Digest) :
    (u256Mul a b).toNat = a.toNat * b.toNat % 2 ^ 256 ∧
    (u256Div a b).toNat = (if b.toNat = 0 then 0 else a.toNat / b.toNat) ∧
    (u256MulSat a b).toNat = min (a.toNat * b.toNat) (2 ^ 256 - 1) ∧
    (u256Add a b).toNat = (a.toNat + b.toNat) % 2 ^ 256 ∧
    (u256Gt a b = true ↔ b.toNat < a.toNat) ∧
    (u256Le a b = true ↔ a.toNat ≤ b.toNat) ∧
    (u256Min a b).toNat = min a.toNat b.toNat ∧
    (u256Max a b).toNat = max a.toNat b.toNat ∧
    u256FromBytes (u256ToBytes a) = a ∧
    u256ToBytes (u256FromBytes d) = d ∧
    (u256FromBytes d).toNat = beNat d.toList ∧
    a.toNat < 2 ^ 256 := by
  refine ⟨toNat_u256Mul a b, ?_, toNat_u256MulSat a b, toNat_u256Add a b, u256Gt_iff, u256Le_iff,
    toNat_u256Min a b, toNat_u256Max a b, u256FromBytes_u256ToBytes a, u256ToBytes_u256FromBytes d,
    toNat_u256FromBytes d, a.toNat_lt⟩
  rw [toNat_u256Div]
  split
  · rename_i hzero
    rw [hzero, Nat.div_zero]
  · rfl

end Strangecoin
