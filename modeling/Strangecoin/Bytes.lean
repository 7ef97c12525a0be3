import Strangecoin.Runs

/-! # Machine words and byte strings

Checked 64-bit arithmetic, the fixed-width byte encodings of words, and 32-byte
strings read as paths of 256 bits.

A 32-byte string is compared byte by byte and walked bit by bit, most significant bit of
byte 0 first.  The two agree (`bit_le_of_compare`), which is what lets a sorted list of keys
be split into the two halves of a subtree.
-/
namespace Strangecoin

/-! ### Checked arithmetic -/

/-- Rust's `u64::checked_add`. -/
def checkedAdd (a b : UInt64) : Option UInt64 :=
  if a.toNat + b.toNat < 2 ^ 64 then some (a + b) else none

/-- Rust's `u64::checked_sub`. -/
def checkedSub (a b : UInt64) : Option UInt64 :=
  if b.toNat ≤ a.toNat then some (a - b) else none

variable {c : UInt64}

theorem checkedAdd_eq_some {a b : UInt64} :
    checkedAdd a b = some c ↔ c.toNat = a.toNat + b.toNat := by
  unfold checkedAdd
  have hc := c.toNat_lt
  split
  · rename_i h
    rw [Option.some.injEq, ← UInt64.toNat_inj, UInt64.toNat_add, Nat.mod_eq_of_lt h]
    exact eq_comm
  · exact ⟨nofun, fun he => by omega⟩

theorem checkedSub_eq_some {a b : UInt64} :
    checkedSub a b = some c ↔ a.toNat = c.toNat + b.toNat := by
  unfold checkedSub
  split
  · rename_i h
    have hs : (a - b).toNat = a.toNat - b.toNat := UInt64.toNat_sub_of_le _ _ h
    rw [Option.some.injEq, ← UInt64.toNat_inj, hs]
    omega
  · exact ⟨nofun, fun he => by omega⟩

/-- Subtracting what was added gives back the start, and conversely. -/
theorem checkedSub_iff_checkedAdd {a b : UInt64} :
    checkedSub c b = some a ↔ checkedAdd a b = some c := by
  rw [checkedSub_eq_some, checkedAdd_eq_some]

/-! ### Fixed-width encodings -/

/-- The `n` low bytes of a number, least significant first. -/
def leBytes : Nat → Nat → List UInt8
  | 0, _ => []
  | n + 1, x => UInt8.ofNat (x % 256) :: leBytes n (x / 256)

@[simp] theorem length_leBytes (n x : Nat) : (leBytes n x).length = n := by
  induction n generalizing x with
  | zero => rfl
  | succ n ih => simp [leBytes, ih]

theorem leBytes_injOn {n x y : Nat} (hx : x < 256 ^ n) (hy : y < 256 ^ n)
    (h : leBytes n x = leBytes n y) : x = y := by
  induction n generalizing x y with
  | zero => simp at hx hy; omega
  | succ n ih =>
    rw [leBytes, leBytes, List.cons.injEq] at h
    obtain ⟨h0, hrest⟩ := h
    have hlow : x % 256 = y % 256 := by
      have h0' := congrArg UInt8.toNat h0
      simpa [UInt8.toNat_ofNat', Nat.mod_mod] using h0'
    have hx' : x / 256 < 256 ^ n := Nat.div_lt_of_lt_mul (by rw [pow_succ] at hx; linarith)
    have hy' : y / 256 < 256 ^ n := Nat.div_lt_of_lt_mul (by rw [pow_succ] at hy; linarith)
    have hhigh := ih hx' hy' hrest
    omega

/-- Rust's `u64::to_le_bytes`. -/
def toLeBytes (x : UInt64) : List UInt8 := leBytes 8 x.toNat

/-- Rust's `u64::to_be_bytes`. -/
def toBeBytes (x : UInt64) : List UInt8 := (leBytes 8 x.toNat).reverse

/-- Rust's `u32::to_be_bytes`. -/
def toBeBytes32 (x : UInt32) : List UInt8 := (leBytes 4 x.toNat).reverse

@[simp] theorem length_toLeBytes (x : UInt64) : (toLeBytes x).length = 8 := length_leBytes _ _

@[simp] theorem length_toBeBytes (x : UInt64) : (toBeBytes x).length = 8 := by simp [toBeBytes]

@[simp] theorem length_toBeBytes32 (x : UInt32) : (toBeBytes32 x).length = 4 := by
  simp [toBeBytes32]

theorem toLeBytes_injective : Function.Injective toLeBytes := by
  intro x y h
  have hx := x.toNat_lt
  have hy := y.toNat_lt
  exact UInt64.toNat_inj.mp (leBytes_injOn (n := 8) (by omega) (by omega) h)

/-! ### 32-byte strings as bit paths -/

/-- `[u8; 32]`. -/
abbrev Digest := Vector UInt8 32

instance : Std.TransOrd Digest := inferInstance
instance : LawfulBEq Digest := inferInstance

/-- `[0u8; 32]`. -/
def zeroDigest : Digest := Vector.replicate 32 0

/-- Byte `j` of a 32-byte string. -/
def byteAt (key : Digest) (j : Nat) : UInt8 := key[j]?.getD 0

/-- Bit `i` of a 32-byte string, most significant bit of byte 0 first. -/
def bit (key : Digest) (i : Nat) : Bool := (byteAt key (i / 8)).toNat.testBit (7 - i % 8)

/-- The 256 bits of a 32-byte string: its path from the root of a binary tree. -/
def bits (key : Digest) : List Bool := (List.range 256).map (bit key)

@[simp] theorem length_bits (key : Digest) : (bits key).length = 256 := by simp [bits]

variable {key : Digest}

theorem getElem?_bits {i : Nat} (h : i < 256) : (bits key)[i]? = some (bit key i) := by
  simp [bits, h]

variable {d : Nat}

theorem bits_drop (h : d < 256) : (bits key).drop d = bit key d :: (bits key).drop (d + 1) := by
  rw [List.drop_eq_getElem_cons (by simpa using h)]
  simp [bits]

theorem bits_take_succ (h : d < 256) :
    (bits key).take (d + 1) = (bits key).take d ++ [bit key d] := by
  rw [List.take_add_one, getElem?_bits h]
  rfl

variable {a b : Digest}

/-- Two keys with the same first `d` bits are those with the same bits below `d`. -/
theorem take_bits_eq_iff (hd : d ≤ 256) :
    (bits a).take d = (bits b).take d ↔ ∀ i, i < d → bit a i = bit b i := by
  constructor
  · intro h i hi
    have hi' : i < 256 := by omega
    have := congrArg (fun l => l[i]?) h
    simpa [List.getElem?_take, hi, getElem?_bits hi'] using this
  · intro h
    apply List.ext_getElem?
    intro i
    by_cases hi : i < d
    · simp [hi, getElem?_bits (show i < 256 by omega), h i hi]
    · simp [hi]

theorem byte_ext {x y : UInt8} (h : ∀ k, k < 8 → x.toNat.testBit k = y.toNat.testBit k) :
    x = y := by
  apply UInt8.toNat_inj.mp
  apply Nat.eq_of_testBit_eq
  intro k
  by_cases hk : k < 8
  · exact h k hk
  · have hp : 2 ^ 8 ≤ 2 ^ k := Nat.pow_le_pow_right (by omega) (by omega)
    rw [Nat.testBit_lt_two_pow (lt_of_lt_of_le x.toNat_lt hp),
      Nat.testBit_lt_two_pow (lt_of_lt_of_le y.toNat_lt hp)]

theorem digest_ext (h : ∀ j, j < 32 → byteAt a j = byteAt b j) : a = b := by
  apply Vector.ext
  intro j hj
  simpa [byteAt, hj] using h j hj

/-- **A key is its bits.** -/
theorem eq_of_bit_eq (h : ∀ i, i < 256 → bit a i = bit b i) : a = b := by
  apply digest_ext
  intro j hj
  apply byte_ext
  intro k hk
  have := h (8 * j + (7 - k)) (by omega)
  unfold bit at this
  rwa [show (8 * j + (7 - k)) / 8 = j by omega,
    show 7 - (8 * j + (7 - k)) % 8 = k by omega] at this

theorem bits_injective : Function.Injective bits := by
  intro a b h
  apply eq_of_bit_eq
  intro i hi
  have := congrArg (fun l => l[i]?) h
  simpa [getElem?_bits hi] using this

/-- The key that starts with the bits `p` and goes on with zeros. -/
def ofBits (p : List Bool) : Digest :=
  Vector.ofFn fun j => UInt8.ofNat (Nat.ofBits fun k : Fin 8 => p.getD (8 * j + (7 - k)) false)

variable {p : List Bool}

theorem bit_ofBits {i : Nat} (h : i < 256) : bit (ofBits p) i = p.getD i false := by
  have hj : i / 8 < 32 := by omega
  have hk : 7 - i % 8 < 8 := by omega
  have hlt := Nat.ofBits_lt_two_pow fun k : Fin 8 => p.getD (8 * (i / 8) + (7 - k)) false
  have hbyte : (byteAt (ofBits p) (i / 8)).toNat =
      Nat.ofBits fun k : Fin 8 => p.getD (8 * (i / 8) + (7 - k)) false := by
    simp only [byteAt, ofBits, Vector.getElem?_ofFn, hj, dif_pos, Option.getD_some,
      UInt8.toNat_ofNat']
    exact Nat.mod_eq_of_lt hlt
  rw [bit, hbyte, Nat.testBit_ofBits_lt _ _ hk]
  congr 1
  simp only
  omega

theorem bits_ofBits (h : p.length = 256) : bits (ofBits p) = p := by
  apply List.ext_getElem?
  intro i
  by_cases hi : i < 256
  · rw [getElem?_bits hi, bit_ofBits hi, List.getD_eq_getElem?_getD,
      List.getElem?_eq_getElem (by omega)]
    rfl
  · rw [List.getElem?_eq_none (by simpa using hi), List.getElem?_eq_none (by omega)]

theorem ofBits_injOn {q : List Bool} (hlen : p.length = q.length) (hp : p.length ≤ 256)
    (h : ofBits p = ofBits q) : p = q := by
  apply List.ext_getElem?
  intro i
  by_cases hi : i < p.length
  · have := bit_ofBits (p := p) (i := i) (by omega)
    rw [h, bit_ofBits (by omega)] at this
    rw [List.getD_eq_getElem?_getD, List.getD_eq_getElem?_getD, List.getElem?_eq_getElem hi,
      List.getElem?_eq_getElem (by omega)] at this
    rw [List.getElem?_eq_getElem hi, List.getElem?_eq_getElem (by omega)]
    simpa using this.symm
  · rw [List.getElem?_eq_none (by omega), List.getElem?_eq_none (by omega)]

/-! ### Byte order is bit order -/

theorem getElem_le_of_compareLex {xs ys : List UInt8} (hlen : xs.length = ys.length)
    (hle : xs.compareLex compare ys ≠ .gt) {j : Nat} (hj : j < xs.length)
    (hpre : ∀ i, i < j → xs[i]? = ys[i]?) : xs[j]?.getD 0 ≤ ys[j]?.getD 0 := by
  induction xs generalizing ys j with
  | nil => simp at hj
  | cons x xs ih =>
    cases ys with
    | nil => simp at hlen
    | cons y ys =>
      rw [List.compareLex_cons_cons] at hle
      cases j with
      | zero =>
        have hxy : compare x y ≠ .gt := by
          intro hc
          rw [hc] at hle
          exact hle rfl
        simpa using Std.isLE_compare.mp (Ordering.isLE_iff_ne_gt.mpr hxy)
      | succ j =>
        have hxy : x = y := by simpa using hpre 0 (by omega)
        subst hxy
        rw [Std.ReflOrd.compare_self, Ordering.eq_then] at hle
        simpa using ih (by simpa using hlen) hle (by simpa using hj)
          (fun i hi => by simpa using hpre (i + 1) (by omega))

theorem byteAt_le_of_compare (hle : compare a b ≠ .gt) {j : Nat} (hj : j < 32)
    (hpre : ∀ i, i < j → byteAt a i = byteAt b i) : byteAt a j ≤ byteAt b j := by
  have hle' : a.toList.compareLex compare b.toList ≠ .gt := by
    rwa [Vector.compare_eq_compare_toList] at hle
  have h := getElem_le_of_compareLex (by simp) hle' (j := j) (by simpa using hj) (by
    intro i hi
    have := hpre i hi
    simpa [byteAt, show i < 32 by omega] using this)
  simpa [byteAt] using h

theorem testBit_le_of_le {x y k : Nat} (hle : x ≤ y) (hhigh : x / 2 ^ (k + 1) = y / 2 ^ (k + 1)) :
    x.testBit k = true → y.testBit k = true := by
  rw [Nat.testBit_eq_decide_div_mod_eq, Nat.testBit_eq_decide_div_mod_eq, decide_eq_true_eq,
    decide_eq_true_eq]
  have hdiv : x / 2 ^ k ≤ y / 2 ^ k := Nat.div_le_div_right hle
  rw [pow_succ, ← Nat.div_div_eq_div_mul, ← Nat.div_div_eq_div_mul] at hhigh
  omega

/-- **Byte order is bit order**: if `a ≤ b` agree on their first `d` bits, bit
`d` of `a` is at most that of `b`. -/
theorem bit_le_of_compare (hle : compare a b ≠ .gt) (hd : d < 256)
    (hpre : ∀ i, i < d → bit a i = bit b i) : bit a d = true → bit b d = true := by
  have hbytes : ∀ j, j < d / 8 → byteAt a j = byteAt b j := by
    intro j hj
    apply byte_ext
    intro k hk
    have := hpre (8 * j + (7 - k)) (by omega)
    unfold bit at this
    rwa [show (8 * j + (7 - k)) / 8 = j by omega,
      show 7 - (8 * j + (7 - k)) % 8 = k by omega] at this
  have hbyte : (byteAt a (d / 8)).toNat ≤ (byteAt b (d / 8)).toNat :=
    UInt8.le_iff_toNat_le.mp (byteAt_le_of_compare hle (by omega) hbytes)
  refine testBit_le_of_le hbyte ?_
  apply Nat.eq_of_testBit_eq
  intro k
  rw [Nat.testBit_div_two_pow, Nat.testBit_div_two_pow]
  by_cases hk : k + (7 - d % 8 + 1) < 8
  · have := hpre (8 * (d / 8) + (7 - (k + (7 - d % 8 + 1)))) (by omega)
    unfold bit at this
    rwa [show (8 * (d / 8) + (7 - (k + (7 - d % 8 + 1)))) / 8 = d / 8 by omega,
      show 7 - (8 * (d / 8) + (7 - (k + (7 - d % 8 + 1)))) % 8 = k + (7 - d % 8 + 1) by omega] at this
  · have hp : 2 ^ 8 ≤ 2 ^ (k + (7 - d % 8 + 1)) := Nat.pow_le_pow_right (by omega) (by omega)
    rw [Nat.testBit_lt_two_pow (lt_of_lt_of_le (UInt8.toNat_lt _) hp),
      Nat.testBit_lt_two_pow (lt_of_lt_of_le (UInt8.toNat_lt _) hp)]

end Strangecoin
