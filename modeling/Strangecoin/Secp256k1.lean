import Strangecoin.Bytes

/-! # secp256k1

Point arithmetic on the curve `y² = x³ + 7` in Jacobian coordinates, the point
encodings, and key recovery from an ECDSA signature.  As with `blake3`, this is
here so that statements made for an arbitrary signature scheme can be read at the
real one.
-/
namespace Strangecoin
namespace Secp256k1

/-- The field's characteristic. -/
def P : Nat := 2 ^ 256 - 2 ^ 32 - 977

/-- The group's order. -/
def N : Nat := 0xfffffffffffffffffffffffffffffffebaaedce6af48a03bbfd25e8cd0364141

/-- The bits of a scalar, the highest first. -/
def scalarBits (k : Nat) : List Bool := (List.range 256).map fun i => k.testBit (255 - i)

def powMod (b e m : Nat) : Nat :=
  (scalarBits e).foldl (fun acc bit =>
    let sq := acc * acc % m
    if bit then sq * b % m else sq) 1

/-- A point in Jacobian coordinates; `z = 0` is the point at infinity. -/
structure Point where
  x : Nat
  y : Nat
  z : Nat

def Point.infinity : Point := ⟨1, 1, 0⟩

def subMod (a b : Nat) : Nat := (a + (P - b % P)) % P

def Point.double (p : Point) : Point :=
  let ysq := p.y * p.y % P
  let s := 4 * p.x * ysq % P
  let m := 3 * p.x * p.x % P
  let x := subMod (m * m) (2 * s)
  ⟨x, subMod (m * subMod s x) (8 * ysq * ysq), 2 * p.y * p.z % P⟩

def Point.add (p q : Point) : Point :=
  if p.z = 0 then q
  else if q.z = 0 then p
  else
    let pz := p.z * p.z % P
    let qz := q.z * q.z % P
    let u₁ := p.x * qz % P
    let u₂ := q.x * pz % P
    let s₁ := p.y * qz * q.z % P
    let s₂ := q.y * pz * p.z % P
    if u₁ = u₂ then
      if s₁ = s₂ then p.double else Point.infinity
    else
      let h := subMod u₂ u₁
      let r := subMod s₂ s₁
      let hsq := h * h % P
      let hcu := hsq * h % P
      let v := u₁ * hsq % P
      let x := subMod (r * r) (hcu + 2 * v)
      ⟨x, subMod (r * subMod v x) (s₁ * hcu), h * p.z * q.z % P⟩

/-- Double and add. -/
def Point.mul (k : Nat) (p : Point) : Point :=
  (scalarBits k).foldl (fun acc bit => if bit then acc.double.add p else acc.double)
    Point.infinity

def generator : Point where
  x := 0x79be667ef9dcbbac55a06295ce870b07029bfcdb2dce28d959f2815b16f81798
  y := 0x483ada7726a3c4655da4fbfc0e1108a8fd17b448a68554199c47d08ffb10d4b8
  z := 1

/-- The point with a given abscissa and parity of the ordinate. -/
def liftX (x : Nat) (odd : Bool) : Option Point :=
  let rhs := (x * x * x + 7) % P
  let y := powMod rhs ((P + 1) / 4) P
  if x < P ∧ y * y % P = rhs then
    some ⟨x, if (y % 2 = 1) = odd then y else P - y, 1⟩
  else none

def ofBytes (bytes : List UInt8) : Nat := bytes.foldl (fun n b => 256 * n + b.toNat) 0

def toBytes32 (n : Nat) : List UInt8 :=
  (List.range 32).map fun i => UInt8.ofNat (n / 256 ^ (31 - i))

/-- The compressed form of a finite point. -/
def Point.serialize (p : Point) : List UInt8 :=
  let inv := powMod p.z (P - 2) P
  let x := p.x * inv * inv % P
  let y := p.y * inv * inv * inv % P
  UInt8.ofNat (2 + y % 2) :: toBytes32 x

end Secp256k1

open Secp256k1

/-- The key encoded by a byte string, in its compressed form. -/
def secp256k1PublicKey (bytes : List UInt8) : Option (List UInt8) :=
  match bytes with
  | tag :: rest =>
    if rest.length = 32 ∧ (tag = 2 ∨ tag = 3) then
      (liftX (ofBytes rest) (tag = 3)).map fun _ => bytes
    else if rest.length = 64 ∧ (tag = 4 ∨ tag = 6 ∨ tag = 7) then
      let y := ofBytes (rest.drop 32)
      match liftX (ofBytes (rest.take 32)) (y % 2 = 1) with
      | some p => if p.y = y ∧ (tag = 4 ∨ tag.toNat % 2 = y % 2) then some p.serialize else none
      | none => none
    else none
  | [] => none

/-- The key that signed a digest, from a 65-byte recoverable signature. -/
def secp256k1Recover (digest : Digest) (signature : List UInt8) : Option (List UInt8) :=
  let r := ofBytes (signature.take 32)
  let s := ofBytes ((signature.drop 32).take 32)
  let recId := (signature.getD 64 0).toNat
  let x := if recId < 2 then r else r + N
  if recId < 4 ∧ 0 < r ∧ r < N ∧ 0 < s ∧ s < N then
    match liftX x (recId % 2 = 1) with
    | some nonce =>
      let inv := powMod r (N - 2) N
      let z := ofBytes digest.toList % N
      let key := (generator.mul ((N - z) * inv % N)).add (nonce.mul (s * inv % N))
      if key.z = 0 then none else some key.serialize
    | none => none
  else none

end Strangecoin
