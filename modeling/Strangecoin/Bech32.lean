import Strangecoin.Bytes

/-! # Bech32m

The checksummed base-32 text form of a byte string under a human-readable part,
as its specification computes it.  As with `blake3`, it is here so that statements
made for an arbitrary codec can be read at the real one.
-/
namespace Strangecoin
namespace Bech32

def CHARSET : List Char := "qpzry9x8gf2tvdw0s3jn54khce6mua7l".toList

def GENERATOR : List Nat := [0x3b6a57b2, 0x26508e6d, 0x1ea119fa, 0x3d4233dd, 0x2a1462b3]

/-- The checksum constant of the `m` variant. -/
def BECH32M_CONST : Nat := 0x2bc830a3

def polymodStep (chk value : Nat) : Nat :=
  let top := chk >>> 25
  (List.range 5).foldl
    (fun chk i => if (top >>> i) &&& 1 = 1 then chk ^^^ GENERATOR.getD i 0 else chk)
    (((chk &&& 0x1ffffff) <<< 5) ^^^ value)

def polymod (values : List Nat) : Nat := values.foldl polymodStep 1

def expandHrp (hrp : String) : List Nat :=
  (hrp.toList.map (fun c => c.toNat >>> 5)) ++ [0] ++ hrp.toList.map (fun c => c.toNat &&& 31)

def checksum (hrp : String) (data : List Nat) : List Nat :=
  let m := polymod (expandHrp hrp ++ data ++ List.replicate 6 0) ^^^ BECH32M_CONST
  (List.range 6).map fun i => (m >>> (5 * (5 - i))) &&& 31

/-- The five-bit groups of a bit list, the last one padded with zeros. -/
def groups : Nat → List Bool → List Nat
  | 0, _ => []
  | _, [] => []
  | fuel + 1, b :: bs =>
    let group := (b :: bs).take 5
    (group ++ List.replicate (5 - group.length) false).foldl (fun n b => 2 * n + b.toNat) 0 ::
      groups fuel ((b :: bs).drop 5)

def bytesToBits (bytes : List UInt8) : List Bool :=
  bytes.flatMap fun x => (List.range 8).map fun i => x.toNat.testBit (7 - i)

/-- The bytes of a bit list; an incomplete last one is dropped. -/
def bitsToBytes : Nat → List Bool → List UInt8
  | 0, _ => []
  | fuel + 1, bits =>
    if bits.length < 8 then []
    else UInt8.ofNat ((bits.take 8).foldl (fun n b => 2 * n + b.toNat) 0) ::
      bitsToBytes fuel (bits.drop 8)

end Bech32

/-- The text form of a payload. -/
def bech32mEncode (hrp : String) (payload : List UInt8) : String :=
  let bits := Bech32.bytesToBits payload
  let data := Bech32.groups bits.length bits
  hrp ++ "1" ++ String.ofList ((data ++ Bech32.checksum hrp data).map
    fun d => Bech32.CHARSET.getD d 'q')

/-- The human-readable part and the payload of a lower-case text. -/
def bech32mDecode (text : String) : Option (String × List UInt8) :=
  let tail := text.toList.reverse.takeWhile (fun c => c != '1')
  let hrp := String.ofList (text.toList.take (text.toList.length - tail.length - 1))
  let data := tail.reverse.map fun c => Bech32.CHARSET.idxOf c
  if data.all (fun d => d < 32) ∧ 6 ≤ data.length ∧
      Bech32.polymod (Bech32.expandHrp hrp ++ data) = Bech32.BECH32M_CONST then
    let bits := (data.take (data.length - 6)).flatMap fun d =>
      (List.range 5).map fun i => d.testBit (4 - i)
    some (hrp, Bech32.bitsToBytes bits.length bits)
  else none

end Strangecoin
