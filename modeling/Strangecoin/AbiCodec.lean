import Strangecoin.BlockCodec

/-! # Calldata

`encode_args` and `decode_args`.  A list of values is encoded as a head and a tail:
a value of a static type stands in the head, one of a dynamic type in the tail, with
its offset in the head.  The decoder only accepts the offsets the encoder writes.

Both recurse on the type.  The elements of an array are one type repeated, so a
tuple is given by a list of encoders (decoders): a type with the functions for it.

Sizes are `usize` and wrap.  A vector of more than `isize::MAX` bytes cannot be
allocated: the program panics, and so does the model (`allocated`, `sliceOf`); that
includes the vectors of eight-byte references to the element types.
-/
namespace Strangecoin

/-- A value of the ABI. -/
inductive AbiValue where
  | uint (value : Digest)
  | int (value : Digest)
  | bool (value : Bool)
  | address (value : Digest)
  | bytes (value : List UInt8)
  | string (value : String)
  | array (values : List AbiValue)
  | fixedArray (values : List AbiValue)
  | tuple (values : List AbiValue)

/-- How the codec stops: with an error, or with a panic. -/
inductive AbiFailure where
  | rejected (error : AbiError)
  | panicked (message : String)
deriving DecidableEq, Repr

def ISIZE_MAX : Nat := 2 ^ 63 - 1

/-- A vector that is allocated: at most `isize::MAX` bytes. -/
def allocated {α : Type} (width : Nat) (xs : List α) : Except AbiFailure (List α) :=
  if width * xs.length ≤ ISIZE_MAX then .ok xs else .error (.panicked "capacity overflow")

/-- `vec![elem; len]`, a vector of references. -/
def repeated {α : Type} (x : α) (len : Nat) : Except AbiFailure (List α) :=
  allocated 8 (List.replicate len x)

/-- `data[start..stop]`. -/
def sliceOf (data : List UInt8) (start stop : Nat) : Except AbiFailure (List UInt8) :=
  if start ≤ stop ∧ stop ≤ data.length then .ok ((data.take stop).drop start)
  else .error (.panicked "range out of bounds")

/-! ### Sizes -/

namespace AbiType

mutual
def isDynamic : AbiType → Bool
  | .uint _ | .int _ | .bool | .address => false
  | .bytes | .string | .array _ => true
  | .fixedArray elem _ => elem.isDynamic
  | .tuple elems => anyDynamic elems

def anyDynamic : List AbiType → Bool
  | [] => false
  | elem :: elems => elem.isDynamic || anyDynamic elems
end

mutual
/-- The bytes of a static type in the head; the product and the sum wrap. -/
def staticSize : AbiType → Option Nat
  | .uint _ | .int _ | .bool | .address => some 32
  | .fixedArray elem len => elem.staticSize.map fun size => size * len % 2 ^ 64
  | .tuple elems => staticSizes 0 elems
  | .bytes | .string | .array _ => none

def staticSizes (total : Nat) : List AbiType → Option Nat
  | [] => some total
  | elem :: elems => elem.staticSize.bind fun size => staticSizes ((total + size) % 2 ^ 64) elems
end

/-- The bytes of a type in the head of its tuple. -/
def headSize (t : AbiType) : Nat := if t.isDynamic then 4 else t.staticSize.getD 0

def headLen (types : List AbiType) : Nat :=
  types.foldl (fun total t => (total + t.headSize) % 2 ^ 64) 0

end AbiType

/-! ### Words -/

def checkUintRange (value : Digest) (bits : UInt16) : Except AbiError Unit := do
  validateBits bits
  let full := bits.toNat / 8
  guardWith (∀ b ∈ value.toList.take (32 - full), b = 0)
    (.invalidValue ("uint" ++ toString bits.toNat ++ " value has non-zero high bytes"))

/-- The byte that extends the sign of a value of `keep` bytes. -/
def signFill (value : Digest) (keep : Nat) : UInt8 :=
  if byteAt value (32 - keep) &&& 0x80 ≠ 0 then 0xff else 0x00

def checkIntRange (value : Digest) (bits : UInt16) : Except AbiError Unit := do
  validateBits bits
  let keep := bits.toNat / 8
  let fill := signFill value keep
  guardWith (∀ b ∈ value.toList.take (32 - keep), b = fill)
    (.invalidValue ("int" ++ toString bits.toNat ++ " value is not sign-extended"))

/-- An error of the codec. -/
def liftAbi {α : Type} : Except AbiError α → Except AbiFailure α
  | .ok a => .ok a
  | .error e => .error (.rejected e)

def readWord (data : List UInt8) : Except AbiFailure Digest :=
  if 32 ≤ data.length then .ok (digestOfBytes (data.take 32))
  else .error (.rejected (.unexpectedEnd data.length))

def readU32 (data : List UInt8) (start : Nat) : Except AbiFailure UInt32 :=
  if start + 4 ≤ data.length then .ok (fromBeBytes32 ((data.take (start + 4)).drop start))
  else .error (.rejected (.unexpectedEnd data.length))

/-- The word of a boolean. -/
def boolWord (b : Bool) : List UInt8 := List.replicate 31 0 ++ [if b then 1 else 0]

/-! ### Encoding -/

def valueKind : AbiValue → String
  | .uint _ => "uint"
  | .int _ => "int"
  | .bool _ => "bool"
  | .address _ => "address"
  | .bytes _ => "bytes"
  | .string _ => "string"
  | .array _ => "array"
  | .fixedArray _ => "fixed_array"
  | .tuple _ => "tuple"

/-- A type with its `encode_static` and `encode_dynamic_body`; the latter returns what
the source appends to the tail. -/
structure Encoder where
  type : AbiType
  static : AbiValue → Except AbiFailure (List UInt8)
  body : AbiValue → Except AbiFailure (List UInt8)

/-- The loop of `encode_tuple`, with the head and the tail so far. -/
def encodeElems (headLen : Nat) (head tail : List UInt8) :
    List Encoder → List AbiValue → Except AbiFailure (List UInt8 × List UInt8)
  | e :: encoders, v :: values =>
    if e.type.isDynamic then do
      let offset := headLen + tail.length
      guardWith (offset < 2 ^ 32) (.rejected (.invalidOffset 0xffffffff offset))
      let head ← allocated 1 (head ++ toBeBytes32 (UInt32.ofNat offset))
      let body ← e.body v
      let tail ← allocated 1 (tail ++ body)
      encodeElems headLen head tail encoders values
    else do
      let bytes ← e.static v
      let head ← allocated 1 (head ++ bytes)
      encodeElems headLen head tail encoders values
  | _, _ => .ok (head, tail)

def encodeTuple (encoders : List Encoder) (values : List AbiValue) :
    Except AbiFailure (List UInt8) := do
  guardWith (encoders.length = values.length)
    (.rejected (.arityMismatch encoders.length values.length))
  let headLen := AbiType.headLen (encoders.map Encoder.type)
  guardWith (headLen ≤ ISIZE_MAX) (.panicked "capacity overflow")
  let (head, tail) ← encodeElems headLen [] [] encoders values
  allocated 1 (head ++ tail)

/-- A byte string behind its length. -/
def encodeBytes (bytes : List UInt8) (tooLong : String) : Except AbiFailure (List UInt8) := do
  guardWith (bytes.length < 2 ^ 32) (.rejected (.invalidValue tooLong))
  return toBeBytes32 (UInt32.ofNat bytes.length) ++ bytes

def encodeRepeated (elem : Encoder) (len : Nat) (values : List AbiValue) :
    Except AbiFailure (List UInt8) := do
  guardWith (values.length = len) (.rejected (.invalidValue
    ("fixed array length " ++ toString len ++ ", got " ++ toString values.length)))
  let encoders ← repeated elem len
  encodeTuple encoders values

def encodeArray (elem : Encoder) (values : List AbiValue) : Except AbiFailure (List UInt8) := do
  guardWith (values.length < 2 ^ 32)
    (.rejected (.invalidValue "array longer than u32::MAX elements"))
  let encoders ← repeated elem values.length
  let elems ← encodeTuple encoders values
  return toBeBytes32 (UInt32.ofNat values.length) ++ elems

def typeMismatch {α : Type} (t : AbiType) (got : String) : Except AbiFailure α :=
  .error (.rejected (.typeMismatch t.canonicalName got))

namespace AbiType

mutual
def encodeStatic : AbiType → AbiValue → Except AbiFailure (List UInt8)
  | .uint bits, .uint value => do
    liftAbi (checkUintRange value bits)
    return value.toList
  | .int bits, .int value => do
    liftAbi (checkIntRange value bits)
    return value.toList
  | .bool, .bool b => .ok (boolWord b)
  | .address, .address value => .ok value.toList
  | .fixedArray elem len, .fixedArray values =>
    encodeRepeated ⟨elem, encodeStatic elem, encodeDynamicBody elem⟩ len values
  | .tuple elems, .tuple values => encodeTuple (encoders elems) values
  | t, v => typeMismatch t (valueKind v)

def encodeDynamicBody : AbiType → AbiValue → Except AbiFailure (List UInt8)
  | .bytes, .bytes value => encodeBytes value "bytes longer than u32::MAX"
  | .string, .string s => encodeBytes (asBytes s) "string longer than u32::MAX"
  | .array elem, .array values =>
    encodeArray ⟨elem, encodeStatic elem, encodeDynamicBody elem⟩ values
  | .fixedArray elem len, .fixedArray values =>
    encodeRepeated ⟨elem, encodeStatic elem, encodeDynamicBody elem⟩ len values
  | .tuple elems, .tuple values => encodeTuple (encoders elems) values
  | t, v => typeMismatch t (valueKind v)

def encoders : List AbiType → List Encoder
  | [] => []
  | elem :: elems => ⟨elem, encodeStatic elem, encodeDynamicBody elem⟩ :: encoders elems
end

end AbiType

def encodeArgs (params : List AbiParam) (values : List AbiValue) :
    Except AbiFailure (List UInt8) := do
  guardWith (params.length = values.length)
    (.rejected (.arityMismatch params.length values.length))
  encodeTuple (AbiType.encoders (params.map AbiParam.paramType)) values

/-! ### Decoding -/

/-- A type with its `decode_static` and `decode_dynamic_body`. -/
structure Decoder where
  type : AbiType
  static : List UInt8 → Except AbiFailure (AbiValue × Nat)
  body : List UInt8 → Except AbiFailure (AbiValue × Nat)

/-- The loop of `decode_tuple`, with the positions in the head and in the tail. -/
def decodeElems (data : List UInt8) (headPos tailPos : Nat) :
    List Decoder → Except AbiFailure (List AbiValue × Nat)
  | [] => .ok ([], tailPos)
  | d :: decoders =>
    if d.type.isDynamic then do
      let offset ← readU32 data headPos
      guardWith (offset.toNat = tailPos)
        (.rejected (.nonCanonicalOffset (UInt32.ofNat tailPos) offset))
      let rest ← sliceOf data tailPos data.length
      let (value, consumed) ← d.body rest
      let (values, stop) ← decodeElems data (headPos + 4) (tailPos + consumed) decoders
      return (value :: values, stop)
    else do
      let size := d.type.staticSize.getD 0
      let bytes ← sliceOf data headPos (headPos + size)
      let (value, _) ← d.static bytes
      let (values, stop) ← decodeElems data (headPos + size) tailPos decoders
      return (value :: values, stop)

/-- The values and the bytes consumed. -/
def decodeTuple (decoders : List Decoder) (data : List UInt8) :
    Except AbiFailure (List AbiValue × Nat) := do
  let headLen := AbiType.headLen (decoders.map Decoder.type)
  guardWith (headLen ≤ data.length) (.rejected (.unexpectedEnd data.length))
  decodeElems data 0 headLen decoders

/-- A byte string behind its length, with the bytes consumed. -/
def decodeBytes (data : List UInt8) : Except AbiFailure (List UInt8 × Nat) := do
  let len ← readU32 data 0
  -- the length is below `2 ^ 32`, so that `checked_add` does not overflow
  let stop := 4 + len.toNat
  guardWith (stop ≤ data.length) (.rejected (.unexpectedEnd data.length))
  let bytes ← sliceOf data 4 stop
  return (bytes, stop)

def decodeRepeated (elem : Decoder) (len : Nat) (data : List UInt8) :
    Except AbiFailure (List AbiValue × Nat) := do
  let decoders ← repeated elem len
  decodeTuple decoders data

def decodeArray (elem : Decoder) (data : List UInt8) :
    Except AbiFailure (List AbiValue × Nat) := do
  let count ← readU32 data 0
  guardWith (count.toNat ≤ data.length) (.rejected (.unexpectedEnd data.length))
  let decoders ← repeated elem count.toNat
  let (values, consumed) ← decodeTuple decoders (← sliceOf data 4 data.length)
  return (values, 4 + consumed)

/-- A word with its sign extended to all of it. -/
def signExtend (value : Digest) (keep : Nat) : Digest :=
  if keep < 32 then
    Vector.ofFn fun i => if i.val < 32 - keep then signFill value keep else byteAt value i
  else value

namespace AbiType

mutual
def decodeStatic : AbiType → List UInt8 → Except AbiFailure (AbiValue × Nat)
  | .uint bits, data => do
    let raw ← readWord data
    liftAbi (checkUintRange raw bits)
    return (.uint raw, 32)
  | .int bits, data => do
    let raw ← readWord data
    liftAbi (checkIntRange raw bits)
    return (.int (signExtend raw (bits.toNat / 8)), 32)
  | .bool, data => do
    let word ← readWord data
    guardWith ((∀ b ∈ word.toList.take 31, b = 0) ∧ byteAt word 31 ≤ 1)
      (.rejected (.invalidValue "bool word is not 0 or 1"))
    return (.bool (byteAt word 31 == 1), 32)
  | .address, data => do
    let word ← readWord data
    return (.address word, 32)
  | .fixedArray elem len, data => do
    let (values, consumed) ←
      decodeRepeated ⟨elem, decodeStatic elem, decodeDynamicBody elem⟩ len data
    return (.fixedArray values, consumed)
  | .tuple elems, data => do
    let (values, consumed) ← decodeTuple (decoders elems) data
    return (.tuple values, consumed)
  | t, _ => typeMismatch t "static"

def decodeDynamicBody : AbiType → List UInt8 → Except AbiFailure (AbiValue × Nat)
  | .bytes, data => do
    let (value, consumed) ← decodeBytes data
    return (.bytes value, consumed)
  | .string, data => do
    let (value, consumed) ← decodeBytes data
    let s ← (fromUtf8 value).mapError fun _ => .rejected .invalidUtf8
    return (.string s, consumed)
  | .array elem, data => do
    let (values, consumed) ←
      decodeArray ⟨elem, decodeStatic elem, decodeDynamicBody elem⟩ data
    return (.array values, consumed)
  | .fixedArray elem len, data => do
    let (values, consumed) ←
      decodeRepeated ⟨elem, decodeStatic elem, decodeDynamicBody elem⟩ len data
    return (.fixedArray values, consumed)
  | .tuple elems, data => do
    let (values, consumed) ← decodeTuple (decoders elems) data
    return (.tuple values, consumed)
  | t, _ => typeMismatch t "dynamic"

def decoders : List AbiType → List Decoder
  | [] => []
  | elem :: elems => ⟨elem, decodeStatic elem, decodeDynamicBody elem⟩ :: decoders elems
end

end AbiType

def decodeArgs (params : List AbiParam) (data : List UInt8) :
    Except AbiFailure (List AbiValue) := do
  let (values, consumed) ← decodeTuple (AbiType.decoders (params.map AbiParam.paramType)) data
  guardWith (consumed = data.length)
    (.rejected (.trailingData consumed (data.length - consumed)))
  return values

end Strangecoin
