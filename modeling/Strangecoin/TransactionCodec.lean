import Strangecoin.AbiTypes
import Strangecoin.Readers

/-! # Reading transactions from the wire

The readers of `serialize.rs`: words, strings and byte strings with a length in
front, and from them the body of a transaction and the signed transaction.
-/
namespace Strangecoin

def Transaction.setSignature (tx : Transaction) (signature : List UInt8) : Transaction :=
  match tx with
  | .transfer t => .transfer { t with signature := signature }
  | .create t => .create { t with signature := signature }
  | .call t => .call { t with signature := signature }

/-! ### Fields -/

def readU32Be : Reader String UInt32 := do
  let word ← Reader.take 4 "Buffer too short for u32"
  return fromBeBytes32 word

def readU64Be : Reader String UInt64 := do
  let word ← Reader.take 8 "Buffer too short for u64"
  return fromBeBytes64 word

/-- `str::from_utf8`. -/
def fromUtf8 (bytes : List UInt8) : Except String String :=
  okOr (String.fromUTF8? ⟨bytes.toArray⟩) "Invalid UTF-8 in string"

def readString : Reader String String := do
  let len ← readU32Be
  let bytes ← Reader.take len.toNat "Buffer too short for string"
  Reader.check (fromUtf8 bytes)

def readBytes : Reader String (List UInt8) := do
  let len ← readU32Be
  Reader.take len.toNat "Buffer too short for bytes"

def readTxTag : Reader String UInt8 := do
  let tag ← Reader.byte "Buffer too short for tx tag"
  Reader.check (guardWith (tag = TX_TAG_TRANSFER ∨ tag = TX_TAG_CREATE ∨ tag = TX_TAG_CALL)
    "Unknown transaction tag")
  return tag

/-- The name of one constructor parameter; parameter names are not on the wire. -/
def decodeConstructorParam (name : List Char) : Except String AbiParam :=
  match AbiType.parseChars name with
  | .ok paramType => .ok ⟨"", paramType⟩
  | .error _ => .error "Invalid constructor_params type"

/-- The raw text is split at every comma. -/
def decodeConstructorParams (raw : String) : Except String (List AbiParam) :=
  if raw = "" then .ok [] else (raw.toList.splitOn ',').mapM decodeConstructorParam

/-! ### Transactions -/

def readTransfer : Reader String Transaction := do
  let sender ← readString
  let receiver ← readString
  let amount ← readU64Be
  let fee ← readU64Be
  let nonce ← readU64Be
  let chainId ← readU32Be
  let flag ← Reader.byte "Buffer too short for is_coinbase"
  return .transfer ⟨sender, receiver, amount, fee, nonce, chainId, [], flag ≠ 0⟩

def readCreate : Reader String Transaction := do
  let sender ← readString
  let initCode ← readBytes
  let initArgs ← readBytes
  let constructorParamsRaw ← readString
  let constructorParams ← Reader.check (decodeConstructorParams constructorParamsRaw)
  let endowment ← readU64Be
  let gasLimit ← readU64Be
  let fee ← readU64Be
  let nonce ← readU64Be
  let chainId ← readU32Be
  return .create ⟨sender, initCode, initArgs, constructorParams, endowment, gasLimit, fee, nonce,
    chainId, []⟩

def readCall : Reader String Transaction := do
  let sender ← readString
  let receiver ← readString
  let data ← readBytes
  let value ← readU64Be
  let gasLimit ← readU64Be
  let fee ← readU64Be
  let nonce ← readU64Be
  let chainId ← readU32Be
  return .call ⟨sender, receiver, data, value, gasLimit, fee, nonce, chainId, []⟩

/-- The body that belongs to a tag. -/
def readBody (tag : UInt8) : Reader String Transaction :=
  if tag = TX_TAG_TRANSFER then readTransfer
  else if tag = TX_TAG_CREATE then readCreate
  else if tag = TX_TAG_CALL then readCall
  else Reader.check (.error "Unknown transaction tag")

def deserializeUnsignedBody : Reader String Transaction := do
  let tag ← readTxTag
  readBody tag

def readFormatVersion : Reader String Unit := do
  let version ← Reader.byte "Empty buffer"
  Reader.check (guardWith (version = FORMAT_VERSION) "Unsupported format version")

/-- The signature is all that is left. -/
def readSignature : Reader String (List UInt8) := do
  let len ← readU32Be
  fun rest => if rest.length ≠ len.toNat then .error "Signature length mismatch" else .ok (rest, [])

def readTransactionSigned : Reader String Transaction := do
  readFormatVersion
  let tx ← deserializeUnsignedBody
  let signature ← readSignature
  return tx.setSignature signature

def deserializeTransactionSigned (bytes : List UInt8) : Except String Transaction :=
  (readTransactionSigned.run bytes).map Prod.fst

/-! ### The fields that are read -/

open Reader

theorem reads_u32 (x : UInt32) : Reads readU32Be (toBeBytes32 x) x := by
  have h := (reads_take (e := "Buffer too short for u32") (length_toBeBytes32 x)).bind
    (f := fun word => pure (fromBeBytes32 word)) reads_pure
  rwa [List.append_nil, fromBeBytes32_toBeBytes32] at h

theorem reads_u64 (x : UInt64) : Reads readU64Be (toBeBytes x) x := by
  have h := (reads_take (e := "Buffer too short for u64") (length_toBeBytes x)).bind
    (f := fun word => pure (fromBeBytes64 word)) reads_pure
  rwa [List.append_nil, fromBeBytes64_toBeBytes] at h

theorem exact_u32 : Exact readU32Be toBeBytes32 := by
  intro bytes x rest h
  obtain ⟨word, mid, hword, h⟩ := run_bind_ok.mp h
  obtain ⟨rfl, rfl⟩ := run_pure_ok.mp h
  obtain ⟨rfl, hlength⟩ := run_take_ok.mp hword
  rw [toBeBytes32_fromBeBytes32 hlength]

theorem exact_u64 : Exact readU64Be toBeBytes := by
  intro bytes x rest h
  obtain ⟨word, mid, hword, h⟩ := run_bind_ok.mp h
  obtain ⟨rfl, rfl⟩ := run_pure_ok.mp h
  obtain ⟨rfl, hlength⟩ := run_take_ok.mp hword
  rw [toBeBytes_fromBeBytes64 hlength]

variable {bytes : List UInt8} {s : String}

theorem fromUtf8_ok : fromUtf8 bytes = .ok s ↔ asBytes s = bytes := by
  unfold fromUtf8 String.fromUTF8?
  rw [okOr_eq_ok]
  constructor
  · intro h
    split at h
    · obtain rfl := Option.some.inj h
      rfl
    · exact absurd h nofun
  · rintro rfl
    have hbytes : (⟨(asBytes s).toArray⟩ : ByteArray) = s.toByteArray := by
      unfold asBytes
      rw [Array.toArray_toList]
    rw [hbytes, dif_pos s.isValidUTF8]
    rfl

theorem toNat_ofNat_length {α : Type} {l : List α} (h : l.length < 2 ^ 32) :
    (UInt32.ofNat l.length).toNat = l.length :=
  UInt32.toNat_ofNat_of_lt' h

variable {b : List UInt8}

theorem reads_bytes (h : b.length < 2 ^ 32) : Reads readBytes (writeBytes b) b :=
  (reads_u32 _).bind (reads_take (toNat_ofNat_length h).symm)

theorem reads_string (h : (asBytes s).length < 2 ^ 32) : Reads readString (writeString s) s := by
  have hread := (reads_u32 (UInt32.ofNat (asBytes s).length)).bind
    (f := fun len => take len.toNat "Buffer too short for string" >>= fun b => Reader.check (fromUtf8 b))
    ((reads_take (toNat_ofNat_length h).symm).bind (reads_check (fromUtf8_ok.mpr rfl)))
  rwa [List.append_nil] at hread

variable {rest : List UInt8}

/-- The bytes of a length-prefixed field. -/
theorem exact_prefixed {len : UInt32} (hbytes : bytes = toBeBytes32 len ++ (b ++ rest))
    (hlength : b.length = len.toNat) : bytes = writeBytes b ++ rest ∧ b.length < 2 ^ 32 := by
  refine ⟨?_, hlength ▸ len.toNat_lt⟩
  rw [hbytes, writeBytes, hlength, UInt32.ofNat_toNat, List.append_assoc]

theorem readBytes_ok (h : readBytes.run bytes = .ok (b, rest)) :
    bytes = writeBytes b ++ rest ∧ b.length < 2 ^ 32 := by
  obtain ⟨len, mid, hlen, h⟩ := run_bind_ok.mp h
  obtain ⟨rfl, hlength⟩ := run_take_ok.mp h
  exact exact_prefixed (exact_u32 _ _ _ hlen) hlength

theorem readString_ok (h : readString.run bytes = .ok (s, rest)) :
    bytes = writeString s ++ rest ∧ (asBytes s).length < 2 ^ 32 := by
  obtain ⟨len, mid, hlen, h⟩ := run_bind_ok.mp h
  obtain ⟨b, mid', hb, h⟩ := run_bind_ok.mp h
  obtain ⟨hutf8, rfl⟩ := run_check_ok.mp h
  obtain ⟨rfl, hlength⟩ := run_take_ok.mp hb
  obtain rfl := fromUtf8_ok.mp hutf8
  exact exact_prefixed (exact_u32 _ _ _ hlen) hlength

end Strangecoin
