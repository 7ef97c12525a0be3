import Strangecoin.ReferenceCrates
import Strangecoin.TransactionWire

/-! # Round trips of transactions

Decoding inverts encoding exactly for the transactions whose constructor types
survive the comma-joined text, and an accepted encoding is the canonical one
exactly if its flag byte and its numerals are written as the encoder writes them.
-/
namespace Strangecoin

open Reader

/-! ### Decoding what was encoded -/

theorem transferForm_inj {t : TransferTx} {flag flag' : UInt8} :
    transferForm t flag = transferForm t flag' ↔ flag = flag' := by
  simp [transferForm]

theorem createForm_inj {t : CreateTx} {raw raw' : String} :
    createForm t raw = createForm t raw' ↔ raw = raw' := by
  refine ⟨fun h => writeString_injective ?_, fun h => h ▸ rfl⟩
  simpa only [createForm, List.cons.injEq, true_and, List.append_right_inj,
    List.append_left_inj] using h

/-- **A transaction is decoded to itself exactly if its constructor types have no
tuples of two or more elements** and their joined names fit a length field. -/
theorem decode_encoded_transaction_iff (tx : Transaction) (hshort : tx.FieldsShort)
    (hnames : ∀ param ∈ tx.constructorParams, param.name = "")
    (hvalid : ∀ param ∈ tx.constructorParams, param.paramType.Valid) :
    deserializeTransactionSigned (serializeTransactionSigned tx) = .ok tx ↔
      (∀ param ∈ tx.constructorParams, param.paramType.Narrow) ∧
      (asBytes (encodeConstructorParams tx.constructorParams)).length < 2 ^ 32 := by
  have hempty : (asBytes (encodeConstructorParams [])).length < 2 ^ 32 := by decide
  rw [deserialize_iff]
  cases tx with
  | transfer t =>
    have hflag : t.isCoinbase = decide ((if t.isCoinbase then 1 else 0 : UInt8) ≠ 0) := by
      cases t.isCoinbase <;> rfl
    refine iff_of_true (serialize_transfer t ▸ .transfer t _ hshort hflag) ?_
    exact ⟨nofun, hempty⟩
  | call t =>
    refine iff_of_true (serialize_call t ▸ .call t hshort) ?_
    exact ⟨nofun, hempty⟩
  | create t =>
    rw [serialize_create]
    constructor
    · intro h
      generalize hbytes : createForm t _ = bytes at h
      cases h with
      | create _ raw _ hraw hdecode =>
        obtain rfl := createForm_inj.mp hbytes
        exact ⟨fun param hparam => (valid_of_decode hdecode param hparam).2, hraw⟩
    · rintro ⟨hnarrow, hlength⟩
      refine .create t _ hshort hlength (decode_encode fun param hparam => ?_)
      exact ⟨hnames param hparam, hvalid param hparam, hnarrow param hparam⟩

/-- A creation whose constructor takes one argument of the given type. -/
def creationWith (paramType : AbiType) : Transaction :=
  .create ⟨"alice", [0], [], [⟨"", paramType⟩], 0, 0, 0, 1, 1, []⟩

theorem decode_encoded_single_tuple :
    deserializeTransactionSigned (serializeTransactionSigned
      (creationWith (.tuple [.array .bool]))) = .ok (creationWith (.tuple [.array .bool])) := by
  refine (decode_encoded_transaction_iff _ ?_ ?_ ?_).mpr ⟨?_, ?_⟩
  · exact ⟨by decide, by decide, by decide, by decide⟩
  · simp [creationWith, Transaction.constructorParams]
  · simp [creationWith, Transaction.constructorParams, AbiType.Valid, AbiType.AllValid]
  · simp [creationWith, Transaction.constructorParams, AbiType.Narrow, AbiType.AllNarrow]
  · decide

/-- The pair type is split at its own comma. -/
theorem decode_encoded_pair_fails :
    ∃ tx : Transaction, tx.FieldsShort ∧
      (∀ param ∈ tx.constructorParams, param.name = "" ∧ param.paramType.Valid) ∧
      deserializeTransactionSigned (serializeTransactionSigned tx) ≠ .ok tx := by
  refine ⟨creationWith (.tuple [.bool, .bool]), ⟨by decide, by decide, by decide, by decide⟩,
    by simp [creationWith, Transaction.constructorParams, AbiType.Valid, AbiType.AllValid], fun h => ?_⟩
  rw [deserialize_iff, creationWith, serialize_create] at h
  generalize hbytes : createForm _ _ = bytes at h
  cases h with
  | create _ raw _ hraw hdecode =>
    have hnarrow := (valid_of_decode hdecode _ (List.mem_singleton.mpr rfl)).2
    exact absurd hnarrow.1 (by decide)

/-! ### Encoding what was decoded -/

/-- The flag byte of a transfer. -/
def wireFlag : Reader String UInt8 := do
  readFormatVersion
  let _ ← readTxTag
  let _ ← readString
  let _ ← readString
  let _ ← readU64Be
  let _ ← readU64Be
  let _ ← readU64Be
  let _ ← readU32Be
  Reader.byte "Buffer too short for is_coinbase"

/-- The text of the constructor types of a creation. -/
def wireParams : Reader String String := do
  readFormatVersion
  let _ ← readTxTag
  let _ ← readString
  let _ ← readBytes
  let _ ← readBytes
  readString

/-- The flag of a transfer is 0 or 1, and no numeral in the constructor types of
a creation is padded. -/
def CanonicalWire (bytes : List UInt8) : Prop :=
  (bytes[1]? = some TX_TAG_TRANSFER → ∀ flag rest, wireFlag.run bytes = .ok (flag, rest) →
    flag = 0 ∨ flag = 1) ∧
  (bytes[1]? = some TX_TAG_CREATE → ∀ raw rest, wireParams.run bytes = .ok (raw, rest) →
    raw.toList.IsChain AbiType.Unpadded)

theorem canonicalWire_transferForm {t : TransferTx} {flag : UInt8}
    (hshort : (Transaction.transfer t).FieldsShort) :
    CanonicalWire (transferForm t flag) ↔ flag = 0 ∨ flag = 1 := by
  have hread : Reads wireFlag ([FORMAT_VERSION] ++ ([TX_TAG_TRANSFER] ++ (writeString t.sender ++
      (writeString t.receiver ++ (toBeBytes t.amount ++ (toBeBytes t.fee ++ (toBeBytes t.nonce ++
      (toBeBytes32 t.chainId ++ [flag])))))))) flag :=
    reads_formatVersion.bind ((reads_txTag (.inl rfl)).bind ((reads_string hshort.1).bind
      ((reads_string hshort.2.1).bind ((reads_u64 _).bind ((reads_u64 _).bind ((reads_u64 _).bind
      ((reads_u32 _).bind reads_byte)))))))
  have hflag : wireFlag.run (transferForm t flag) = .ok (flag, writeBytes t.signature) := by
    have hrun := hread (writeBytes t.signature)
    simpa [transferForm] using hrun
  constructor
  · exact fun h => h.1 rfl flag _ hflag
  · intro h
    refine ⟨fun _ flag' rest hrun => ?_, fun htag => absurd htag (by simp [transferForm]; decide)⟩
    rw [hflag] at hrun
    obtain ⟨rfl, -⟩ := ok_pair hrun
    exact h

theorem canonicalWire_createForm {t : CreateTx} {raw : String}
    (hshort : (Transaction.create t).FieldsShort) (hraw : (asBytes raw).length < 2 ^ 32) :
    CanonicalWire (createForm t raw) ↔ raw.toList.IsChain AbiType.Unpadded := by
  have hread : Reads wireParams ([FORMAT_VERSION] ++ ([TX_TAG_CREATE] ++ (writeString t.sender ++
      (writeBytes t.initCode ++ (writeBytes t.initArgs ++ writeString raw))))) raw :=
    reads_formatVersion.bind ((reads_txTag (.inr (.inl rfl))).bind ((reads_string hshort.1).bind
      ((reads_bytes hshort.2.1).bind ((reads_bytes hshort.2.2.1).bind (reads_string hraw)))))
  have hparams : ∃ rest, wireParams.run (createForm t raw) = .ok (raw, rest) := by
    have hrun := hread (toBeBytes t.endowment ++ (toBeBytes t.gasLimit ++ (toBeBytes t.fee ++
      (toBeBytes t.nonce ++ (toBeBytes32 t.chainId ++ writeBytes t.signature)))))
    exact ⟨_, by simpa [createForm] using hrun⟩
  obtain ⟨rest, hparams⟩ := hparams
  constructor
  · exact fun h => h.2 rfl raw _ hparams
  · intro h
    refine ⟨fun htag => absurd htag (by simp [createForm]; decide), fun _ raw' rest' hrun => ?_⟩
    rw [hparams] at hrun
    obtain ⟨rfl, -⟩ := ok_pair hrun
    exact h

theorem canonicalWire_callForm (t : CallTx) : CanonicalWire (callForm t) :=
  ⟨fun htag => absurd htag (by simp [callForm]; decide),
    fun htag => absurd htag (by simp [callForm]; decide)⟩

/-- **An accepted transaction is encoded to the bytes it was read from exactly if
these are written as the encoder writes them.**  Then its id is their hash, and
no other such bytes are read as it. -/
theorem encode_decoded_transaction_iff (crates : Crates) {bytes : List UInt8} {tx : Transaction}
    (h : deserializeTransactionSigned bytes = .ok tx) :
    (serializeTransactionSigned tx = bytes ↔ CanonicalWire bytes) ∧
    (CanonicalWire bytes → crates.txid tx = crates.blake3 bytes ∧
      ∀ bytes', deserializeTransactionSigned bytes' = .ok tx → CanonicalWire bytes' →
        bytes' = bytes) := by
  have hcanonical : ∀ {bytes}, OnWire bytes tx →
      (serializeTransactionSigned tx = bytes ↔ CanonicalWire bytes) := by
    intro bytes hwire
    cases hwire with
    | transfer t flag hshort hflag =>
      rw [serialize_transfer, transferForm_inj, canonicalWire_transferForm hshort, hflag]
      by_cases hzero : flag = 0
      · simp [hzero]
      · simp [hzero, eq_comm]
    | create t raw hshort hraw hdecode =>
      rw [serialize_create, createForm_inj, canonicalWire_createForm hshort hraw]
      exact encode_eq_iff_of_decode hdecode
    | call t hshort => exact iff_of_true (serialize_call t) (canonicalWire_callForm t)
  refine ⟨hcanonical (deserialize_iff.mp h), fun hbytes => ?_⟩
  have hsame := (hcanonical (deserialize_iff.mp h)).mpr hbytes
  refine ⟨congrArg crates.blake3 hsame, fun bytes' h' hbytes' => ?_⟩
  rw [← hsame, (hcanonical (deserialize_iff.mp h')).mpr hbytes']

/-- A transfer that carries the coinbase flag. -/
def flagged : TransferTx := ⟨"", "miner", 0, 0, 0, 1, [], true⟩

theorem onWire_flagged {flag : UInt8} (h : flag ≠ 0) :
    OnWire (transferForm flagged flag) (.transfer flagged) :=
  .transfer flagged flag ⟨by decide, by decide, by decide⟩ (by simp [flagged, h])

theorem encode_decoded_flagged :
    serializeTransactionSigned (.transfer flagged) = transferForm flagged 1 ∧
      nonzeroCrates.txid (.transfer flagged) = nonzeroCrates.blake3 (transferForm flagged 1) := by
  have hwire := @onWire_flagged 1 (by decide)
  have hcanonical : CanonicalWire (transferForm flagged 1) :=
    (canonicalWire_transferForm ⟨by decide, by decide, by decide⟩).mpr (.inr rfl)
  obtain ⟨hsame, hid⟩ := encode_decoded_transaction_iff nonzeroCrates hwire.deserialize
  exact ⟨hsame.mpr hcanonical, (hid hcanonical).1⟩

/-- The flag byte 2 is read as the flag byte 1 is. -/
theorem flagged_has_two_encodings :
    ∃ (tx : Transaction) (bytes bytes' : List UInt8), bytes ≠ bytes' ∧
      deserializeTransactionSigned bytes = .ok tx ∧ deserializeTransactionSigned bytes' = .ok tx ∧
      serializeTransactionSigned tx ≠ bytes := by
  refine ⟨.transfer flagged, transferForm flagged 2, transferForm flagged 1, ?_,
    (onWire_flagged (by decide)).deserialize, (onWire_flagged (by decide)).deserialize, ?_⟩
  · exact fun h => absurd (transferForm_inj.mp h) (by decide)
  · rw [serialize_transfer]
    exact fun h => absurd (transferForm_inj.mp h) (by decide)

end Strangecoin
