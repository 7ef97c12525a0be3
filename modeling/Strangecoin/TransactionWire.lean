import Strangecoin.AbiSpellings
import Strangecoin.Hex
import Strangecoin.TransactionCodec

/-! # Transactions on the wire

What is read of an encoded transaction, and which encodings are canonical.  The
types of constructor parameters travel as a comma-joined text inside the binary
format: they survive exactly if no name in the list has a comma of its own.
-/
namespace Strangecoin
open List AbiType

open Reader

/-! ### Constructor parameters -/

/-- The joined names of a list of types. -/
def joinNames (types : List AbiType) : List Char := [','].intercalate (types.map AbiType.name)

theorem toList_encodeConstructorParams (params : List AbiParam) :
    (encodeConstructorParams params).toList = joinNames (params.map AbiParam.paramType) := by
  rw [encodeConstructorParams, String.toList_intercalate, map_map, joinNames, map_map]
  rfl

theorem joinNames_eq_nil {types : List AbiType} : joinNames types = [] ↔ types = [] := by
  unfold joinNames
  match types with
  | [] => simp
  | [t] => simpa [List.intercalate] using name_ne_nil t
  | t :: u :: types => simp [intercalate_cons_cons]

/-- **The list of types is determined by the joined names.** -/
theorem joinNames_inj {types types' : List AbiType} (h : ∀ t ∈ types, t.Valid)
    (h' : ∀ t ∈ types', t.Valid) (heq : joinNames types = joinNames types') : types = types' := by
  have hsplit : ∀ {us : List AbiType}, us ≠ [] →
      splitParts [] [] 0 (joinNames us) = us.map name := by
    intro us hne
    refine splitParts_intercalate (fun n hn => ?_) (by simpa using hne) []
    obtain ⟨t, -, rfl⟩ := mem_map.mp hn
    exact whole_name t
  by_cases hnil : types = []
  · subst hnil
    exact (joinNames_eq_nil.mp heq.symm).symm
  · have hnil' : types' ≠ [] := fun h => hnil (joinNames_eq_nil.mp (heq.trans (joinNames_eq_nil.mpr h)))
    have hnames : types.map name = types'.map name := by
      rw [← hsplit hnil, heq, hsplit hnil']
    have hparse := mapM_parseChars fun t ht => parseChars_name (h t ht)
    rw [hnames, mapM_parseChars fun t ht => parseChars_name (h' t ht)] at hparse
    exact (Except.ok.inj hparse).symm

/-! ### Constructor parameters that are read -/

theorem decodeConstructorParam_ok {name : List Char} {param : AbiParam} :
    decodeConstructorParam name = .ok param ↔
      param.name = "" ∧ parseChars name = .ok param.paramType := by
  obtain ⟨paramName, paramType⟩ := param
  unfold decodeConstructorParam
  split
  · rename_i t ht
    rw [ht]
    constructor
    · rintro ⟨⟩
      exact ⟨rfl, rfl⟩
    · rintro ⟨rfl, ⟨⟩⟩
      rfl
  · rename_i e he
    rw [he]
    exact ⟨nofun, nofun⟩

/-- What is read of a raw text: its parts between commas, name by name. -/
theorem decodeConstructorParams_ok {raw : String} {params : List AbiParam} :
    decodeConstructorParams raw = .ok params ↔
      (raw = "" ∧ params = []) ∨
      (raw ≠ "" ∧ List.Forall₂ (fun name param => decodeConstructorParam name = .ok param)
        (raw.toList.splitOn ',') params) := by
  unfold decodeConstructorParams
  split
  · rename_i hraw
    simp [hraw, eq_comm]
  · rename_i hraw
    simp [hraw, mapM_ok]

theorem not_mem_of_mem_splitOn {s part : List Char} (h : part ∈ s.splitOn ',') : ',' ∉ part := by
  induction s generalizing part with
  | nil =>
    obtain rfl : part = [] := by simpa using h
    simp
  | cons c s ih =>
    rw [splitOn_cons_eq_if_modifyHead] at h
    split at h
    · rcases mem_cons.mp h with rfl | h
      · simp
      · exact ih h
    · rename_i hc
      obtain ⟨p, ps, hparts⟩ := exists_cons_of_ne_nil (splitOn_ne_nil ',' s)
      rw [hparts, modifyHead_cons] at h
      rcases mem_cons.mp h with rfl | h
      · have hp := @ih p (by simp [hparts])
        have hne : ',' ≠ c := fun heq => hc (beq_iff_eq.mpr heq.symm)
        simp [hp, hne]
      · exact ih (by simp [hparts, h])

section
variable {raw : String} {params : List AbiParam}

section
variable (h : decodeConstructorParams raw = .ok params)
include h

/-- The types on the wire are what the parts between commas are read as. -/
theorem types_of_decode :
    (∀ param ∈ params, param.name = "") ∧ ∃ parts : List (List Char),
      [','].intercalate parts = raw.toList ∧ (∀ part ∈ parts, ',' ∉ part) ∧
      List.Forall₂ (fun part t => parseChars part = .ok t) parts
        (params.map AbiParam.paramType) := by
  rcases decodeConstructorParams_ok.mp h with ⟨rfl, rfl⟩ | ⟨-, hparts⟩
  · exact ⟨by simp, [], by simp, by simp, .nil⟩
  · have hboth := hparts.imp fun name param => decodeConstructorParam_ok.mp
    refine ⟨?_, raw.toList.splitOn ',', intercalate_splitOn ',',
      fun part => not_mem_of_mem_splitOn, ?_⟩
    · intro param hparam
      obtain ⟨name, -, hname⟩ := exists_of_forall₂ hboth hparam
      exact hname.1
    · rw [forall₂_map_right_iff]
      exact hboth.imp fun name param h => h.2

/-- The types that are read are valid and have no wide tuples. -/
theorem valid_of_decode :
    ∀ param ∈ params, param.paramType.Valid ∧ param.paramType.Narrow := by
  obtain ⟨-, parts, -, hcomma, hparts⟩ := types_of_decode h
  intro param hparam
  obtain ⟨part, hmem, hpart⟩ := exists_of_forall₂ hparts (mem_map_of_mem hparam)
  exact ⟨valid_of_parseChars hpart, narrow_of_parseChars hpart (hcomma part hmem)⟩

/-- **A text that was read is canonical exactly if no numeral in it is padded.** -/
theorem encode_eq_iff_of_decode :
    encodeConstructorParams params = raw ↔ raw.toList.IsChain AbiType.Unpadded := by
  obtain ⟨-, parts, hraw, -, hparts⟩ := types_of_decode h
  rw [← String.toList_inj, toList_encodeConstructorParams]
  constructor
  · intro heq
    rw [← heq]
    refine isChain_intercalate.mpr fun part hpart => ?_
    obtain ⟨t, ht, rfl⟩ := mem_map.mp hpart
    obtain ⟨part, -, hpart⟩ := exists_of_forall₂ hparts ht
    exact isChain_name (valid_of_parseChars hpart)
  · intro hchain
    rw [← hraw] at hchain ⊢
    have hnames := forall₂_parts hparts (S := fun part t => part = t.name)
      fun part hmem t _ hpart =>
        (name_of_isChain hpart (isChain_intercalate.mp hchain part hmem)).symm
    rw [← forall₂_map_right_iff (R := Eq), forall₂_eq_eq_eq] at hnames
    rw [joinNames, ← hnames]

end

/-- **Types without wide tuples are read back.** -/
theorem decode_encode (h : ∀ param ∈ params,
    param.name = "" ∧ param.paramType.Valid ∧ param.paramType.Narrow) :
    decodeConstructorParams (encodeConstructorParams params) = .ok params := by
  rw [decodeConstructorParams_ok]
  have htext := toList_encodeConstructorParams params
  by_cases hnil : params = []
  · subst hnil
    exact .inl ⟨String.toList_inj.mp htext, rfl⟩
  · refine .inr ⟨?_, ?_⟩
    · intro hempty
      rw [hempty] at htext
      exact hnil (by simpa using joinNames_eq_nil.mp htext.symm)
    · have hsplit : (joinNames (params.map AbiParam.paramType)).splitOn ',' =
          params.map fun param => param.paramType.name := by
        rw [joinNames, map_map]
        refine splitOn_intercalate ',' (fun part hpart => ?_) (by simpa using hnil)
        obtain ⟨param, hparam, rfl⟩ := mem_map.mp hpart
        exact narrow_iff.mp (h param hparam).2.2
      rw [htext, hsplit, forall₂_map_left_iff, forall₂_same]
      intro param hparam
      obtain ⟨hname, hvalid, -⟩ := h param hparam
      exact decodeConstructorParam_ok.mpr ⟨hname, parseChars_name hvalid⟩

end

/-! ### The forms that are accepted -/

theorem writeBytes_injective : Function.Injective writeBytes := by
  intro b b' h
  have hlength : (toBeBytes32 (UInt32.ofNat b.length)).length =
      (toBeBytes32 (UInt32.ofNat b'.length)).length := by simp
  exact (append_inj h hlength).2

theorem writeString_injective : Function.Injective writeString :=
  writeBytes_injective.comp asBytes_injective

def Transaction.constructorParams : Transaction → List AbiParam
  | .create t => t.constructorParams
  | _ => []

/-- The strings and byte fields are shorter than `2 ^ 32` bytes. -/
def Transaction.FieldsShort : Transaction → Prop
  | .transfer t => (asBytes t.sender).length < 2 ^ 32 ∧ (asBytes t.receiver).length < 2 ^ 32 ∧
      t.signature.length < 2 ^ 32
  | .create t => (asBytes t.sender).length < 2 ^ 32 ∧ t.initCode.length < 2 ^ 32 ∧
      t.initArgs.length < 2 ^ 32 ∧ t.signature.length < 2 ^ 32
  | .call t => (asBytes t.sender).length < 2 ^ 32 ∧ (asBytes t.receiver).length < 2 ^ 32 ∧
      t.data.length < 2 ^ 32 ∧ t.signature.length < 2 ^ 32

/-- A transfer with a flag byte. -/
def transferForm (t : TransferTx) (flag : UInt8) : List UInt8 :=
  FORMAT_VERSION :: TX_TAG_TRANSFER :: (writeString t.sender ++ (writeString t.receiver ++
    (toBeBytes t.amount ++ (toBeBytes t.fee ++ (toBeBytes t.nonce ++ (toBeBytes32 t.chainId ++
    ([flag] ++ writeBytes t.signature)))))))

/-- A creation with the text of its constructor types. -/
def createForm (t : CreateTx) (raw : String) : List UInt8 :=
  FORMAT_VERSION :: TX_TAG_CREATE :: (writeString t.sender ++ (writeBytes t.initCode ++
    (writeBytes t.initArgs ++ (writeString raw ++ (toBeBytes t.endowment ++
    (toBeBytes t.gasLimit ++ (toBeBytes t.fee ++ (toBeBytes t.nonce ++ (toBeBytes32 t.chainId ++
    writeBytes t.signature)))))))))

def callForm (t : CallTx) : List UInt8 :=
  FORMAT_VERSION :: TX_TAG_CALL :: (writeString t.sender ++ (writeString t.receiver ++
    (writeBytes t.data ++ (toBeBytes t.value ++ (toBeBytes t.gasLimit ++ (toBeBytes t.fee ++
    (toBeBytes t.nonce ++ (toBeBytes32 t.chainId ++ writeBytes t.signature))))))))

/-- The bytes that are accepted for a transaction. -/
inductive OnWire : List UInt8 → Transaction → Prop
  | transfer (t : TransferTx) (flag : UInt8) (hshort : (Transaction.transfer t).FieldsShort)
      (hflag : t.isCoinbase = decide (flag ≠ 0)) : OnWire (transferForm t flag) (.transfer t)
  | create (t : CreateTx) (raw : String) (hshort : (Transaction.create t).FieldsShort)
      (hraw : (asBytes raw).length < 2 ^ 32)
      (hdecode : decodeConstructorParams raw = .ok t.constructorParams) :
      OnWire (createForm t raw) (.create t)
  | call (t : CallTx) (hshort : (Transaction.call t).FieldsShort) : OnWire (callForm t) (.call t)

theorem serialize_transfer (t : TransferTx) :
    serializeTransactionSigned (.transfer t) =
      transferForm t (if t.isCoinbase then 1 else 0) := by
  simp [serializeTransactionSigned, serializeTransaction, transferForm, Transaction.signature]

theorem serialize_create (t : CreateTx) :
    serializeTransactionSigned (.create t) =
      createForm t (encodeConstructorParams t.constructorParams) := by
  simp [serializeTransactionSigned, serializeTransaction, createForm, Transaction.signature]

theorem serialize_call (t : CallTx) : serializeTransactionSigned (.call t) = callForm t := by
  simp [serializeTransactionSigned, serializeTransaction, callForm, Transaction.signature]

theorem run_readSignature {signature : List UInt8} (h : signature.length < 2 ^ 32) :
    readSignature.run (writeBytes signature) = .ok (signature, []) := by
  refine run_bind_ok.mpr ⟨UInt32.ofNat signature.length, signature, reads_u32 _ _, ?_⟩
  change (if signature.length ≠ (UInt32.ofNat signature.length).toNat then _ else _) = _
  rw [if_neg (not_not.mpr (toNat_ofNat_length h).symm)]

theorem readSignature_ok {bytes signature rest : List UInt8}
    (h : readSignature.run bytes = .ok (signature, rest)) :
    bytes = writeBytes signature ∧ signature.length < 2 ^ 32 := by
  obtain ⟨len, mid, hlen, h⟩ := run_bind_ok.mp h
  change (if mid.length ≠ len.toNat then Except.error _ else .ok (mid, [])) = _ at h
  split at h
  · exact absurd h nofun
  · rename_i hlength
    obtain ⟨rfl, rfl⟩ := ok_pair h
    have hbytes := exact_u32 _ _ _ hlen
    rw [← append_nil mid] at hbytes
    simpa using exact_prefixed hbytes (not_not.mp hlength)

theorem reads_formatVersion : Reads readFormatVersion [FORMAT_VERSION] () :=
  reads_byte.bind (reads_check (guardWith_eq_ok.mpr rfl))

theorem reads_txTag {tag : UInt8}
    (h : tag = TX_TAG_TRANSFER ∨ tag = TX_TAG_CREATE ∨ tag = TX_TAG_CALL) :
    Reads readTxTag [tag] tag :=
  reads_byte.bind ((reads_check (a := ()) (guardWith_eq_ok.mpr h)).bind reads_pure)

/-- A body that is read, with a signature behind it. -/
theorem deserialize_of_reads {tag : UInt8} {body signature : List UInt8} {tx : Transaction}
    (htag : tag = TX_TAG_TRANSFER ∨ tag = TX_TAG_CREATE ∨ tag = TX_TAG_CALL)
    (hbody : Reads (readBody tag) body tx) (hsignature : signature.length < 2 ^ 32) :
    deserializeTransactionSigned (FORMAT_VERSION :: tag :: (body ++ writeBytes signature)) =
      .ok (tx.setSignature signature) := by
  have hunsigned : Reads deserializeUnsignedBody (tag :: body) tx := (reads_txTag htag).bind hbody
  refine map_eq_ok.mpr ⟨(tx.setSignature signature, []), ?_, rfl⟩
  refine run_bind_ok.mpr ⟨(), tag :: body ++ writeBytes signature, reads_formatVersion _, ?_⟩
  refine run_bind_ok.mpr ⟨tx, writeBytes signature, hunsigned _, ?_⟩
  exact run_bind_ok.mpr ⟨signature, [], run_readSignature hsignature, rfl⟩

theorem reads_transfer {t : TransferTx} {flag : UInt8} (hshort : (Transaction.transfer t).FieldsShort)
    (hflag : t.isCoinbase = decide (flag ≠ 0)) :
    Reads readTransfer (writeString t.sender ++ (writeString t.receiver ++ (toBeBytes t.amount ++
      (toBeBytes t.fee ++ (toBeBytes t.nonce ++ (toBeBytes32 t.chainId ++ ([flag] ++ [])))))))
      (.transfer { t with signature := [] }) := by
  obtain ⟨hsender, hreceiver, -⟩ := hshort
  refine (reads_string hsender).bind ((reads_string hreceiver).bind ((reads_u64 _).bind
    ((reads_u64 _).bind ((reads_u64 _).bind ((reads_u32 _).bind (reads_byte.bind ?_))))))
  rw [hflag]
  exact reads_pure

theorem reads_create {t : CreateTx} {raw : String} (hshort : (Transaction.create t).FieldsShort)
    (hraw : (asBytes raw).length < 2 ^ 32)
    (hdecode : decodeConstructorParams raw = .ok t.constructorParams) :
    Reads readCreate (writeString t.sender ++ (writeBytes t.initCode ++ (writeBytes t.initArgs ++
      (writeString raw ++ ([] ++ (toBeBytes t.endowment ++ (toBeBytes t.gasLimit ++
      (toBeBytes t.fee ++ (toBeBytes t.nonce ++ (toBeBytes32 t.chainId ++ []))))))))))
      (.create { t with signature := [] }) := by
  obtain ⟨hsender, hcode, hargs, -⟩ := hshort
  exact (reads_string hsender).bind ((reads_bytes hcode).bind ((reads_bytes hargs).bind
    ((reads_string hraw).bind ((reads_check hdecode).bind ((reads_u64 _).bind ((reads_u64 _).bind
    ((reads_u64 _).bind ((reads_u64 _).bind ((reads_u32 _).bind reads_pure)))))))))

theorem reads_call {t : CallTx} (hshort : (Transaction.call t).FieldsShort) :
    Reads readCall (writeString t.sender ++ (writeString t.receiver ++ (writeBytes t.data ++
      (toBeBytes t.value ++ (toBeBytes t.gasLimit ++ (toBeBytes t.fee ++ (toBeBytes t.nonce ++
      (toBeBytes32 t.chainId ++ [])))))))) (.call { t with signature := [] }) := by
  obtain ⟨hsender, hreceiver, hdata, -⟩ := hshort
  exact (reads_string hsender).bind ((reads_string hreceiver).bind ((reads_bytes hdata).bind
    ((reads_u64 _).bind ((reads_u64 _).bind ((reads_u64 _).bind ((reads_u64 _).bind
    ((reads_u32 _).bind reads_pure)))))))

/-- The accepted forms are accepted. -/
theorem OnWire.deserialize {bytes : List UInt8} {tx : Transaction} (h : OnWire bytes tx) :
    deserializeTransactionSigned bytes = .ok tx := by
  cases h with
  | transfer t flag hshort hflag =>
    have hread := deserialize_of_reads (.inl rfl) (reads_transfer hshort hflag) hshort.2.2
    simpa [transferForm, Transaction.setSignature] using hread
  | create t raw hshort hraw hdecode =>
    have hread := deserialize_of_reads (.inr (.inl rfl)) (reads_create hshort hraw hdecode)
      hshort.2.2.2
    simpa [createForm, Transaction.setSignature] using hread
  | call t hshort =>
    have hread := deserialize_of_reads (.inr (.inr rfl)) (reads_call hshort) hshort.2.2.2
    simpa [callForm, Transaction.setSignature] using hread

/-! ### Nothing else is accepted -/

section
variable {bytes rest : List UInt8} {tx : Transaction}

theorem readTransfer_ok (h : readTransfer.run bytes = .ok (tx, rest)) (signature : List UInt8)
    (hsignature : signature.length < 2 ^ 32) (hrest : rest = writeBytes signature) :
    OnWire (FORMAT_VERSION :: TX_TAG_TRANSFER :: bytes) (tx.setSignature signature) := by
  obtain ⟨sender, _, hsender, h⟩ := run_bind_ok.mp h
  obtain ⟨receiver, _, hreceiver, h⟩ := run_bind_ok.mp h
  obtain ⟨amount, _, hamount, h⟩ := exact_u64.bind h
  obtain ⟨fee, _, hfee, h⟩ := exact_u64.bind h
  obtain ⟨nonce, _, hnonce, h⟩ := exact_u64.bind h
  obtain ⟨chainId, _, hchainId, h⟩ := exact_u32.bind h
  obtain ⟨flag, _, hflag, h⟩ := run_bind_ok.mp h
  obtain ⟨rfl, rfl⟩ := run_pure_ok.mp h
  obtain ⟨rfl, hsenderShort⟩ := readString_ok hsender
  obtain ⟨rfl, hreceiverShort⟩ := readString_ok hreceiver
  obtain rfl := run_byte_ok.mp hflag
  subst hamount hfee hnonce hchainId hrest
  exact .transfer ⟨sender, receiver, amount, fee, nonce, chainId, signature, flag ≠ 0⟩ flag
    ⟨hsenderShort, hreceiverShort, hsignature⟩ rfl

theorem readCreate_ok (h : readCreate.run bytes = .ok (tx, rest)) (signature : List UInt8)
    (hsignature : signature.length < 2 ^ 32) (hrest : rest = writeBytes signature) :
    OnWire (FORMAT_VERSION :: TX_TAG_CREATE :: bytes) (tx.setSignature signature) := by
  obtain ⟨sender, _, hsender, h⟩ := run_bind_ok.mp h
  obtain ⟨initCode, _, hcode, h⟩ := run_bind_ok.mp h
  obtain ⟨initArgs, _, hargs, h⟩ := run_bind_ok.mp h
  obtain ⟨raw, _, hraw, h⟩ := run_bind_ok.mp h
  obtain ⟨params, _, hparams, h⟩ := run_bind_ok.mp h
  obtain ⟨endowment, _, hendowment, h⟩ := exact_u64.bind h
  obtain ⟨gasLimit, _, hgasLimit, h⟩ := exact_u64.bind h
  obtain ⟨fee, _, hfee, h⟩ := exact_u64.bind h
  obtain ⟨nonce, _, hnonce, h⟩ := exact_u64.bind h
  obtain ⟨chainId, _, hchainId, h⟩ := exact_u32.bind h
  obtain ⟨rfl, rfl⟩ := run_pure_ok.mp h
  obtain ⟨rfl, hsenderShort⟩ := readString_ok hsender
  obtain ⟨rfl, hcodeShort⟩ := readBytes_ok hcode
  obtain ⟨rfl, hargsShort⟩ := readBytes_ok hargs
  obtain ⟨rfl, hrawShort⟩ := readString_ok hraw
  obtain ⟨hdecode, rfl⟩ := run_check_ok.mp hparams
  subst hendowment hgasLimit hfee hnonce hchainId hrest
  exact .create ⟨sender, initCode, initArgs, params, endowment, gasLimit, fee, nonce, chainId,
    signature⟩ raw ⟨hsenderShort, hcodeShort, hargsShort, hsignature⟩ hrawShort hdecode

theorem readCall_ok (h : readCall.run bytes = .ok (tx, rest)) (signature : List UInt8)
    (hsignature : signature.length < 2 ^ 32) (hrest : rest = writeBytes signature) :
    OnWire (FORMAT_VERSION :: TX_TAG_CALL :: bytes) (tx.setSignature signature) := by
  obtain ⟨sender, _, hsender, h⟩ := run_bind_ok.mp h
  obtain ⟨receiver, _, hreceiver, h⟩ := run_bind_ok.mp h
  obtain ⟨data, _, hdata, h⟩ := run_bind_ok.mp h
  obtain ⟨value, _, hvalue, h⟩ := exact_u64.bind h
  obtain ⟨gasLimit, _, hgasLimit, h⟩ := exact_u64.bind h
  obtain ⟨fee, _, hfee, h⟩ := exact_u64.bind h
  obtain ⟨nonce, _, hnonce, h⟩ := exact_u64.bind h
  obtain ⟨chainId, _, hchainId, h⟩ := exact_u32.bind h
  obtain ⟨rfl, rfl⟩ := run_pure_ok.mp h
  obtain ⟨rfl, hsenderShort⟩ := readString_ok hsender
  obtain ⟨rfl, hreceiverShort⟩ := readString_ok hreceiver
  obtain ⟨rfl, hdataShort⟩ := readBytes_ok hdata
  subst hvalue hgasLimit hfee hnonce hchainId hrest
  exact .call ⟨sender, receiver, data, value, gasLimit, fee, nonce, chainId, signature⟩
    ⟨hsenderShort, hreceiverShort, hdataShort, hsignature⟩

/-- **What is accepted is one of the forms.** -/
theorem deserialize_iff : deserializeTransactionSigned bytes = .ok tx ↔ OnWire bytes tx := by
  refine ⟨fun haccepted => ?_, OnWire.deserialize⟩
  obtain ⟨⟨_, _⟩, hread, rfl⟩ := map_eq_ok.mp haccepted
  obtain ⟨⟨⟩, _, hversion, h⟩ := run_bind_ok.mp hread
  obtain ⟨unsigned, _, hbody, h⟩ := run_bind_ok.mp h
  obtain ⟨signature, _, hsignature, h⟩ := run_bind_ok.mp h
  obtain ⟨rfl, rfl⟩ := run_pure_ok.mp h
  obtain ⟨version, _, hfirst, hchecked⟩ := run_bind_ok.mp hversion
  obtain ⟨hguard, rfl⟩ := run_check_ok.mp hchecked
  obtain rfl := guardWith_eq_ok.mp hguard
  obtain rfl := run_byte_ok.mp hfirst
  obtain ⟨tag, _, htag, hfields⟩ := run_bind_ok.mp hbody
  obtain ⟨_, _, hsecond, htag⟩ := run_bind_ok.mp htag
  obtain ⟨⟨⟩, _, hknown, htag⟩ := run_bind_ok.mp htag
  obtain ⟨hsame, rfl⟩ := run_pure_ok.mp htag
  subst hsame
  obtain ⟨-, rfl⟩ := run_check_ok.mp hknown
  obtain rfl := run_byte_ok.mp hsecond
  obtain ⟨hrest, hlength⟩ := readSignature_ok hsignature
  unfold readBody at hfields
  split at hfields
  · subst tag
    exact readTransfer_ok hfields signature hlength hrest
  · split at hfields
    · subst tag
      exact readCreate_ok hfields signature hlength hrest
    · split at hfields
      · subst tag
        exact readCall_ok hfields signature hlength hrest
      · exact absurd (run_check_ok.mp hfields).1 nofun

end

end Strangecoin
