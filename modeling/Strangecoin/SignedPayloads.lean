import Strangecoin.TransactionWire

/-! # Signed payloads and receipt leaves are unambiguous

What is signed is the encoding of a transaction without its signature, and what
a block commits to is the encoding of its receipts.  Every field of variable
length has its length in front, so the fields can be told apart one after the other.
-/
namespace Strangecoin
open List Transaction

/-! ### Fields -/

theorem delimits_writeBytes : Delimits writeBytes fun b => b.length < 2 ^ 32 := by
  intro b b' x y hb hb' h
  rw [writeBytes, writeBytes, append_assoc, append_assoc] at h
  obtain ⟨hlength, hrest⟩ := delimits_toBeBytes32.total h
  have hnat := congrArg UInt32.toNat hlength
  rw [toNat_ofNat_length hb, toNat_ofNat_length hb'] at hnat
  exact append_inj hrest hnat

theorem delimits_writeString : Delimits writeString fun s => (asBytes s).length < 2 ^ 32 := by
  intro s s' x y hs hs' h
  obtain ⟨hbytes, hrest⟩ := delimits_writeBytes _ _ _ _ hs hs' h
  exact ⟨asBytes_injective hbytes, hrest⟩

theorem delimits_digest : Delimits (fun d : Digest => d.toList) fun _ => True :=
  delimits_of_length (fun d => d.length_toList) fun _ _ h => Vector.toList_inj.mp h

theorem Delimits.counted {α : Type} {enc : α → List UInt8} {P : α → Prop} (h : Delimits enc P)
    {as bs : List α} {x y : List UInt8} (ha : as.length < 2 ^ 32 ∧ ∀ a ∈ as, P a)
    (hb : bs.length < 2 ^ 32 ∧ ∀ b ∈ bs, P b)
    (heq : toBeBytes32 (UInt32.ofNat as.length) ++ (as.flatMap enc ++ x) =
      toBeBytes32 (UInt32.ofNat bs.length) ++ (bs.flatMap enc ++ y)) : as = bs ∧ x = y := by
  obtain ⟨hcount, hrest⟩ := delimits_toBeBytes32.total heq
  have hnat := congrArg UInt32.toNat hcount
  rw [toNat_ofNat_length ha.1, toNat_ofNat_length hb.1] at hnat
  exact h.flatMap hnat ha.2 hb.2 hrest

/-! ### Transactions -/

/-- The transaction without its signature and the names of its parameters. -/
def Transaction.payload : Transaction → Transaction
  | .transfer t => .transfer { t with signature := [] }
  | .create t => .create { t with
      constructorParams := t.constructorParams.map fun param => ⟨"", param.paramType⟩
      signature := [] }
  | .call t => .call { t with signature := [] }

theorem payload_transfer_inj {t t' : TransferTx} (h : (transfer t).FieldsShort)
    (h' : (transfer t').FieldsShort)
    (heq : serializeTransaction (.transfer t) = serializeTransaction (.transfer t')) :
    (transfer t).payload = (transfer t').payload := by
  simp only [serializeTransaction, List.cons.injEq, true_and, append_assoc] at heq
  obtain ⟨hsender, heq⟩ := delimits_writeString _ _ _ _ h.1 h'.1 heq
  obtain ⟨hreceiver, heq⟩ := delimits_writeString _ _ _ _ h.2.1 h'.2.1 heq
  obtain ⟨hamount, heq⟩ := delimits_toBeBytes.total heq
  obtain ⟨hfee, heq⟩ := delimits_toBeBytes.total heq
  obtain ⟨hnonce, heq⟩ := delimits_toBeBytes.total heq
  obtain ⟨hchainId, heq⟩ := delimits_toBeBytes32.total heq
  have hflag : t.isCoinbase = t'.isCoinbase := by
    revert heq
    cases t.isCoinbase <;> cases t'.isCoinbase <;> decide
  simp only [payload, hsender, hreceiver, hamount, hfee, hnonce, hchainId, hflag]

theorem payload_call_inj {t t' : CallTx} (h : (call t).FieldsShort)
    (h' : (call t').FieldsShort)
    (heq : serializeTransaction (.call t) = serializeTransaction (.call t')) :
    (call t).payload = (call t').payload := by
  simp only [serializeTransaction, List.cons.injEq, true_and, append_assoc] at heq
  obtain ⟨hsender, heq⟩ := delimits_writeString _ _ _ _ h.1 h'.1 heq
  obtain ⟨hreceiver, heq⟩ := delimits_writeString _ _ _ _ h.2.1 h'.2.1 heq
  obtain ⟨hdata, heq⟩ := delimits_writeBytes _ _ _ _ h.2.2.1 h'.2.2.1 heq
  obtain ⟨hvalue, heq⟩ := delimits_toBeBytes.total heq
  obtain ⟨hgas, heq⟩ := delimits_toBeBytes.total heq
  obtain ⟨hfee, heq⟩ := delimits_toBeBytes.total heq
  obtain ⟨hnonce, heq⟩ := delimits_toBeBytes.total heq
  have hchainId := Function.LeftInverse.injective fromBeBytes32_toBeBytes32 heq
  simp only [payload, hsender, hreceiver, hdata, hvalue, hgas, hfee, hnonce, hchainId]

theorem payload_create_inj {t t' : CreateTx} (h : (create t).FieldsShort)
    (h' : (create t').FieldsShort)
    (hvalid : ∀ param ∈ t.constructorParams, param.paramType.Valid)
    (hvalid' : ∀ param ∈ t'.constructorParams, param.paramType.Valid)
    (heq : serializeTransaction (.create t) = serializeTransaction (.create t')) :
    (create t).payload = (create t').payload := by
  simp only [serializeTransaction, List.cons.injEq, true_and, append_assoc] at heq
  obtain ⟨hsender, heq⟩ := delimits_writeString _ _ _ _ h.1 h'.1 heq
  obtain ⟨hcode, heq⟩ := delimits_writeBytes _ _ _ _ h.2.1 h'.2.1 heq
  obtain ⟨hargs, heq⟩ := delimits_writeBytes _ _ _ _ h.2.2.1 h'.2.2.1 heq
  -- the text of the types may be longer than its length field can say, but what
  -- follows it has a fixed length
  have hlength := congrArg List.length heq
  simp only [length_append, length_toBeBytes, length_toBeBytes32] at hlength
  obtain ⟨htext, heq⟩ := append_inj heq (by omega)
  obtain ⟨hendowment, heq⟩ := delimits_toBeBytes.total heq
  obtain ⟨hgas, heq⟩ := delimits_toBeBytes.total heq
  obtain ⟨hfee, heq⟩ := delimits_toBeBytes.total heq
  obtain ⟨hnonce, heq⟩ := delimits_toBeBytes.total heq
  have hchainId := Function.LeftInverse.injective fromBeBytes32_toBeBytes32 heq
  have hnames : joinNames (t.constructorParams.map AbiParam.paramType) =
      joinNames (t'.constructorParams.map AbiParam.paramType) := by
    rw [← toList_encodeConstructorParams, ← toList_encodeConstructorParams,
      writeString_injective htext]
  have htypes := joinNames_inj (forall_mem_map.mpr hvalid) (forall_mem_map.mpr hvalid')
    hnames
  have hparams : t.constructorParams.map (fun param => (⟨"", param.paramType⟩ : AbiParam)) =
      t'.constructorParams.map fun param => ⟨"", param.paramType⟩ := by
    have hmap := congrArg (List.map fun paramType => (⟨"", paramType⟩ : AbiParam)) htypes
    rwa [map_map, map_map] at hmap
  simp only [payload, hsender, hcode, hargs, hparams, hendowment, hgas, hfee, hnonce,
    hchainId]

/-- **The payload determines the transaction**, up to its signature and the names
of its parameters. -/
theorem payload_inj {tx tx' : Transaction} (h : tx.FieldsShort) (h' : tx'.FieldsShort)
    (hvalid : ∀ param ∈ tx.constructorParams, param.paramType.Valid)
    (hvalid' : ∀ param ∈ tx'.constructorParams, param.paramType.Valid)
    (heq : serializeTransaction tx = serializeTransaction tx') : tx.payload = tx'.payload := by
  have htag : ∀ {a b : UInt8} {x y : List UInt8},
      FORMAT_VERSION :: a :: x = FORMAT_VERSION :: b :: y → a = b :=
    fun h => (List.cons.inj (List.cons.inj h).2).1
  cases tx with
  | transfer t =>
    cases tx' with
    | transfer t' => exact payload_transfer_inj h h' heq
    | create t' => exact absurd (htag heq) (by decide)
    | call t' => exact absurd (htag heq) (by decide)
  | create t =>
    cases tx' with
    | transfer t' => exact absurd (htag heq) (by decide)
    | create t' => exact payload_create_inj h h' hvalid hvalid' heq
    | call t' => exact absurd (htag heq) (by decide)
  | call t =>
    cases tx' with
    | transfer t' => exact absurd (htag heq) (by decide)
    | create t' => exact absurd (htag heq) (by decide)
    | call t' => exact payload_call_inj h h' heq

/-! ### Receipts -/

def Log.FieldsShort (log : Log) : Prop :=
  (asBytes log.address).length < 2 ^ 32 ∧ log.topics.length < 2 ^ 32 ∧ log.data.length < 2 ^ 32

def ValueTransfer.FieldsShort (transfer : ValueTransfer) : Prop :=
  (asBytes transfer.payer).length < 2 ^ 32 ∧ (asBytes transfer.payee).length < 2 ^ 32

/-- The lists, strings and byte fields are shorter than `2 ^ 32`. -/
def Receipt.FieldsShort (receipt : Receipt) : Prop :=
  (receipt.logs.length < 2 ^ 32 ∧ ∀ log ∈ receipt.logs, log.FieldsShort) ∧
  (receipt.valueTransfers.length < 2 ^ 32 ∧
    ∀ transfer ∈ receipt.valueTransfers, transfer.FieldsShort)

theorem delimits_serializeLog : Delimits serializeLog Log.FieldsShort := by
  rintro ⟨address, topics, data⟩ ⟨address', topics', data'⟩ x y h h' heq
  simp only [serializeLog, append_assoc] at heq
  obtain ⟨haddress, heq⟩ := delimits_writeString _ _ _ _ h.1 h'.1 heq
  obtain ⟨htopics, heq⟩ := delimits_digest.counted ⟨h.2.1, fun _ _ => trivial⟩
    ⟨h'.2.1, fun _ _ => trivial⟩ heq
  obtain ⟨hdata, hrest⟩ := delimits_writeBytes _ _ _ _ h.2.2 h'.2.2 heq
  exact ⟨Log.mk.injEq .. ▸ ⟨haddress, htopics, hdata⟩, hrest⟩

theorem delimits_serializeValueTransfer :
    Delimits serializeValueTransfer ValueTransfer.FieldsShort := by
  rintro ⟨payer, payee, amount⟩ ⟨payer', payee', amount'⟩ x y h h' heq
  simp only [serializeValueTransfer, append_assoc] at heq
  obtain ⟨hpayer, heq⟩ := delimits_writeString _ _ _ _ h.1 h'.1 heq
  obtain ⟨hpayee, heq⟩ := delimits_writeString _ _ _ _ h.2 h'.2 heq
  obtain ⟨hamount, hrest⟩ := delimits_toBeBytes.total heq
  exact ⟨ValueTransfer.mk.injEq .. ▸ ⟨hpayer, hpayee, hamount⟩, hrest⟩

theorem canonicalByte_injective : Function.Injective TxStatus.canonicalByte := by
  intro a b
  cases a <;> cases b <;> decide

/-- **The leaf determines the receipt.** -/
theorem serializeReceipt_inj {r r' : Receipt} (h : r.FieldsShort) (h' : r'.FieldsShort)
    (heq : serializeReceipt r = serializeReceipt r') : r = r' := by
  obtain ⟨txid, gasUsed, logs, status, blockHeight, txIndex, transfers⟩ := r
  obtain ⟨txid', gasUsed', logs', status', blockHeight', txIndex', transfers'⟩ := r'
  simp only [serializeReceipt, List.cons.injEq, true_and, append_assoc,
    singleton_append] at heq
  obtain ⟨htxid, heq⟩ := delimits_digest.total heq
  obtain ⟨hheight, heq⟩ := delimits_toBeBytes.total heq
  obtain ⟨hindex, heq⟩ := delimits_toBeBytes32.total heq
  obtain ⟨hgas, heq⟩ := delimits_toBeBytes.total heq
  obtain ⟨hstatus, heq⟩ := List.cons.inj heq
  obtain ⟨hlogs, heq⟩ := delimits_serializeLog.counted h.1 h'.1 heq
  rw [← append_nil (transfers.flatMap _), ← append_nil (transfers'.flatMap _)] at heq
  obtain ⟨htransfers, -⟩ := delimits_serializeValueTransfer.counted h.2 h'.2 heq
  exact Receipt.mk.injEq .. ▸
    ⟨htxid, hgas, hlogs, canonicalByte_injective hstatus, hheight, hindex, htransfers⟩

/-- **Signed payloads and receipt leaves are unambiguous.** -/
theorem encodings_unambiguous :
    (∀ tx tx' : Transaction, tx.FieldsShort → tx'.FieldsShort →
      (∀ param ∈ tx.constructorParams, param.paramType.Valid) →
      (∀ param ∈ tx'.constructorParams, param.paramType.Valid) →
      serializeTransaction tx = serializeTransaction tx' → tx.payload = tx'.payload) ∧
    (∀ r r' : Receipt, r.FieldsShort → r'.FieldsShort →
      serializeReceipt r = serializeReceipt r' → r = r') :=
  ⟨fun _ _ => payload_inj, fun _ _ => serializeReceipt_inj⟩

/-- A creation that differs from another in its signature and its parameter name. -/
theorem encodings_unambiguous_named :
    (create ⟨"alice", [0], [], [⟨"owner", .tuple [.bool, .uint 8]⟩], 0, 0, 0, 1, 1,
      [1]⟩).payload =
    (create ⟨"alice", [0], [], [⟨"", .tuple [.bool, .uint 8]⟩], 0, 0, 0, 1, 1,
      []⟩).payload ∧
    serializeReceipt ⟨zeroDigest, 0, [⟨"alice", [zeroDigest], []⟩], .success, 1, 0, []⟩ ≠
      serializeReceipt ⟨zeroDigest, 0, [⟨"alice", [], []⟩], .success, 1, 0, []⟩ := by
  have hvalid : (AbiType.tuple [.bool, .uint 8]).Valid := by
    simp only [AbiType.Valid, AbiType.AllValid]
    decide
  constructor
  · refine encodings_unambiguous.1 _ _ ?_ ?_ ?_ ?_ rfl
    · exact ⟨by decide, by decide, by decide, by decide⟩
    · exact ⟨by decide, by decide, by decide, by decide⟩
    · exact fun param hparam => mem_singleton.mp hparam ▸ hvalid
    · exact fun param hparam => mem_singleton.mp hparam ▸ hvalid
  · intro heq
    have hsame := encodings_unambiguous.2 _ _ ?_ ?_ heq
    · exact absurd hsame (by decide)
    · simp [Receipt.FieldsShort, Log.FieldsShort]
      decide
    · simp [Receipt.FieldsShort, Log.FieldsShort]
      decide

end Strangecoin
