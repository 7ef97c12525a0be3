import Strangecoin.WireShapes

/-! # The codecs of the wire are exact

What a parser accepts is the encoding of what it returns, and an encoding is read back:
of every message, as far as the codec of transactions gives back the transactions inside
it (`TxsSurvive`) and no other string in the payload stands for one of them (`TxsExact`).
-/
namespace Strangecoin
open List

open Reader

/-- The transactions are read back from their encodings. -/
def TxsSurvive (txs : List Transaction) : Prop :=
  ∀ tx ∈ txs, deserializeTransactionSigned (serializeTransactionSigned tx) = .ok tx

/-- What is read as one of the transactions, somewhere in `bytes`, is its encoding. -/
def TxsExact (bytes : List UInt8) (txs : List Transaction) : Prop :=
  ∀ tx ∈ txs, ∀ body, body <:+: bytes → deserializeTransactionSigned body = .ok tx →
    body = serializeTransactionSigned tx

/-- Encoder and parser are inverse to each other, up to the codec of transactions: on the
messages that meet `Valid`, and on the byte strings that meet `Fits`. -/
structure ExactCodec {M : Type} (encode : M → Except NetFailure (List UInt8))
    (parse : List UInt8 → Except NetError M) (Valid : M → Prop) (txs : M → List Transaction)
    (Fits : List UInt8 → Prop) : Prop where
  roundTrip : ∀ m bytes, Valid m → TxsSurvive (txs m) → encode m = .ok bytes → parse bytes = .ok m
  accepted : ∀ m bytes, parse bytes = .ok m → Fits bytes → TxsExact bytes (txs m) →
    Valid m ∧ encode m = .ok bytes

/-- With bytes added or cut off at the end, an accepted payload is rejected. -/
def SelfDelimiting {M : Type} (parse : List UInt8 → Except NetError M) : Prop :=
  ∀ bytes extra : List UInt8, extra ≠ [] →
    (∀ m, parse bytes = .ok m → ∃ e, parse (bytes ++ extra) = .error e) ∧
    (∀ m, parse (bytes ++ extra) = .ok m → ∃ e, parse bytes = .error e)

/-- A payload whose count, at `offset`, is above the limit is rejected. -/
def RejectsCounts {M : Type} (parse : List UInt8 → Except NetError M) (offset limit : Nat) : Prop :=
  ∀ (bytes : List UInt8) (count : UInt32), (bytes.drop offset).take 4 = toBeBytes32 count →
    limit < count.toNat → ∃ e, parse bytes = .error e

/-- The same for the count of the prefilled transactions, which stands after the short ids. -/
def RejectsPrefilled (parse : List UInt8 → Except NetError CompactBlock) : Prop :=
  ∀ (bytes : List UInt8) (short count : UInt32),
    (bytes.drop (1 + HEADER_WIRE_LEN + 8)).take 4 = toBeBytes32 short →
    (bytes.drop (1 + HEADER_WIRE_LEN + 8 + 4 + short.toNat * SHORT_ID_LEN)).take 4 =
      toBeBytes32 count →
    MAX_PREFILLED < count.toNat → ∃ e, parse bytes = .error e

/-- A payload with an item of an unknown kind is rejected. -/
def RejectsKinds (parse : List UInt8 → Except NetError (List InventoryItem)) : Prop :=
  ∀ (bytes : List UInt8) (i : Nat) (byte : UInt8), bytes[5 + i * INV_ITEM_WIRE_LEN]? = some byte →
    InvKind.fromWire byte = none → ∃ e, parse bytes = .error e

variable {α : Type}

theorem error_of_not_ok {ε : Type} {x : Except ε α} (h : ∀ a, x ≠ .ok a) : ∃ e, x = .error e := by
  cases x with
  | error e => exact ⟨e, rfl⟩
  | ok a => exact absurd rfl (h a)

theorem Reader.Accepts.selfDelimiting {M : Type} {parse : List UInt8 → Except NetError M}
    {P : List UInt8 → M → Prop} (h : Accepts parse P) : SelfDelimiting parse := by
  refine fun bytes extra hextra => ⟨fun m hm => h.rejects hm hextra, fun m hm => ?_⟩
  refine error_of_not_ok fun m' hm' => ?_
  obtain ⟨e, he⟩ := h.rejects hm' hextra
  exact absurd (hm.symm.trans he) nofun

/-- The count that stands at an offset. -/
theorem count_at {front rest : List UInt8} {n : Nat} {count : UInt32} (hn : n < 2 ^ 32)
    (h : ((front ++ (toBeBytes32 (UInt32.ofNat n) ++ rest)).drop front.length).take 4 =
      toBeBytes32 count) : count.toNat = n := by
  rw [drop_left, take_left' (length_toBeBytes32 _)] at h
  have hcount := congrArg fromBeBytes32 h
  rw [fromBeBytes32_toBeBytes32, fromBeBytes32_toBeBytes32] at hcount
  rw [← hcount, UInt32.toNat_ofNat_of_lt' hn]

variable {limit : Nat}

theorem rejectsCounts_of {M : Type} {parse : List UInt8 → Except NetError M} {offset : Nat}
    (hlimit : limit < 2 ^ 32)
    (h : ∀ bytes m, parse bytes = .ok m → ∃ front n rest,
      bytes = front ++ (toBeBytes32 (UInt32.ofNat n) ++ rest) ∧ front.length = offset ∧ n ≤ limit) :
    RejectsCounts parse offset limit := by
  intro bytes count hcount habove
  refine error_of_not_ok fun m hm => ?_
  obtain ⟨front, n, rest, rfl, rfl, hn⟩ := h bytes m hm
  rw [count_at (Nat.lt_of_le_of_lt hn hlimit) hcount] at habove
  omega

variable {parse : List UInt8 → Except NetError (List α)} {tag : UInt8}

theorem Reader.Accepts.rejectsCounts {P : List UInt8 → α → Prop}
    (h : Accepts parse (Tagged tag (Counted limit P))) (hlimit : limit < 2 ^ 32) :
    RejectsCounts parse 1 limit := by
  refine rejectsCounts_of hlimit fun bytes as has => ?_
  obtain ⟨w, rfl, hcount, ws, rfl, -⟩ := (h.iff _ _).mp has
  exact ⟨[tag], as.length, ws.flatten, rfl, rfl, hcount⟩

/-! ### Items -/

/-- The bytes `B` of an item are those of its encoder. -/
structure ItemCodec {α : Type} (B : List UInt8 → α → Prop)
    (encode : α → Except NetFailure (List UInt8)) (Valid : α → Prop)
    (txs : α → List Transaction) : Prop where
  complete : ∀ a body, Valid a → TxsSurvive (txs a) → encode a = .ok body → B body a
  exact : ∀ a body bytes, B body a → body <:+: bytes → TxsExact bytes (txs a) →
    Valid a ∧ encode a = .ok body

section
variable {α : Type} {B : List UInt8 → α → Prop} {encode : α → Except NetFailure (List UInt8)}
  {Valid : α → Prop} {txs : α → List Transaction} {as : List α} {bodies : List (List UInt8)}

theorem ItemCodec.complete_all (h : ItemCodec B encode Valid txs) (hvalid : ∀ a ∈ as, Valid a)
    (hsurvive : TxsSurvive (as.flatMap txs)) (hencode : as.mapM encode = .ok bodies) :
    List.Forall₂ B bodies as := by
  have hall := mapM_ok.mp hencode
  clear hencode
  induction hall with
  | nil => exact .nil
  | cons ha _ ih =>
    obtain ⟨hhead, htail⟩ := forall_mem_cons.mp hvalid
    rw [flatMap_cons] at hsurvive
    obtain ⟨hs, hss⟩ := forall_mem_append.mp hsurvive
    exact .cons (h.complete _ _ hhead hs ha) (ih htail hss)

theorem ItemCodec.exact_all (h : ItemCodec B encode Valid txs) {bytes : List UInt8}
    (hall : List.Forall₂ B bodies as) (hin : ∀ body ∈ bodies, body <:+: bytes)
    (hexact : TxsExact bytes (as.flatMap txs)) :
    (∀ a ∈ as, Valid a) ∧ as.mapM encode = .ok bodies := by
  rw [mapM_ok]
  induction hall with
  | nil => exact ⟨by simp, .nil⟩
  | cons hbody _ ih =>
    obtain ⟨hhead, htail⟩ := forall_mem_cons.mp hin
    rw [flatMap_cons] at hexact
    obtain ⟨hs, hss⟩ := forall_mem_append.mp hexact
    obtain ⟨ha, hencode⟩ := h.exact _ _ _ hbody hhead hs
    obtain ⟨has, hencodes⟩ := ih htail hss
    exact ⟨forall_mem_cons.mpr ⟨ha, has⟩, .cons hencode hencodes⟩

theorem ItemCodec.counted_complete (h : ItemCodec B encode Valid txs) {limit : Nat}
    (hcount : as.length ≤ limit) (hvalid : ∀ a ∈ as, Valid a)
    (hsurvive : TxsSurvive (as.flatMap txs)) (hencode : as.mapM encode = .ok bodies) :
    Counted limit (Sized B) (putCount as ++ bodies.flatMap writeBytes) as :=
  counted_sized.mpr ⟨hcount, bodies, rfl, h.complete_all hvalid hsurvive hencode⟩

end

variable {body bytes : List UInt8}

theorem infix_writeBytes (h : writeBytes body <:+: bytes) : body <:+: bytes :=
  (suffix_append _ _).isInfix.trans h

/-- A body of a batch is a part of the payload. -/
theorem infix_bodies {bodies : List (List UInt8)} (hbody : body ∈ bodies)
    (h : bodies.flatMap writeBytes <:+: bytes) : body <:+: bytes :=
  infix_writeBytes ((infix_of_mem_flatten (mem_map_of_mem hbody)).trans h)

variable {B : List UInt8 → α → Prop} {Valid : α → Prop}

theorem ItemCodec.counted_exact {encode : α → Except NetFailure (List UInt8)}
    {txs : α → List Transaction} (h : ItemCodec B encode Valid txs) {w : List UInt8} {as : List α}
    (hw : Counted limit (Sized B) w as) (hin : w <:+: bytes)
    (hexact : TxsExact bytes (as.flatMap txs)) :
    as.length ≤ limit ∧ (∀ a ∈ as, Valid a) ∧ ∃ bodies, as.mapM encode = .ok bodies ∧
      w = putCount as ++ bodies.flatMap writeBytes := by
  obtain ⟨hcount, bodies, rfl, hbodies⟩ := counted_sized.mp hw
  have hpart : bodies.flatMap writeBytes <:+: bytes := (suffix_append _ _).isInfix.trans hin
  obtain ⟨hvalid, hencode⟩ := h.exact_all hbodies (fun _ hb => infix_bodies hb hpart) hexact
  exact ⟨hcount, hvalid, bodies, hencode, rfl⟩

theorem liftPanic_eq_ok {x : Except Failure α} {a : α} : liftPanic x = .ok a ↔ x = .ok a := by
  cases x <;> simp [liftPanic]

theorem ensureFits_bind {c : Prop} [Decidable c] {e : NetError} {f : Unit → Except NetFailure α}
    {a : α} : (ensureFits c e >>= f) = .ok a ↔ c ∧ f () = .ok a := by
  rw [bind_eq_ok]
  constructor
  · rintro ⟨_, hc, hf⟩
    exact ⟨guardWith_eq_ok.mp hc, hf⟩
  · rintro ⟨hc, hf⟩
    exact ⟨(), guardWith_eq_ok.mpr hc, hf⟩

theorem encodeTxBody_ok {what : String} {tx : Transaction} :
    encodeTxBody what tx = .ok body ↔
      body.length ≤ MAX_TX_SIZE ∧ body = serializeTransactionSigned tx := by
  refine ensureFits_bind.trans ⟨?_, ?_⟩
  · rintro ⟨hsize, ⟨⟩⟩
    exact ⟨hsize, rfl⟩
  · rintro ⟨hsize, rfl⟩
    exact ⟨hsize, rfl⟩

theorem txCodec (what : String) :
    ItemCodec IsTx (encodeTxBody what) (fun _ => True) (fun tx => [tx]) where
  complete tx body _ hsurvive hencode := by
    obtain ⟨hsize, rfl⟩ := encodeTxBody_ok.mp hencode
    exact ⟨hsize, hsurvive tx (by simp)⟩
  exact tx body bytes hbody hin hexact :=
    ⟨trivial, encodeTxBody_ok.mpr ⟨hbody.1, hexact tx (by simp) body hin hbody.2⟩⟩

theorem prefilledCodec :
    ItemCodec IsPrefilled encodePrefilled (fun entry => entry.1 < 2 ^ 32)
      (fun entry => [entry.2]) where
  complete entry w hindex hsurvive hencode := by
    obtain ⟨body, hbody, ⟨⟩⟩ := bind_eq_ok.mp hencode
    exact ⟨hindex, body, rfl, (txCodec _).complete _ _ trivial hsurvive hbody⟩
  exact entry w bytes hw hin hexact := by
    obtain ⟨hindex, body, rfl, hbody⟩ := hw
    have hinfix : body <:+: bytes := infix_writeBytes ((suffix_append _ _).isInfix.trans hin)
    exact ⟨hindex, bind_eq_ok.mpr
      ⟨body, ((txCodec _).exact _ _ _ hbody hinfix hexact).2, rfl⟩⟩

section
variable (crates : Crates)

theorem headerCodec : ItemCodec (IsHeader crates)
    (fun header => liftPanic (serializeHeader header)) (WellFormedHeader crates) (fun _ => []) where
  complete _ _ hwell _ hencode := (isHeader_iff crates).mpr ⟨hwell, liftPanic_eq_ok.mp hencode⟩
  exact _ _ _ hbody _ _ :=
    ⟨((isHeader_iff crates).mp hbody).1, liftPanic_eq_ok.mpr ((isHeader_iff crates).mp hbody).2⟩

theorem encodeBlockBody_ok {block : Block} {body : List UInt8} :
    encodeBlockBody block = .ok body ↔
      serializeBlock block = .ok body ∧ body.length ≤ MAX_BLOCK_SIZE := by
  refine bind_eq_ok.trans ⟨?_, ?_⟩
  · rintro ⟨bytes, hbytes, h⟩
    obtain ⟨hsize, ⟨⟩⟩ := ensureFits_bind.mp h
    exact ⟨liftPanic_eq_ok.mp hbytes, hsize⟩
  · rintro ⟨hbytes, hsize⟩
    exact ⟨body, liftPanic_eq_ok.mpr hbytes, ensureFits_bind.mpr ⟨hsize, rfl⟩⟩

/-- The decoded bodies of exact transactions. -/
theorem TxsExact.bodies {bytes : List UInt8} {txs : List Transaction} {bodies : List (List UInt8)}
    (hexact : TxsExact bytes txs) (hin : ∀ body ∈ bodies, body <:+: bytes)
    (h : List.Forall₂ (fun body tx => deserializeTransactionSigned body = .ok tx) bodies txs) :
    bodies = txs.map serializeTransactionSigned := by
  induction h with
  | nil => rfl
  | cons hbody _ ih =>
    obtain ⟨hhead, htail⟩ := forall_mem_cons.mp hin
    obtain ⟨hs, hss⟩ := forall_mem_cons.mp hexact
    rw [map_cons, hs _ hhead hbody, ih hss htail]

theorem blockCodec : ItemCodec (IsBlock crates) encodeBlockBody
    (fun block => WellFormedHeader crates block.header) Block.transactions where
  complete block body hwell hsurvive hencode := by
    obtain ⟨hbody, hsize⟩ := encodeBlockBody_ok.mp hencode
    refine ⟨hsize, ?_⟩
    obtain ⟨f, hf⟩ := hwell.exists_fields
    have hblock : block = Block.fromHeader (f.header crates) block.transactions := by
      rw [← hf]
      rfl
    rw [hblock, serializeBlock_fromHeader] at hbody
    obtain rfl := Except.ok.inj hbody
    have hmax : MAX_BLOCK_SIZE < 2 ^ 32 := by decide
    have hcount := le_length_serializeBlockTxs block.transactions
    simp only [length_append] at hsize
    conv_rhs => rw [hblock]
    refine deserializeBlock_serialized crates (by omega) fun tx htx => ⟨hsurvive tx htx, ?_⟩
    have hin : serializeBlockTx tx <:+: block.transactions.flatMap serializeBlockTx :=
      infix_of_mem_flatten (mem_map_of_mem htx)
    have hlength := hin.length_le
    rw [serializeBlockTx, length_writeBytes] at hlength
    omega
  exact block body bytes hbody hin hexact := by
    obtain ⟨hsize, hdecode⟩ := hbody
    rcases deserializeBlock_cases crates body with ⟨message, hrejected⟩ | ⟨f, bodies, txs, rfl, -, -,
      hbodies, hblock⟩
    · exact absurd (hdecode.symm.trans hrejected) nofun
    · obtain rfl := Except.ok.inj (hdecode.symm.trans hblock)
      have hpart : bodies.flatMap writeBytes <:+: bytes := (suffix_append _ _).isInfix.trans hin
      obtain rfl := hexact.bodies (fun body hbody => infix_bodies hbody hpart) hbodies
      refine ⟨f.wellFormed crates, encodeBlockBody_ok.mpr ⟨?_, hsize⟩⟩
      rw [serializeBlock_fromHeader, length_map, flatMap_map]
      rfl

end

/-! ### Messages -/

theorem getHeadersCodec : ExactCodec (fun height => .ok (encodeGetHeaders height)) parseGetHeaders
    (fun _ => True) (fun _ => []) fun _ => True where
  roundTrip _ _ _ _ hencode := (accepts_getHeaders.iff _ _).mpr (Except.ok.inj hencode).symm
  accepted _ _ hparse _ _ :=
    ⟨trivial, congrArg Except.ok ((accepts_getHeaders.iff _ _).mp hparse).symm⟩

theorem fixedCodec {encode : List α → Except NetFailure (List UInt8)} {enc : α → List UInt8}
    (h : Accepts parse (Tagged tag (Counted limit fun w a => w = enc a)))
    (hencode : ∀ as bytes, encode as = .ok bytes ↔
      as.length ≤ limit ∧ bytes = tag :: (putCount as ++ as.flatMap enc)) :
    ExactCodec encode parse (fun _ => True) (fun _ => []) fun _ => True where
  roundTrip as bytes _ _ hbytes := by
    obtain ⟨hcount, rfl⟩ := (hencode as bytes).mp hbytes
    exact (h.iff _ _).mpr ⟨_, rfl, counted_fixed.mpr ⟨hcount, rfl⟩⟩
  accepted as bytes hparse _ _ := by
    obtain ⟨w, rfl, hw⟩ := (h.iff _ _).mp hparse
    obtain ⟨hcount, rfl⟩ := counted_fixed.mp hw
    exact ⟨trivial, (hencode _ _).mpr ⟨hcount, rfl⟩⟩

theorem ensureFits_return {c : Prop} [Decidable c] {e : NetError} {out : List UInt8} :
    (do ensureFits c e; return out) = Except.ok (ε := NetFailure) bytes ↔ c ∧ bytes = out :=
  ensureFits_bind.trans
    (and_congr_right' ⟨fun h => (Except.ok.inj h).symm, fun h => congrArg Except.ok h.symm⟩)

theorem invItemsCodec (tag : UInt8) (what : String) :
    ExactCodec (encodeInvItems tag) (parseInvItems tag what) (fun _ => True) (fun _ => [])
      fun _ => True :=
  fixedCodec (accepts_invItems tag what) fun _ _ => ensureFits_return

theorem getBlocksCodec : ExactCodec encodeGetBlocks parseGetBlocks (fun _ => True) (fun _ => [])
    fun _ => True :=
  fixedCodec accepts_getBlocks fun _ _ => ensureFits_return

/-- Batches of items with their lengths in front. -/
theorem batchCodec {encodeItem : α → Except NetFailure (List UInt8)} {txs : α → List Transaction}
    (hitem : ItemCodec B encodeItem Valid txs)
    (h : Accepts parse (Tagged tag (Counted limit (Sized B)))) (tooMany tooLong : NetError) :
    ExactCodec (fun as => do
      ensureFits (as.length ≤ limit) tooMany
      let bodies ← as.mapM encodeItem
      let out := tag :: (putCount as ++ bodies.flatMap writeBytes)
      ensureFits (out.length ≤ MAX_MESSAGE_SIZE) tooLong
      return out) parse (fun as => ∀ a ∈ as, Valid a) (fun as => as.flatMap txs)
      fun bytes => bytes.length ≤ MAX_MESSAGE_SIZE where
  roundTrip as bytes hvalid hsurvive hencode := by
    obtain ⟨hcount, hencode⟩ := ensureFits_bind.mp hencode
    obtain ⟨bodies, hbodies, hencode⟩ := bind_eq_ok.mp hencode
    obtain ⟨-, rfl⟩ := ensureFits_return.mp hencode
    exact (h.iff _ _).mpr ⟨_, rfl, hitem.counted_complete hcount hvalid hsurvive hbodies⟩
  accepted as bytes hparse hfits hexact := by
    obtain ⟨w, rfl, hw⟩ := (h.iff _ _).mp hparse
    obtain ⟨hcount, hvalid, bodies, hbodies, rfl⟩ :=
      hitem.counted_exact hw (suffix_cons _ _).isInfix hexact
    exact ⟨hvalid, ensureFits_bind.mpr ⟨hcount, bind_eq_ok.mpr
      ⟨bodies, hbodies, ensureFits_return.mpr ⟨hfits, rfl⟩⟩⟩⟩

section
variable (crates : Crates)

/-- No batch of headers is too long for a message. -/
theorem headersCodec : ExactCodec encodeHeaders (parseHeaders crates)
    (fun headers => ∀ header ∈ headers, WellFormedHeader crates header) (fun _ => [])
    fun _ => True := by
  have h := batchCodec (headerCodec crates) (accepts_headers crates) (sizeErr "headers batch")
    (sizeErr "headers message")
  refine ⟨fun headers bytes hvalid _ => h.roundTrip headers bytes hvalid (by simp [TxsSurvive]),
    fun headers bytes hparse _ _ => h.accepted headers bytes hparse ?_ (by simp [TxsExact])⟩
  obtain ⟨_, rfl, hcount, ws, rfl, hws⟩ := ((accepts_headers crates).iff _ _).mp hparse
  have hlength := repeated_length (k := 4 + HEADER_WIRE_LEN) (fun w header hw => ?_)
    ⟨ws, rfl, rfl, hws⟩
  · have hlimit : MAX_HEADERS_BATCH = 2000 := rfl
    have hwire : 4 + HEADER_WIRE_LEN = 193 := rfl
    have hmax : MAX_MESSAGE_SIZE = 33554432 := rfl
    rw [hws.length_eq, hwire] at hlength
    simp only [length_cons, length_append, length_putCount]
    omega
  · obtain ⟨body, rfl, hbody⟩ := hw
    rw [length_writeBytes, hbody.length_eq]

theorem blocksCodec : ExactCodec encodeBlocks (parseBlocks crates)
    (fun blocks => ∀ block ∈ blocks, WellFormedHeader crates block.header)
    (fun blocks => blocks.flatMap Block.transactions) fun bytes => bytes.length ≤ MAX_MESSAGE_SIZE :=
  batchCodec (blockCodec crates) (accepts_blocks crates) (sizeErr "blocks batch")
    (sizeErr "blocks message")

end

theorem txMessageCodec : ExactCodec encodeTx parseTx (fun _ => True) (fun tx => [tx])
    fun _ => True where
  roundTrip tx bytes _ hsurvive hencode := by
    obtain ⟨body, hbody, ⟨⟩⟩ := bind_eq_ok.mp hencode
    exact (accepts_tx.iff _ _).mpr
      ⟨_, rfl, body, rfl, (txCodec _).complete tx body trivial hsurvive hbody⟩
  accepted tx bytes hparse _ hexact := by
    obtain ⟨_, rfl, body, rfl, hbody⟩ := (accepts_tx.iff _ _).mp hparse
    have hin : body <:+: MSG_TX :: writeBytes body :=
      infix_writeBytes (suffix_cons _ _).isInfix
    exact ⟨trivial, bind_eq_ok.mpr
      ⟨body, ((txCodec _).exact tx body _ hbody hin hexact).2, rfl⟩⟩

theorem getBlockTxnCodec : ExactCodec GetBlockTxn.encode GetBlockTxn.parse
    (fun request => ∀ i ∈ request.missingIndices, i < 2 ^ 32) (fun _ => []) fun _ => True where
  roundTrip request bytes hvalid _ hencode := by
    obtain ⟨hcount, rfl⟩ := ensureFits_return.mp hencode
    exact (accepts_getBlockTxn.iff _ _).mpr
      ⟨_, rfl, _, rfl, counted_encoded.mpr ⟨hcount, rfl, hvalid⟩⟩
  accepted request bytes hparse _ _ := by
    obtain ⟨_, rfl, _, rfl, hindices⟩ := (accepts_getBlockTxn.iff _ _).mp hparse
    obtain ⟨hcount, rfl, hvalid⟩ := counted_encoded.mp hindices
    exact ⟨hvalid, ensureFits_return.mpr ⟨hcount, rfl⟩⟩

theorem blockTxnCodec : ExactCodec BlockTxn.encode BlockTxn.parse (fun _ => True) BlockTxn.txs
    fun bytes => bytes.length ≤ MAX_MESSAGE_SIZE where
  roundTrip txn bytes _ hsurvive hencode := by
    obtain ⟨hcount, hencode⟩ := ensureFits_bind.mp hencode
    obtain ⟨bodies, hbodies, hencode⟩ := bind_eq_ok.mp hencode
    obtain ⟨-, rfl⟩ := ensureFits_return.mp hencode
    refine (accepts_blockTxn.iff _ _).mpr ⟨_, rfl, _, rfl, ?_⟩
    exact (txCodec _).counted_complete hcount (fun _ _ => trivial) (by simpa using hsurvive) hbodies
  accepted txn bytes hparse hfits hexact := by
    obtain ⟨_, rfl, v, rfl, hv⟩ := (accepts_blockTxn.iff _ _).mp hparse
    have hin : v <:+: MSG_BLOCK_TXN :: (txn.blockHash.toList ++ v) :=
      (suffix_append _ _).isInfix.trans (suffix_cons _ _).isInfix
    obtain ⟨hcount, -, bodies, hbodies, rfl⟩ :=
      (txCodec "block_txn: tx").counted_exact hv hin (by simpa using hexact)
    exact ⟨trivial, ensureFits_bind.mpr ⟨hcount, bind_eq_ok.mpr
      ⟨bodies, hbodies, ensureFits_return.mpr ⟨hfits, rfl⟩⟩⟩⟩

/-- The transactions of a compact block. -/
def CompactBlock.txs (compact : CompactBlock) : List Transaction := compact.prefilledTxs.map Prod.snd

theorem CompactBlock.flatMap_prefilled (compact : CompactBlock) :
    compact.prefilledTxs.flatMap (fun entry => [entry.2]) = compact.txs := by
  simp [CompactBlock.txs, ← map_eq_flatMap]

theorem compactBlockCodec (crates : Crates) : ExactCodec CompactBlock.encode (CompactBlock.parse crates)
    (fun compact => WellFormedHeader crates compact.header ∧
      ∀ entry ∈ compact.prefilledTxs, entry.1 < 2 ^ 32) CompactBlock.txs
    fun bytes => bytes.length ≤ MAX_MESSAGE_SIZE where
  roundTrip compact bytes hvalid hsurvive hencode := by
    obtain ⟨hshort, hencode⟩ := ensureFits_bind.mp hencode
    obtain ⟨hprefilled, hencode⟩ := ensureFits_bind.mp hencode
    obtain ⟨header, hheader, hencode⟩ := bind_eq_ok.mp hencode
    obtain ⟨prefilled, hentries, hencode⟩ := bind_eq_ok.mp hencode
    obtain ⟨-, rfl⟩ := ensureFits_return.mp hencode
    have hall := prefilledCodec.complete_all hvalid.2 (compact.flatMap_prefilled ▸ hsurvive) hentries
    refine ((accepts_compactBlock crates).iff _ _).mpr ⟨_, rfl, header, _, _, ?_, ?_,
      counted_fixed.mpr ⟨hshort, rfl⟩, hprefilled, prefilled, rfl, hall⟩
    · simp
    · exact (headerCodec crates).complete _ _ hvalid.1 (by simp [TxsSurvive]) hheader
  accepted compact bytes hparse hfits hexact := by
    obtain ⟨_, rfl, header, _, _, rfl, hheader, hids, hprefilled, entries, rfl, hentries⟩ :=
      ((accepts_compactBlock crates).iff _ _).mp hparse
    obtain ⟨hshort, rfl⟩ := counted_fixed.mp hids
    have hout : header ++ (toBeBytes compact.nonce ++
        (putCount compact.shortIds ++ compact.shortIds.flatMap Vector.toList ++
        (putCount compact.prefilledTxs ++ entries.flatten))) =
        header ++ (toBeBytes compact.nonce ++ (putCount compact.shortIds ++
        (compact.shortIds.flatMap Vector.toList ++
        (putCount compact.prefilledTxs ++ entries.flatten)))) := by
      rw [append_assoc (putCount compact.shortIds)]
    rw [hout] at hfits hexact ⊢
    have hpart : entries.flatten <:+: MSG_COMPACT_BLOCK :: (header ++ (toBeBytes compact.nonce ++
        (putCount compact.shortIds ++ (compact.shortIds.flatMap Vector.toList ++
        (putCount compact.prefilledTxs ++ entries.flatten))))) := by
      refine List.IsSuffix.isInfix ⟨MSG_COMPACT_BLOCK :: (header ++ (toBeBytes compact.nonce ++
        (putCount compact.shortIds ++ (compact.shortIds.flatMap Vector.toList ++
        putCount compact.prefilledTxs)))), ?_⟩
      simp
    obtain ⟨hwell, hheader⟩ := (isHeader_iff crates).mp hheader
    obtain ⟨hindices, hencode⟩ := prefilledCodec.exact_all hentries
      (fun entry hentry => (infix_of_mem_flatten hentry).trans hpart)
      (compact.flatMap_prefilled ▸ hexact)
    refine ⟨⟨hwell, hindices⟩, ensureFits_bind.mpr ⟨hshort, ensureFits_bind.mpr ⟨hprefilled, ?_⟩⟩⟩
    refine bind_eq_ok.mpr ⟨header, liftPanic_eq_ok.mpr hheader, ?_⟩
    exact bind_eq_ok.mpr ⟨entries, hencode, ensureFits_return.mpr ⟨hfits, rfl⟩⟩

theorem erlayReconcile_iff {message : ErlayReconcile} :
    ErlayReconcile.parse bytes = .ok message ↔ message.sketch.length ≤ MAX_ERLAY_SKETCH ∧
      bytes = MSG_ERLAY_RECONCILE :: (if message.respond then 1 else 0) :: message.sketch := by
  constructor
  · intro h
    match bytes, h with
    | tag :: flag :: sketch, h =>
      obtain ⟨_, htag, h⟩ := bind_eq_ok.mp h
      obtain ⟨_, hflag, h⟩ := bind_eq_ok.mp h
      obtain ⟨_, hsketch, ⟨⟩⟩ := bind_eq_ok.mp h
      obtain rfl := guardWith_eq_ok.mp htag
      refine ⟨guardWith_eq_ok.mp hsketch, ?_⟩
      rcases guardWith_eq_ok.mp hflag with rfl | rfl <;> rfl
  · rintro ⟨hsketch, rfl⟩
    obtain ⟨respond, sketch⟩ := message
    refine bind_eq_ok.mpr ⟨(), guardWith_eq_ok.mpr rfl, ?_⟩
    refine bind_eq_ok.mpr ⟨(), guardWith_eq_ok.mpr ?_, ?_⟩
    · cases respond <;> simp
    · refine bind_eq_ok.mpr ⟨(), guardWith_eq_ok.mpr hsketch, ?_⟩
      cases respond <;> rfl

theorem erlayReconcileCodec : ExactCodec ErlayReconcile.encode ErlayReconcile.parse
    (fun _ => True) (fun _ => []) fun _ => True where
  roundTrip _ _ _ _ hencode := erlayReconcile_iff.mpr (ensureFits_return.mp hencode)
  accepted _ _ hparse _ _ := ⟨trivial, ensureFits_return.mpr (erlayReconcile_iff.mp hparse)⟩

/-! ### Kinds and counts -/

/-- The first byte of every item is its kind. -/
theorem kind_of_flatMap {items : List InventoryItem} {i : Nat} {byte : UInt8}
    (h : (items.flatMap encodeInvItem)[i * INV_ITEM_WIRE_LEN]? = some byte) :
    ∃ kind : InvKind, byte = kind.toWire := by
  induction items generalizing i with
  | nil => simp at h
  | cons item items ih =>
    cases i with
    | zero =>
      simp only [Nat.zero_mul, flatMap_cons, encodeInvItem, cons_append,
        getElem?_cons_zero] at h
      exact ⟨item.kind, (Option.some.inj h).symm⟩
    | succ i =>
      have hlength := length_encodeInvItem item
      rw [flatMap_cons, getElem?_append_right (by rw [hlength, Nat.succ_mul]; omega),
        hlength, Nat.succ_mul, Nat.add_sub_cancel] at h
      exact ih h

theorem rejectsKinds_invItems (tag : UInt8) (what : String) :
    RejectsKinds (parseInvItems tag what) := by
  intro bytes i byte hbyte hunknown
  refine error_of_not_ok fun items hitems => ?_
  obtain ⟨_, rfl, hw⟩ := ((accepts_invItems tag what).iff _ _).mp hitems
  obtain ⟨-, rfl⟩ := counted_fixed.mp hw
  have hhead : (tag :: putCount items).length = 5 := by simp
  rw [← cons_append, getElem?_append_right (by omega), hhead, Nat.add_sub_cancel_left]
    at hbyte
  obtain ⟨kind, rfl⟩ := kind_of_flatMap hbyte
  exact absurd (hunknown.symm.trans (fromWire_iff.mpr rfl)) nofun

theorem rejectsCounts_tx : RejectsCounts parseTx 1 MAX_TX_SIZE := by
  refine rejectsCounts_of (by decide) fun bytes tx htx => ?_
  obtain ⟨_, rfl, body, rfl, hsize, -⟩ := (accepts_tx.iff _ _).mp htx
  exact ⟨[MSG_TX], body.length, body, rfl, rfl, hsize⟩

theorem rejectsCounts_getBlockTxn : RejectsCounts GetBlockTxn.parse 33 MAX_COMPACT_TXS := by
  refine rejectsCounts_of (by decide) fun bytes request hrequest => ?_
  obtain ⟨_, rfl, _, rfl, hcount, ws, rfl, -⟩ := (accepts_getBlockTxn.iff _ _).mp hrequest
  exact ⟨MSG_GET_BLOCK_TXN :: request.blockHash.toList, _, ws.flatten, rfl, by simp, hcount⟩

theorem rejectsCounts_blockTxn : RejectsCounts BlockTxn.parse 33 MAX_COMPACT_TXS := by
  refine rejectsCounts_of (by decide) fun bytes txn htxn => ?_
  obtain ⟨_, rfl, _, rfl, hcount, ws, rfl, -⟩ := (accepts_blockTxn.iff _ _).mp htxn
  exact ⟨MSG_BLOCK_TXN :: txn.blockHash.toList, _, ws.flatten, rfl, by simp, hcount⟩

section
variable (crates : Crates)

theorem rejectsCounts_compactBlock :
    RejectsCounts (CompactBlock.parse crates) (1 + HEADER_WIRE_LEN + 8) MAX_COMPACT_TXS := by
  refine rejectsCounts_of (by decide) fun bytes compact hcompact => ?_
  obtain ⟨_, rfl, header, _, prefilled, rfl, hheader, ⟨hcount, ids, rfl, -⟩, -⟩ :=
    ((accepts_compactBlock crates).iff _ _).mp hcompact
  refine ⟨MSG_COMPACT_BLOCK :: (header ++ toBeBytes compact.nonce), _, ids.flatten ++ prefilled,
    ?_, ?_, hcount⟩
  · simp [putCount]
  · simp only [length_cons, length_append, hheader.length_eq, length_toBeBytes]
    omega

theorem rejectsPrefilled_compactBlock : RejectsPrefilled (CompactBlock.parse crates) := by
  intro bytes short count hshort hcount habove
  refine error_of_not_ok fun compact hcompact => ?_
  obtain ⟨_, rfl, header, _, _, rfl, hheader, hshortIds, hprefilled, entries, rfl, -⟩ :=
    ((accepts_compactBlock crates).iff _ _).mp hcompact
  obtain ⟨hids, rfl⟩ := counted_fixed.mp hshortIds
  let front := MSG_COMPACT_BLOCK :: (header ++ toBeBytes compact.nonce)
  let ids := compact.shortIds.flatMap Vector.toList
  have hfront : front.length = 1 + HEADER_WIRE_LEN + 8 := by
    simp only [front, length_cons, length_append, hheader.length_eq, length_toBeBytes]
    omega
  have hlength : ids.length = compact.shortIds.length * SHORT_ID_LEN := by
    simp [ids, length_flatMap, SHORT_ID_LEN]
  have hbytes : MSG_COMPACT_BLOCK :: (header ++ (toBeBytes compact.nonce ++
      (putCount compact.shortIds ++ ids ++ (putCount compact.prefilledTxs ++ entries.flatten)))) =
      front ++ (putCount compact.shortIds ++
        (ids ++ (putCount compact.prefilledTxs ++ entries.flatten))) := by
    simp [front]
  rw [hbytes] at hshort hcount
  have hmax : MAX_COMPACT_TXS < 2 ^ 32 := by decide
  rw [← hfront] at hshort
  have hnat := count_at (Nat.lt_of_le_of_lt hids hmax) hshort
  have hoffset : (front ++ (putCount compact.shortIds ++ ids)).length =
      1 + HEADER_WIRE_LEN + 8 + 4 + short.toNat * SHORT_ID_LEN := by
    rw [length_append, length_append, hfront, hlength, hnat, length_putCount]
    omega
  have hsplit : front ++ (putCount compact.shortIds ++
      (ids ++ (putCount compact.prefilledTxs ++ entries.flatten))) =
      front ++ (putCount compact.shortIds ++ ids) ++
        (putCount compact.prefilledTxs ++ entries.flatten) := by
    simp
  rw [← hoffset, hsplit] at hcount
  have hsmall : MAX_PREFILLED < 2 ^ 32 := by decide
  rw [count_at (Nat.lt_of_le_of_lt hprefilled hsmall) hcount] at habove
  omega

/-- **The codecs of the wire.**  For inventories, requests, headers and sketches the parser
inverts the encoder and accepts nothing but encodings; for transactions, blocks, compact
blocks and their missing transactions the same, as far as the codec of transactions is exact
on what they contain and the message is not too long.  A payload of any message but a
reconciliation is rejected once bytes are added to it or cut off, and a count above its limit
or an unknown kind of item is rejected.  A reconciliation has no length of its sketch: it is
rejected when it has no flag, or when the sketch is too long. -/
theorem wire_codecs_exact :
    (∀ codec ∈ [(encodeInv, parseInv), (encodeGetData, parseGetData),
        (encodeNotFound, parseNotFound)],
      ExactCodec codec.1 codec.2 (fun _ => True) (fun _ => []) (fun _ => True) ∧
      SelfDelimiting codec.2 ∧ RejectsCounts codec.2 1 MAX_INV_BATCH ∧ RejectsKinds codec.2) ∧
    (ExactCodec (fun height => .ok (encodeGetHeaders height)) parseGetHeaders (fun _ => True)
        (fun _ => []) (fun _ => True) ∧
      SelfDelimiting parseGetHeaders) ∧
    (ExactCodec encodeHeaders (parseHeaders crates)
        (fun headers => ∀ header ∈ headers, WellFormedHeader crates header) (fun _ => [])
        (fun _ => True) ∧
      SelfDelimiting (parseHeaders crates) ∧
      RejectsCounts (parseHeaders crates) 1 MAX_HEADERS_BATCH) ∧
    (ExactCodec encodeGetBlocks parseGetBlocks (fun _ => True) (fun _ => []) (fun _ => True) ∧
      SelfDelimiting parseGetBlocks ∧ RejectsCounts parseGetBlocks 1 MAX_BLOCKS_BATCH) ∧
    (ExactCodec GetBlockTxn.encode GetBlockTxn.parse
        (fun request => ∀ i ∈ request.missingIndices, i < 2 ^ 32) (fun _ => []) (fun _ => True) ∧
      SelfDelimiting GetBlockTxn.parse ∧ RejectsCounts GetBlockTxn.parse 33 MAX_COMPACT_TXS) ∧
    (ExactCodec ErlayReconcile.encode ErlayReconcile.parse (fun _ => True) (fun _ => [])
        (fun _ => True) ∧
      ∀ bytes : List UInt8, bytes.length < 2 ∨ 2 + MAX_ERLAY_SKETCH < bytes.length →
        ∃ e, ErlayReconcile.parse bytes = .error e) ∧
    (ExactCodec encodeTx parseTx (fun _ => True) (fun tx => [tx]) (fun _ => True) ∧
      SelfDelimiting parseTx ∧ RejectsCounts parseTx 1 MAX_TX_SIZE) ∧
    (ExactCodec encodeBlocks (parseBlocks crates)
        (fun blocks => ∀ block ∈ blocks, WellFormedHeader crates block.header)
        (fun blocks => blocks.flatMap Block.transactions)
        (fun bytes => bytes.length ≤ MAX_MESSAGE_SIZE) ∧
      SelfDelimiting (parseBlocks crates) ∧
      RejectsCounts (parseBlocks crates) 1 MAX_BLOCKS_BATCH) ∧
    (ExactCodec CompactBlock.encode (CompactBlock.parse crates)
        (fun compact => WellFormedHeader crates compact.header ∧
          ∀ entry ∈ compact.prefilledTxs, entry.1 < 2 ^ 32)
        CompactBlock.txs (fun bytes => bytes.length ≤ MAX_MESSAGE_SIZE) ∧
      SelfDelimiting (CompactBlock.parse crates) ∧
      RejectsCounts (CompactBlock.parse crates) (1 + HEADER_WIRE_LEN + 8) MAX_COMPACT_TXS ∧
      RejectsPrefilled (CompactBlock.parse crates)) ∧
    (ExactCodec BlockTxn.encode BlockTxn.parse (fun _ => True) BlockTxn.txs
        (fun bytes => bytes.length ≤ MAX_MESSAGE_SIZE) ∧
      SelfDelimiting BlockTxn.parse ∧ RejectsCounts BlockTxn.parse 33 MAX_COMPACT_TXS) := by
  have hinv : ∀ tag what, ExactCodec (encodeInvItems tag) (parseInvItems tag what) (fun _ => True)
      (fun _ => []) (fun _ => True) ∧ SelfDelimiting (parseInvItems tag what) ∧
      RejectsCounts (parseInvItems tag what) 1 MAX_INV_BATCH ∧
      RejectsKinds (parseInvItems tag what) := fun tag what =>
    ⟨invItemsCodec tag what, (accepts_invItems tag what).selfDelimiting,
      (accepts_invItems tag what).rejectsCounts (by decide), rejectsKinds_invItems tag what⟩
  refine ⟨?_, ⟨getHeadersCodec, accepts_getHeaders.selfDelimiting⟩,
    ⟨headersCodec crates, (accepts_headers crates).selfDelimiting,
      (accepts_headers crates).rejectsCounts (by decide)⟩,
    ⟨getBlocksCodec, accepts_getBlocks.selfDelimiting, accepts_getBlocks.rejectsCounts (by decide)⟩,
    ⟨getBlockTxnCodec, accepts_getBlockTxn.selfDelimiting, rejectsCounts_getBlockTxn⟩,
    ⟨erlayReconcileCodec, ?_⟩,
    ⟨txMessageCodec, accepts_tx.selfDelimiting, rejectsCounts_tx⟩,
    ⟨blocksCodec crates, (accepts_blocks crates).selfDelimiting,
      (accepts_blocks crates).rejectsCounts (by decide)⟩,
    ⟨compactBlockCodec crates, (accepts_compactBlock crates).selfDelimiting,
      rejectsCounts_compactBlock crates, rejectsPrefilled_compactBlock crates⟩,
    ⟨blockTxnCodec, accepts_blockTxn.selfDelimiting, rejectsCounts_blockTxn⟩⟩
  · simp only [forall_mem_cons, not_mem_nil, false_imp_iff, implies_true, and_true]
    exact ⟨hinv MSG_INV "INV", hinv MSG_GET_DATA "GET_DATA", hinv MSG_NOTFOUND "NOTFOUND"⟩
  · intro bytes hbytes
    refine error_of_not_ok fun message hmessage => ?_
    obtain ⟨hsketch, rfl⟩ := erlayReconcile_iff.mp hmessage
    simp only [length_cons] at hbytes
    omega

/-- A reconciliation that is cut off, or that has bytes added to it, is another one. -/
theorem erlayReconcile_truncated :
    ErlayReconcile.encode ⟨true, [7]⟩ = .ok [0x0D, 1, 7] ∧
    ErlayReconcile.parse [0x0D, 1] = .ok ⟨true, []⟩ ∧
    ErlayReconcile.parse [0x0D, 1, 7, 9] = .ok ⟨true, [7, 9]⟩ := ⟨rfl, rfl, rfl⟩

end

end Strangecoin
