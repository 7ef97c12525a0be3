import Strangecoin.WireMessages
import Strangecoin.BlockRoundTrip

/-! # What the parsers of the wire accept

For every message the byte strings that its parser accepts, and what it returns for
them.  A batch is a count and that many items (`Counted`), a transaction, header or
block in it has its length in front (`Sized`), and a payload has its tag in front
(`Tagged`).
-/
namespace Strangecoin
open List

open Reader

/-! ### Parts of messages -/

section
variable {α : Type} {P : List UInt8 → α → Prop}

def Tagged (tag : UInt8) (P : List UInt8 → α → Prop) (bytes : List UInt8) (a : α) : Prop :=
  ∃ w, bytes = tag :: w ∧ P w a

/-- A byte string with its length in front. -/
def Sized (P : List UInt8 → α → Prop) (w : List UInt8) (a : α) : Prop :=
  ∃ body, w = writeBytes body ∧ P body a

/-- A count and that many items. -/
def Counted (limit : Nat) (P : List UInt8 → α → Prop) (w : List UInt8) (as : List α) : Prop :=
  as.length ≤ limit ∧
    ∃ ws : List (List UInt8), w = putCount as ++ ws.flatten ∧ List.Forall₂ P ws as

theorem then_tag {tag : UInt8} {w : List UInt8} {a : α} :
    Then (fun w (_ : Unit) => w = [tag]) (fun _ => P) w a ↔ Tagged tag P w a := by
  constructor
  · rintro ⟨u, v, _, rfl, rfl, hv⟩
    exact ⟨v, rfl, hv⟩
  · rintro ⟨v, rfl, hv⟩
    exact ⟨[tag], v, (), rfl, rfl, hv⟩

theorem then_count {limit : Nat} {w : List UInt8} {as : List α} :
    Then (fun w n => n ≤ limit ∧ w = toBeBytes32 (UInt32.ofNat n)) (Repeated P) w as ↔
      Counted limit P w as := by
  constructor
  · rintro ⟨_, _, n, rfl, ⟨hlimit, rfl⟩, ws, rfl, rfl, hws⟩
    rw [hws.length_eq] at hlimit
    refine ⟨hlimit, ws, ?_, hws⟩
    rw [putCount, hws.length_eq]
  · rintro ⟨hlimit, ws, rfl, hws⟩
    exact ⟨putCount as, ws.flatten, as.length, rfl, ⟨hlimit, rfl⟩, ws, rfl, hws.length_eq, hws⟩

theorem counted_sized {limit : Nat} {w : List UInt8} {as : List α} :
    Counted limit (Sized P) w as ↔ as.length ≤ limit ∧
      ∃ bodies, w = putCount as ++ bodies.flatMap writeBytes ∧ List.Forall₂ P bodies as := by
  refine and_congr_right' ⟨?_, ?_⟩
  · rintro ⟨ws, rfl, hws⟩
    suffices h : ∃ bodies, ws = bodies.map writeBytes ∧ List.Forall₂ P bodies as by
      obtain ⟨bodies, rfl, hbodies⟩ := h
      exact ⟨bodies, by rw [List.flatMap], hbodies⟩
    induction hws with
    | nil => exact ⟨[], rfl, .nil⟩
    | cons h _ ih =>
      obtain ⟨body, rfl, hbody⟩ := h
      obtain ⟨bodies, rfl, hbodies⟩ := ih
      exact ⟨body :: bodies, rfl, .cons hbody hbodies⟩
  · rintro ⟨bodies, rfl, hbodies⟩
    refine ⟨bodies.map writeBytes, by rw [List.flatMap], forall₂_map_left_iff.mpr ?_⟩
    exact hbodies.imp fun body a h => ⟨body, rfl, h⟩

theorem counted_encoded {limit : Nat} {enc : α → List UInt8} {V : α → Prop} {w : List UInt8}
    {as : List α} :
    Counted limit (fun w a => w = enc a ∧ V a) w as ↔
      as.length ≤ limit ∧ w = putCount as ++ as.flatMap enc ∧ ∀ a ∈ as, V a := by
  refine and_congr_right fun _ => ⟨?_, ?_⟩
  · rintro ⟨ws, rfl, hws⟩
    obtain ⟨rfl, hall⟩ := forall₂_encoded.mp hws
    exact ⟨by rw [List.flatMap], hall⟩
  · rintro ⟨rfl, hall⟩
    exact ⟨as.map enc, by rw [List.flatMap], forall₂_encoded.mpr ⟨rfl, hall⟩⟩

theorem counted_fixed {limit : Nat} {enc : α → List UInt8} {w : List UInt8} {as : List α} :
    Counted limit (fun w a => w = enc a) w as ↔
      as.length ≤ limit ∧ w = putCount as ++ as.flatMap enc := by
  have h : Counted limit (fun w a => w = enc a ∧ True) w as ↔ _ := counted_encoded
  simpa using h

@[simp] theorem length_putCount (as : List α) : (putCount as).length = 4 := length_toBeBytes32 _

theorem Counted.four_le {limit : Nat} {w : List UInt8} {as : List α} (h : Counted limit P w as) :
    4 ≤ w.length := by
  obtain ⟨_, ws, rfl, _⟩ := h
  simp

theorem length_writeBytes (body : List UInt8) : (writeBytes body).length = 4 + body.length := by
  simp [writeBytes]

end

/-! ### The readers of the parts -/

section
variable {ε α : Type}

theorem recognizes_tag (expected : UInt8) (e : ε) :
    Recognizes (Reader.tag expected e) fun w _ => w = [expected] := by
  refine ((recognizes_byte e).bind fun b => recognizes_check (guardWith (b = expected) e)).congr ?_
  intro w _
  constructor
  · rintro ⟨_, _, b, rfl, rfl, rfl, hguard⟩
    rw [guardWith_eq_ok.mp hguard]
    rfl
  · rintro rfl
    exact ⟨[expected], [], expected, rfl, rfl, rfl, guardWith_eq_ok.mpr rfl⟩

/-- A value that is computed from a fixed number of bytes, and gives them back. -/
theorem recognizes_fixed {n : Nat} {e : ε} {decode : List UInt8 → α} {enc : α → List UInt8}
    (hlength : ∀ a, (enc a).length = n) (hdecode : ∀ a, decode (enc a) = a)
    (henc : ∀ w, w.length = n → enc (decode w) = w) :
    Recognizes (do let w ← take n e; return decode w) fun w a => w = enc a := by
  refine ((recognizes_take n e).bind fun w => recognizes_pure (decode w)).congr fun w a => ?_
  constructor
  · rintro ⟨_, _, w, rfl, ⟨hw, rfl⟩, rfl, rfl⟩
    rw [append_nil, henc w hw]
  · rintro rfl
    exact ⟨enc a, [], enc a, (append_nil _).symm, ⟨hlength a, rfl⟩, rfl, (hdecode a).symm⟩

theorem recognizes_u32 (e : ε) : Recognizes (Reader.u32 e) fun w x => w = toBeBytes32 x :=
  recognizes_fixed length_toBeBytes32 fromBeBytes32_toBeBytes32 fun _ => toBeBytes32_fromBeBytes32

theorem recognizes_u64 (e : ε) : Recognizes (Reader.u64 e) fun w x => w = toBeBytes x :=
  recognizes_fixed length_toBeBytes fromBeBytes64_toBeBytes fun _ => toBeBytes_fromBeBytes64

theorem recognizes_digest (e : ε) : Recognizes (Reader.digest e) fun w d => w = d.toList :=
  recognizes_fixed (fun d => d.length_toList) digestOfBytes_toList fun _ => toList_digestOfBytes

theorem recognizes_shortId (e : NetError) : Recognizes (readShortId e) fun w id => w = id.toList := by
  refine recognizes_fixed (fun id => id.length_toList) (fun id => ?_) fun w hw => ?_
  · ext i hi
    simp
  · apply ext_getElem
    · simpa [SHORT_ID_LEN] using hw.symm
    · intro i hi hi'
      simp [hi']

/-- Below `2 ^ 32` a count is the number that its four bytes stand for. -/
theorem recognizes_count (limit : Nat) (hlimit : limit < 2 ^ 32) (truncated : ε) (tooMany : Nat → ε) :
    Recognizes (Reader.count truncated limit tooMany)
      fun w n => n ≤ limit ∧ w = toBeBytes32 (UInt32.ofNat n) := by
  refine ((recognizes_u32 truncated).bind fun x =>
    (recognizes_check (guardWith (x.toNat ≤ limit) (tooMany x.toNat))).bind fun _ =>
    recognizes_pure x.toNat).congr fun w n => ?_
  constructor
  · rintro ⟨_, _, x, rfl, rfl, _, _, _, rfl, ⟨rfl, hguard⟩, rfl, rfl⟩
    refine ⟨guardWith_eq_ok.mp hguard, ?_⟩
    rw [UInt32.ofNat_toNat]
    simp
  · rintro ⟨hn, rfl⟩
    have hnat : (UInt32.ofNat n).toNat = n :=
      UInt32.toNat_ofNat_of_lt' (Nat.lt_of_le_of_lt hn hlimit)
    exact ⟨_, [], UInt32.ofNat n, (append_nil _).symm, rfl, [], [], (), rfl,
      ⟨rfl, guardWith_eq_ok.mpr (hnat.symm ▸ hn)⟩, rfl, hnat.symm⟩

theorem recognizes_index (what : String) :
    Recognizes (readIndex what) fun w i => w = encodeIndex i ∧ i < 2 ^ 32 := by
  refine ((recognizes_u32 _).bind fun x => recognizes_pure x.toNat).congr fun w i => ?_
  constructor
  · rintro ⟨_, _, x, rfl, rfl, rfl, rfl⟩
    rw [encodeIndex, UInt32.ofNat_toNat]
    exact ⟨append_nil _, x.toNat_lt⟩
  · rintro ⟨rfl, hi⟩
    exact ⟨_, [], UInt32.ofNat i, (append_nil _).symm, rfl, rfl,
      (UInt32.toNat_ofNat_of_lt' hi).symm⟩

/-- The bytes that a length stands for, and what is decoded from them. -/
theorem then_body {limit : Nat} {decode : List UInt8 → Except ε α}
    {w : List UInt8} {a : α} :
    Then (fun w n => n ≤ limit ∧ w = toBeBytes32 (UInt32.ofNat n))
      (fun n => Then (fun w body => w.length = n ∧ body = w)
        fun body w a => w = [] ∧ decode body = .ok a) w a ↔
      Sized (fun body a => body.length ≤ limit ∧ decode body = .ok a) w a := by
  constructor
  · rintro ⟨_, _, n, rfl, ⟨hn, rfl⟩, _, _, body, rfl, ⟨rfl, rfl⟩, rfl, hdecode⟩
    refine ⟨body, ?_, hn, hdecode⟩
    rw [writeBytes, append_nil]
  · rintro ⟨body, rfl, hn, hdecode⟩
    exact ⟨_, body, body.length, rfl, ⟨hn, rfl⟩, body, [], body, (append_nil _).symm,
      ⟨rfl, rfl⟩, rfl, hdecode⟩

theorem recognizes_sized (limit : Nat) (hlimit : limit < 2 ^ 32) (valid : Nat → Bool)
    (hvalid : ∀ n, valid n = true → n ≤ limit) (name : String)
    (decode : List UInt8 → Except WireFailure α) :
    Recognizes (readSized valid name decode)
      (Sized fun body a => valid body.length = true ∧ decode body = .ok a) := by
  refine ((recognizes_u32 _).bind fun len => (recognizes_check _).bind fun _ =>
    (recognizes_take len.toNat _).bind fun body => recognizes_check _).congr fun w a => ?_
  constructor
  · rintro ⟨_, _, len, rfl, rfl, _, _, _, rfl, ⟨rfl, hguard⟩, _, _, body, rfl, ⟨hlength, rfl⟩, rfl,
      hdecode⟩
    refine ⟨body, ?_, ?_, mapError_eq_ok.mp hdecode⟩
    · rw [writeBytes, hlength, UInt32.ofNat_toNat]
      simp
    · rw [hlength]
      exact guardWith_eq_ok.mp hguard
  · rintro ⟨body, rfl, hbody, hdecode⟩
    have hlength := toNat_ofNat_length (Nat.lt_of_le_of_lt (hvalid _ hbody) hlimit)
    refine ⟨_, body, UInt32.ofNat body.length, rfl, rfl, [], body, (), rfl, ⟨rfl, ?_⟩, body, [], body,
      (append_nil _).symm, ⟨hlength.symm, rfl⟩, rfl, mapError_eq_ok.mpr hdecode⟩
    rw [hlength]
    exact guardWith_eq_ok.mpr hbody

end

/-! ### The messages of synchronisation -/

theorem accepts_getHeaders :
    Accepts parseGetHeaders fun bytes h => bytes = encodeGetHeaders h := by
  have hrest := (recognizes_tag MSG_GET_HEADERS (sizeErr "GET_HEADERS")).bind fun _ =>
    recognizes_u64 (sizeErr "u64 truncation")
  refine ((hrest.exactly (n := 9) (by simp) ?_).congr fun w h => ?_).value
  · rintro w h ⟨_, _, _, rfl, rfl, rfl⟩
    simp
  · rw [then_tag]
    exact ⟨fun ⟨v, hw, hv⟩ => hw.trans (congrArg _ hv), fun hw => ⟨_, hw, rfl⟩⟩

/-- **A batch of items with their lengths in front.**  Every item has room for its length,
so the bound of the count by the bytes that are left holds anyway. -/
theorem recognizes_batch {α : Type} {P : List UInt8 → α → Prop} (tag : UInt8)
    (tagName batch : String) {limit : Nat} (hlimit : limit < 2 ^ 32) {item : Reader NetError α}
    (hitem : Recognizes item (Sized P)) :
    Recognizes (readBatch tag tagName batch limit item) (Tagged tag (Counted limit (Sized P))) := by
  have hfour : ∀ w a, Sized P w a → 4 ≤ w.length := by
    rintro _ _ ⟨body, rfl, -⟩
    rw [length_writeBytes]
    omega
  refine ((recognizes_tag tag _).bind fun _ => (recognizes_count _ hlimit _ _).bind fun n =>
    (hitem.times n).ensure fun w as k h => ?_).congr fun w as => ?_
  · have hlength := le_repeated_length hfour h
    exact decide_eq_true (by omega)
  · rw [then_tag]
    exact exists_congr fun v => and_congr_right' then_count

section
variable (crates : Crates)

/-- The bytes of a header. -/
def IsHeader (body : List UInt8) (header : BlockHeader) : Prop :=
  deserializeHeader crates body = .ok header

theorem isHeader_iff {body : List UInt8} {header : BlockHeader} :
    IsHeader crates body header ↔ WellFormedHeader crates header ∧ serializeHeader header = .ok body := by
  constructor
  · intro h
    by_cases hbytes : body.length = HEADER_WIRE_LEN ∧ body.head? = some FORMAT_VERSION
    · obtain ⟨f, rfl⟩ := exists_fields hbytes.1 hbytes.2
      obtain rfl := Except.ok.inj (h.symm.trans (deserializeHeader_bytes crates f))
      exact ⟨f.wellFormed crates, f.serializeHeader_eq _⟩
    · obtain ⟨message, hrejected⟩ := deserializeHeader_rejects crates hbytes
      exact absurd (h.symm.trans hrejected) nofun
  · rintro ⟨hwell, hbody⟩
    obtain ⟨f, rfl⟩ := hwell.exists_fields
    obtain rfl := Except.ok.inj ((f.serializeHeader_eq _).symm.trans hbody)
    exact deserializeHeader_bytes crates f

theorem IsHeader.length_eq {crates : Crates} {body : List UInt8} {header : BlockHeader}
    (h : IsHeader crates body header) : body.length = HEADER_WIRE_LEN := by
  by_contra hlength
  obtain ⟨message, hrejected⟩ := deserializeHeader_rejects crates fun hb => hlength hb.1
  exact absurd (h.symm.trans hrejected) nofun

theorem accepts_headers : Accepts (parseHeaders crates)
    (Tagged MSG_HEADERS (Counted MAX_HEADERS_BATCH (Sized (IsHeader crates)))) := by
  have hitem : Recognizes (readHeaderItem crates) (Sized (IsHeader crates)) := by
    refine (recognizes_sized HEADER_WIRE_LEN (by decide) _ (fun n hn => ?_) _ _).congr
      fun w a => exists_congr fun body => and_congr_right' ⟨fun h => h.2, fun h => ⟨?_, h⟩⟩
    · exact (of_decide_eq_true hn).le
    · exact decide_eq_true h.length_eq
  exact (recognizes_batch MSG_HEADERS "HEADERS" "headers" (by decide) hitem).finish

/-- The bytes of a block. -/
def IsBlock (body : List UInt8) (block : Block) : Prop :=
  body.length ≤ MAX_BLOCK_SIZE ∧ deserializeBlock crates body = .ok block

theorem accepts_blocks : Accepts (parseBlocks crates)
    (Tagged MSG_BLOCKS (Counted MAX_BLOCKS_BATCH (Sized (IsBlock crates)))) := by
  have hitem : Recognizes (readBlockItem crates) (Sized (IsBlock crates)) := by
    refine (recognizes_sized MAX_BLOCK_SIZE (by decide) _ (fun n hn => ?_) _ _).congr
      fun w a => exists_congr fun body => and_congr_right' (and_congr_left' decide_eq_true_iff)
    exact of_decide_eq_true hn
  exact (recognizes_batch MSG_BLOCKS "BLOCKS" "blocks" (by decide) hitem).finish

end

/-- A batch of items of one length, with a check of the length of the whole. -/
theorem recognizesAll_counted {α : Type} {P : List UInt8 → α → Prop} {k : Nat} (limit : Nat)
    (hlimit : limit < 2 ^ 32) {item : Reader NetError α} (hitem : Recognizes item P)
    (hlength : ∀ w a, P w a → w.length = k) (e e' : NetError) (tooMany : Nat → NetError) :
    RecognizesAll (do
      let count ← Reader.count e limit tooMany
      ensure (fun n => count * k = n) e'
      times count item) (Counted limit P) := by
  refine ((recognizes_count _ hlimit e tooMany).bindAll fun n =>
    (hitem.times n).exactly (n := n * k) (fun i => ?_) fun w as h => ?_).congr fun w as => then_count
  · exact decide_eq_true_iff.trans eq_comm
  · exact repeated_length hlength h

theorem accepts_getBlocks : Accepts parseGetBlocks
    (Tagged MSG_GET_BLOCKS (Counted MAX_BLOCKS_BATCH fun w d => w = d.toList)) := by
  have hrest := recognizesAll_counted (k := 32) MAX_BLOCKS_BATCH (by decide)
    (recognizes_digest (sizeErr "GET_BLOCKS payload")) (fun w d h => h ▸ d.length_toList)
    (sizeErr "u32 truncation") (sizeErr "GET_BLOCKS payload") fun _ => sizeErr "blocks batch"
  refine ((((recognizes_tag MSG_GET_BLOCKS _).bindAll fun _ => hrest).congr fun w as =>
    then_tag).ensure ?_).value
  rintro _ _ ⟨w, rfl, hw⟩
  exact decide_eq_true (Nat.succ_le_succ hw.four_le)

/-! ### Inventories -/

theorem fromWire_iff {byte : UInt8} {kind : InvKind} :
    InvKind.fromWire byte = some kind ↔ byte = kind.toWire := by
  unfold InvKind.fromWire
  cases kind <;> simp only [InvKind.toWire] <;> grind

theorem recognizes_invItem (what : String) :
    Recognizes (readInvItem what) fun w item => w = encodeInvItem item := by
  refine ((recognizes_byte _).bind fun byte => (recognizes_check _).bind fun kind =>
    (recognizes_digest _).bind fun hash =>
      recognizes_pure (InventoryItem.mk kind hash)).congr fun w item => ?_
  constructor
  · rintro ⟨_, _, byte, rfl, rfl, _, _, kind, rfl, ⟨rfl, hkind⟩, _, _, hash, rfl, rfl, rfl, rfl⟩
    obtain rfl := fromWire_iff.mp (okOr_eq_ok.mp hkind)
    simp [encodeInvItem]
  · rintro rfl
    exact ⟨[item.kind.toWire], item.hash.toList, _, rfl, rfl, [], _, item.kind, rfl,
      ⟨rfl, okOr_eq_ok.mpr (fromWire_iff.mpr rfl)⟩, _, [], item.hash, (append_nil _).symm, rfl,
      rfl, rfl⟩

theorem length_encodeInvItem (item : InventoryItem) :
    (encodeInvItem item).length = INV_ITEM_WIRE_LEN := by
  simp [encodeInvItem, INV_ITEM_WIRE_LEN]

theorem accepts_invItems (tag : UInt8) (what : String) : Accepts (parseInvItems tag what)
    (Tagged tag (Counted MAX_INV_BATCH fun w item => w = encodeInvItem item)) := by
  have hrest := recognizesAll_counted MAX_INV_BATCH (by decide)
    (recognizes_invItem what) (fun w item h => h ▸ length_encodeInvItem item)
    (malformedMessage what "bad tag or missing count")
    (malformedMessage what "count exceeds payload length") fun count => malformedMessage what
      ("count " ++ toString count ++ " > " ++ toString MAX_INV_BATCH)
  refine ((((recognizes_tag tag _).bindAll fun _ => hrest).congr fun w as =>
    then_tag).ensure ?_).value
  rintro _ _ ⟨w, rfl, hw⟩
  exact decide_eq_true (Nat.succ_le_succ hw.four_le)

/-! ### Transactions and compact blocks -/

/-- The bytes of a transaction. -/
def IsTx (body : List UInt8) (tx : Transaction) : Prop :=
  body.length ≤ MAX_TX_SIZE ∧ deserializeTransactionSigned body = .ok tx

theorem accepts_tx : Accepts parseTx (Tagged MSG_TX (Sized IsTx)) := by
  have hmax : MAX_TX_SIZE < 2 ^ 32 := by decide
  have hrest := fun len : Nat => ((recognizes_take len (malformedMessage "tx message"
    "length exceeds payload length")).bind fun body =>
    recognizes_check ((deserializeTransactionSigned body).mapError fun _ =>
      malformedMessage "tx message" "tx decode")).exactly
      (p := fun n => len = n) (n := len)
      (e := malformedMessage "tx message" "length exceeds payload length")
      (fun k => decide_eq_true_iff.trans eq_comm) (by
        rintro w a ⟨u, _, _, rfl, ⟨hu, -⟩, rfl, -⟩
        rwa [append_nil])
  refine ((((recognizes_tag MSG_TX _).bindAll fun _ => (recognizes_count _ hmax _ _).bindAll
    hrest).congr fun w tx => ?_).ensure ?_).value
  · rw [then_tag]
    refine exists_congr fun v => and_congr_right' (then_body.trans ?_)
    exact exists_congr fun body => and_congr_right' (and_congr_right' mapError_eq_ok)
  · rintro _ _ ⟨_, rfl, body, rfl, -⟩
    simp only [length_cons, length_writeBytes]
    exact decide_eq_true (by omega)

theorem recognizes_txBody (what name : String) : Recognizes (readTxBody what name) (Sized IsTx) := by
  have hmax : MAX_TX_SIZE < 2 ^ 32 := by decide
  refine ((recognizes_count _ hmax _ _).bind fun len => (recognizes_take len _).bind fun body =>
    recognizes_check _).congr fun w tx => then_body.trans ?_
  exact exists_congr fun body => and_congr_right' (and_congr_right' mapError_eq_ok)

/-- The bytes of a transaction that is sent with its index. -/
def IsPrefilled (w : List UInt8) (entry : Nat × Transaction) : Prop :=
  entry.1 < 2 ^ 32 ∧ ∃ body, w = encodeIndex entry.1 ++ writeBytes body ∧ IsTx body entry.2

theorem recognizes_prefilled : Recognizes readPrefilled IsPrefilled := by
  refine ((recognizes_index _).bind fun index => (recognizes_txBody _ _).bind fun tx =>
    recognizes_pure (index, tx)).congr fun w entry => ?_
  constructor
  · rintro ⟨_, _, index, rfl, ⟨rfl, hindex⟩, _, _, tx, rfl, ⟨body, rfl, hbody⟩, rfl, rfl⟩
    exact ⟨hindex, body, by rw [append_nil], hbody⟩
  · rintro ⟨hindex, body, rfl, hbody⟩
    exact ⟨_, _, entry.1, rfl, ⟨rfl, hindex⟩, _, [], entry.2, (append_nil _).symm,
      ⟨body, rfl, hbody⟩, rfl, rfl⟩

/-- The bytes of a compact block after the tag. -/
def IsCompactBlock (crates : Crates) (w : List UInt8) (compact : CompactBlock) : Prop :=
  ∃ header ids prefilled : List UInt8,
    w = header ++ (toBeBytes compact.nonce ++ (ids ++ prefilled)) ∧
    IsHeader crates header compact.header ∧
    Counted MAX_COMPACT_TXS (fun w id => w = id.toList) ids compact.shortIds ∧
    Counted MAX_PREFILLED IsPrefilled prefilled compact.prefilledTxs

theorem recognizes_compactBlock (crates : Crates) :
    Recognizes (readCompactBlock crates) (Tagged MSG_COMPACT_BLOCK (IsCompactBlock crates)) := by
  have hids : ∀ (w : List UInt8) (id : ShortTxId), w = id.toList → w.length = SHORT_ID_LEN :=
    fun w id h => h ▸ id.length_toList
  refine Recognizes.ensure (((recognizes_tag MSG_COMPACT_BLOCK _).bind fun _ =>
    (recognizes_take HEADER_WIRE_LEN _).bind fun headerBytes => (recognizes_check _).bind fun header =>
    (recognizes_u64 _).bind fun nonce =>
    (recognizes_count MAX_COMPACT_TXS (by decide) _ _).bind fun shortCount =>
    (((recognizes_shortId _).times shortCount).bind fun shortIds =>
      (recognizes_count MAX_PREFILLED (by decide) _ _).bind fun prefillCount =>
      (recognizes_prefilled.times prefillCount).bind fun prefilledTxs =>
      recognizes_pure (CompactBlock.mk header nonce shortIds prefilledTxs)).ensure ?_).congr
    fun w compact => ?_) ?_
  · rintro w compact k ⟨u, v, ids, rfl, hu, -⟩
    have hlength := repeated_length hids hu
    exact decide_eq_true (by simp only [length_append]; omega)
  · rw [then_tag]
    refine exists_congr fun w => and_congr_right' ⟨?_, ?_⟩
    · rintro ⟨_, _, bytes, rfl, ⟨-, rfl⟩, _, _, header, rfl, ⟨rfl, hheader⟩, _, _, nonce, rfl, rfl,
        _, _, n, rfl, hn, _, _, shortIds, rfl, hshort, _, _, m, rfl, hm, _, _, prefilled, rfl,
        hprefilled, rfl, rfl⟩
      refine ⟨bytes, _, _, ?_, mapError_eq_ok.mp hheader,
        then_count.mp ⟨_, _, n, rfl, hn, hshort⟩, then_count.mp ⟨_, _, m, rfl, hm, hprefilled⟩⟩
      simp
    · rintro ⟨bytes, _, _, rfl, hheader, hids, hprefilled⟩
      obtain ⟨_, _, n, rfl, hn, hshort⟩ := then_count.mpr hids
      obtain ⟨_, _, m, rfl, hm, hprefilled⟩ := then_count.mpr hprefilled
      exact ⟨bytes, _, bytes, rfl, ⟨hheader.length_eq, rfl⟩, [], _, compact.header, rfl,
        ⟨rfl, mapError_eq_ok.mpr hheader⟩, _, _, compact.nonce, rfl, rfl, _, _, n,
        append_assoc _ _ _, hn, _, _, compact.shortIds, rfl, hshort, _, _, m, rfl, hm, _, [],
        compact.prefilledTxs, (append_nil _).symm, hprefilled, rfl, rfl⟩
  · rintro _ compact k ⟨_, rfl, header, ids, prefilled, rfl, hheader, hcount, -⟩
    have hlength := hheader.length_eq
    have hfour := hcount.four_le
    simp only [length_cons, length_append, hlength, length_toBeBytes]
    exact decide_eq_true (by omega)

theorem accepts_compactBlock (crates : Crates) : Accepts (CompactBlock.parse crates)
    (Tagged MSG_COMPACT_BLOCK (IsCompactBlock crates)) :=
  (recognizes_compactBlock crates).finish

/-- The bytes of a request for transactions after the tag. -/
def IsGetBlockTxn (w : List UInt8) (request : GetBlockTxn) : Prop :=
  ∃ v, w = request.blockHash.toList ++ v ∧
    Counted MAX_COMPACT_TXS (fun w i => w = encodeIndex i ∧ i < 2 ^ 32) v request.missingIndices

theorem accepts_getBlockTxn :
    Accepts GetBlockTxn.parse (Tagged MSG_GET_BLOCK_TXN IsGetBlockTxn) := by
  have hindex : ∀ (w : List UInt8) (i : Nat), w = encodeIndex i ∧ i < 2 ^ 32 → w.length = 4 :=
    fun w i h => h.1 ▸ length_toBeBytes32 _
  refine RecognizesAll.value (RecognizesAll.ensure (((recognizes_tag MSG_GET_BLOCK_TXN _).bindAll
    fun _ => (recognizes_digest _).bindAll fun hash =>
      (recognizes_count MAX_COMPACT_TXS (by decide) _ _).bindAll fun n =>
      (((recognizes_index _).times n).bind fun indices =>
        recognizes_pure (GetBlockTxn.mk hash indices)).exactly (n := n * 4)
        (fun k => decide_eq_true_iff.trans eq_comm) ?_).congr fun w request => ?_) ?_)
  · rintro w request ⟨_, _, indices, rfl, hindices, rfl, -⟩
    rw [append_nil]
    exact repeated_length hindex hindices
  · rw [then_tag]
    refine exists_congr fun w => and_congr_right' ⟨?_, ?_⟩
    · rintro ⟨_, _, hash, rfl, rfl, _, _, n, rfl, hn, _, _, indices, rfl, hindices, rfl, rfl⟩
      exact ⟨_, rfl, then_count.mp ⟨_, _, n, by rw [append_nil], hn, hindices⟩⟩
    · rintro ⟨_, rfl, hindices⟩
      obtain ⟨_, _, n, rfl, hn, hindices⟩ := then_count.mpr hindices
      exact ⟨_, _, request.blockHash, rfl, rfl, _, _, n, rfl, hn, _, [], request.missingIndices,
        (append_nil _).symm, hindices, rfl, rfl⟩
  · rintro _ _ ⟨_, rfl, v, rfl, hv⟩
    have hfour := hv.four_le
    simp only [length_cons, length_append, Vector.length_toList]
    exact decide_eq_true (by omega)

/-- The bytes of the transactions of a block after the tag. -/
def IsBlockTxn (w : List UInt8) (txn : BlockTxn) : Prop :=
  ∃ v, w = txn.blockHash.toList ++ v ∧ Counted MAX_COMPACT_TXS (Sized IsTx) v txn.txs

theorem accepts_blockTxn : Accepts BlockTxn.parse (Tagged MSG_BLOCK_TXN IsBlockTxn) := by
  have hread : Recognizes readBlockTxn (Tagged MSG_BLOCK_TXN IsBlockTxn) := by
    refine Recognizes.ensure (((recognizes_tag MSG_BLOCK_TXN _).bind fun _ =>
      (recognizes_digest _).bind fun hash =>
      (recognizes_count MAX_COMPACT_TXS (by decide) _ _).bind fun n =>
      ((recognizes_txBody _ _).times n).bind fun txs =>
      recognizes_pure (BlockTxn.mk hash txs)).congr fun w txn => ?_) ?_
    · rw [then_tag]
      refine exists_congr fun w => and_congr_right' ⟨?_, ?_⟩
      · rintro ⟨_, _, hash, rfl, rfl, _, _, n, rfl, hn, _, _, txs, rfl, htxs, rfl, rfl⟩
        exact ⟨_, rfl, then_count.mp ⟨_, _, n, by rw [append_nil], hn, htxs⟩⟩
      · rintro ⟨_, rfl, htxs⟩
        obtain ⟨_, _, n, rfl, hn, htxs⟩ := then_count.mpr htxs
        exact ⟨_, _, txn.blockHash, rfl, rfl, _, _, n, rfl, hn, _, [], txn.txs,
          (append_nil _).symm, htxs, rfl, rfl⟩
    · rintro _ _ k ⟨_, rfl, v, rfl, hv⟩
      have hfour := hv.four_le
      simp only [length_cons, length_append, Vector.length_toList]
      exact decide_eq_true (by omega)
  exact hread.finish

end Strangecoin
