import Strangecoin.Dispatch
import Strangecoin.SignedPayloads

/-! # Known messages and violations

When a payload that an encoder of the crate produced is handled without a protocol
violation.  Headers and addresses have tags that the gossip layer does not know, and a
message of blocks must hold exactly one.
-/
namespace Strangecoin
open List

open Reader

/-! ### Panics -/

/-- The encoder panics. -/
def Panics {α : Type} (x : Except NetFailure α) : Prop := ∃ f, x = .error (.panic f)

section
variable {α β : Type}

theorem not_panics_ok (a : α) : ¬ Panics (.ok a : Except NetFailure α) := nofun

theorem not_panics_ensureFits {c : Prop} [Decidable c] {e : NetError} :
    ¬ Panics (ensureFits c e) := by
  unfold ensureFits guardWith
  split <;> exact nofun

variable {f : α → Except NetFailure β}

theorem not_panics_bind {x : Except NetFailure α} (hx : ¬ Panics x) (hf : ∀ a, ¬ Panics (f a)) :
    ¬ Panics (x >>= f) := by
  cases x with
  | ok a => exact hf a
  | error e =>
    rintro ⟨g, hg⟩
    exact hx ⟨g, congrArg Except.error (Except.error.inj hg)⟩

theorem not_panics_mapM (hf : ∀ a, ¬ Panics (f a)) (as : List α) : ¬ Panics (as.mapM f) := by
  induction as with
  | nil => exact nofun
  | cons a as ih =>
    rw [mapM_cons]
    exact not_panics_bind (hf a) fun _ => not_panics_bind ih fun _ => not_panics_ok _

end

theorem not_panics_invItems (tag : UInt8) (items : List InventoryItem) :
    ¬ Panics (encodeInvItems tag items) :=
  not_panics_bind not_panics_ensureFits fun _ => not_panics_ok _

theorem not_panics_txBody (what : String) (tx : Transaction) : ¬ Panics (encodeTxBody what tx) :=
  not_panics_bind not_panics_ensureFits fun _ => not_panics_ok _

theorem not_panics_tx (tx : Transaction) : ¬ Panics (encodeTx tx) :=
  not_panics_bind (not_panics_txBody _ tx) fun _ => not_panics_ok _

theorem not_panics_getBlockTxn (request : GetBlockTxn) : ¬ Panics request.encode :=
  not_panics_bind not_panics_ensureFits fun _ => not_panics_ok _

theorem not_panics_blockTxn (txn : BlockTxn) : ¬ Panics txn.encode :=
  not_panics_bind not_panics_ensureFits fun _ =>
    not_panics_bind (not_panics_mapM (not_panics_txBody _) _) fun _ =>
      not_panics_bind not_panics_ensureFits fun _ => not_panics_ok _

theorem not_panics_erlayReconcile (message : ErlayReconcile) : ¬ Panics message.encode :=
  not_panics_bind not_panics_ensureFits fun _ => not_panics_ok _

/-! ### Compact blocks that are filled -/

namespace CompactBlock

/-- The slots with the prefilled transactions. -/
def prefilledSlots (compact : CompactBlock) : List (Option Transaction) :=
  compact.prefilledTxs.foldl (fun slots entry => slots.set entry.1 (some entry.2))
    (List.replicate compact.shortIds.length none)

/-- Every prefilled transaction has a position. -/
def InRange (compact : CompactBlock) : Prop :=
  ∀ entry ∈ compact.prefilledTxs, entry.1 < compact.shortIds.length

theorem foldlM_guard_ok {σ α : Type} {p : α → Prop} [DecidablePred p] {e : α → NetError}
    {f : σ → α → σ} {s s' : σ} {as : List α} :
    as.foldlM (fun s a => do guardWith (p a) (e a); return f s a) s = .ok s' ↔
      (∀ a ∈ as, p a) ∧ s' = as.foldl f s := by
  induction as generalizing s with
  | nil => exact ⟨fun h => ⟨by simp, (Except.ok.inj h).symm⟩, fun h => congrArg Except.ok h.2.symm⟩
  | cons a as ih =>
    rw [foldlM_cons, bind_eq_ok, forall_mem_cons, foldl_cons]
    constructor
    · rintro ⟨t, ht, h⟩
      obtain ⟨_, hp, ⟨⟩⟩ := bind_eq_ok.mp ht
      obtain ⟨hall, rfl⟩ := ih.mp h
      exact ⟨⟨guardWith_eq_ok.mp hp, hall⟩, rfl⟩
    · rintro ⟨⟨hp, hall⟩, rfl⟩
      exact ⟨f s a, bind_eq_ok.mpr ⟨(), guardWith_eq_ok.mpr hp, rfl⟩, ih.mpr ⟨hall, rfl⟩⟩

variable {slots : List (Option Transaction)}

theorem placePrefilled_ok {compact : CompactBlock} :
    compact.placePrefilled = .ok slots ↔ compact.InRange ∧ slots = compact.prefilledSlots :=
  foldlM_guard_ok

theorem missingOf_eq_nil_iff : missingOf slots = [] ↔ none ∉ slots := by
  rw [missingOf, filter_eq_nil_iff]
  constructor
  · intro h hnone
    obtain ⟨i, hi, hslot⟩ := mem_iff_getElem.mp hnone
    refine h i (mem_range.mpr hi) ?_
    simp [getD_eq_getElem?_getD, getElem?_eq_getElem hi, hslot]
  · intro h i hi hnone
    have hlt := mem_range.mp hi
    simp only [getD_eq_getElem?_getD, getElem?_eq_getElem hlt, Option.getD_some,
      Option.isNone_iff_eq_none] at hnone
    exact h (hnone ▸ getElem_mem hlt)

theorem takeSlots_ok {txs : List Transaction} :
    takeSlots slots = .ok txs ↔ none ∉ slots ∧ txs = slots.reduceOption := by
  rw [okOr_slot]
  constructor
  · rintro rfl
    exact ⟨by simp, by simp [List.reduceOption]⟩
  · rintro ⟨hnone, rfl⟩
    induction slots with
    | nil => rfl
    | cons slot slots ih =>
      rw [mem_cons, not_or] at hnone
      cases slot with
      | none => exact absurd rfl hnone.1
      | some tx =>
        rw [reduceOption_cons_of_some, map_cons]
        exact congrArg _ (ih hnone.2)

section
variable (crates : Crates) (sipHash : List UInt8 → UInt64)

/-- The slots have the root of the header. -/
def RootMatches (compact : CompactBlock) (slots : List (Option Transaction)) : Prop :=
  crates.merkleRoot (slots.reduceOption.map crates.txid) = compact.header.txRoot

/-- A compact block that is not refused: its prefilled transactions have positions, and
either some position has no match in the mempool or the root is right. -/
def FillsUp (compact : CompactBlock) (view : ChainView) : Prop :=
  compact.InRange ∧
    (none ∈ lookUp crates sipHash compact view compact.prefilledSlots ∨
      compact.RootMatches crates (lookUp crates sipHash compact view compact.prefilledSlots))

/-- The slots after the answer `txn` to a request for `idxs`. -/
def answeredSlots (compact : CompactBlock) (idxs : List Nat) (txn : BlockTxn) :
    List (Option Transaction) :=
  (idxs.zip txn.txs).foldl (fun slots entry => slots.set entry.1 (some entry.2))
    compact.prefilledSlots

/-- A transaction of the answer fits the position that was asked for. -/
def Fits (compact : CompactBlock) (entry : Nat × Transaction) : Prop :=
  entry.1 < compact.shortIds.length ∧ (compact.prefilledSlots.getD entry.1 none).isNone = true ∧
    compact.shortIds[entry.1]? = some (shortId sipHash (crates.txid entry.2) compact.nonce)

/-- An answer that completes a compact block: it is for this block and fits the request, every
other position has a match in the mempool, and the root is right. -/
def Completes (compact : CompactBlock) (idxs : List Nat) (txn : BlockTxn) (view : ChainView) : Prop :=
  txn.txs.length = idxs.length ∧ crates.headerHash compact.header = .ok txn.blockHash ∧
    compact.InRange ∧ (∀ entry ∈ idxs.zip txn.txs, compact.Fits crates sipHash entry) ∧
    none ∉ lookUp crates sipHash compact view (compact.answeredSlots idxs txn) ∧
    compact.RootMatches crates (lookUp crates sipHash compact view (compact.answeredSlots idxs txn))

end

section
variable {crates : Crates} {sipHash : List UInt8 → UInt64} {compact : CompactBlock}
  {view : ChainView}

variable {txs : List Transaction}

theorem assembleAndVerify_ok {header : BlockHeader} {block : Block} :
    crates.assembleAndVerify header txs = .ok block ↔
      crates.merkleRoot (txs.map crates.txid) = header.txRoot ∧
        block = Block.fromHeader header txs := by
  unfold Crates.assembleAndVerify
  dsimp only
  split
  · rename_i h
    exact ⟨nofun, fun hb => absurd hb.1 h⟩
  · rename_i h
    exact ⟨fun hb => ⟨not_not.mp h, (Except.ok.inj hb).symm⟩, fun hb => congrArg Except.ok hb.2.symm⟩

theorem placeMissing_ok {idxs : List Nat} {prefilled slots slots' : List (Option Transaction)} :
    (idxs.zip txs).foldlM (placeMissing crates sipHash compact prefilled) slots = .ok slots' ↔
      (∀ entry ∈ idxs.zip txs, entry.1 < compact.shortIds.length ∧
        (prefilled.getD entry.1 none).isNone = true ∧
        compact.shortIds[entry.1]? = some (shortId sipHash (crates.txid entry.2) compact.nonce)) ∧
      slots' = (idxs.zip txs).foldl (fun slots entry => slots.set entry.1 (some entry.2)) slots := by
  induction idxs.zip txs generalizing slots with
  | nil => exact ⟨fun h => ⟨by simp, (Except.ok.inj h).symm⟩, fun h => congrArg Except.ok h.2.symm⟩
  | cons entry entries ih =>
    rw [foldlM_cons, bind_eq_ok, forall_mem_cons, foldl_cons]
    constructor
    · rintro ⟨t, ht, h⟩
      obtain ⟨_, hrange, ht⟩ := bind_eq_ok.mp ht
      obtain ⟨_, hopen, ht⟩ := bind_eq_ok.mp ht
      obtain ⟨_, hshort, ⟨⟩⟩ := bind_eq_ok.mp ht
      obtain ⟨hall, rfl⟩ := ih.mp h
      exact ⟨⟨⟨guardWith_eq_ok.mp hrange, guardWith_eq_ok.mp hopen, guardWith_eq_ok.mp hshort⟩,
        hall⟩, rfl⟩
    · rintro ⟨⟨⟨hrange, hopen, hshort⟩, hall⟩, rfl⟩
      exact ⟨_, bind_eq_ok.mpr ⟨(), guardWith_eq_ok.mpr hrange, bind_eq_ok.mpr
        ⟨(), guardWith_eq_ok.mpr hopen, bind_eq_ok.mpr
        ⟨(), guardWith_eq_ok.mpr hshort, rfl⟩⟩⟩, ih.mpr ⟨hall, rfl⟩⟩

theorem applyBlockTxn_isOk {idxs : List Nat} {txn : BlockTxn} :
    (∃ block, compact.applyBlockTxn crates sipHash idxs txn view = .ok block) ↔
      compact.Completes crates sipHash idxs txn view := by
  constructor
  · rintro ⟨block, h⟩
    obtain ⟨hcount, h⟩ := ensureFits_bind.mp h
    obtain ⟨hash, hhash, h⟩ := bind_eq_ok.mp h
    obtain ⟨hsame, h⟩ := ensureFits_bind.mp h
    obtain ⟨prefilled, hprefilled, h⟩ := bind_eq_ok.mp h
    obtain ⟨hrange, rfl⟩ := placePrefilled_ok.mp (liftNet_eq_ok.mp hprefilled)
    obtain ⟨slots, hslots, h⟩ := bind_eq_ok.mp h
    obtain ⟨hfits, rfl⟩ := placeMissing_ok.mp (liftNet_eq_ok.mp hslots)
    obtain ⟨txs, htxs, h⟩ := bind_eq_ok.mp h
    obtain ⟨hnone, rfl⟩ := takeSlots_ok.mp (liftNet_eq_ok.mp htxs)
    exact ⟨hcount, hsame ▸ liftPanic_eq_ok.mp hhash, hrange, hfits, hnone,
      (assembleAndVerify_ok.mp (liftNet_eq_ok.mp h)).1⟩
  · rintro ⟨hcount, hhash, hrange, hfits, hnone, hroot⟩
    exact ⟨_, ensureFits_bind.mpr ⟨hcount, bind_eq_ok.mpr ⟨_, liftPanic_eq_ok.mpr hhash,
      ensureFits_bind.mpr ⟨rfl, bind_eq_ok.mpr ⟨_, liftNet_eq_ok.mpr
      (placePrefilled_ok.mpr ⟨hrange, rfl⟩), bind_eq_ok.mpr ⟨_, liftNet_eq_ok.mpr
      (placeMissing_ok.mpr ⟨hfits, rfl⟩), bind_eq_ok.mpr ⟨_, liftNet_eq_ok.mpr
      (takeSlots_ok.mpr ⟨hnone, rfl⟩), liftNet_eq_ok.mpr
      (assembleAndVerify_ok.mpr ⟨hroot, rfl⟩)⟩⟩⟩⟩⟩⟩⟩

theorem fillUp_isOk {hash : Digest} (hhash : crates.headerHash compact.header = .ok hash) :
    (∃ outcome, compact.fillUp crates sipHash view = .ok outcome) ↔
      compact.FillsUp crates sipHash view := by
  constructor
  · rintro ⟨outcome, h⟩
    obtain ⟨prefilled, hprefilled, h⟩ := bind_eq_ok.mp h
    obtain ⟨hrange, rfl⟩ := placePrefilled_ok.mp (liftNet_eq_ok.mp hprefilled)
    refine ⟨hrange, ?_⟩
    dsimp only at h
    split at h
    · rename_i hmissing
      exact .inl (by_contra fun hnone => hmissing (missingOf_eq_nil_iff.mpr hnone))
    · obtain ⟨block, hblock, -⟩ := bind_eq_ok.mp h
      exact .inr (assembleAndVerify_ok.mp (liftNet_eq_ok.mp hblock)).1
  · rintro ⟨hrange, hslots⟩
    have hprefilled := liftNet_eq_ok.mpr (placePrefilled_ok.mpr ⟨hrange, rfl⟩)
    let slots := lookUp crates sipHash compact view compact.prefilledSlots
    by_cases hmissing : missingOf slots ≠ []
    · refine ⟨.missing ⟨hash, missingOf slots⟩, bind_eq_ok.mpr ⟨_, hprefilled,
        (if_pos hmissing).trans ?_⟩⟩
      exact bind_eq_ok.mpr ⟨hash, liftPanic_eq_ok.mpr hhash, rfl⟩
    · have hroot := hslots.resolve_left (missingOf_eq_nil_iff.mp (not_not.mp hmissing))
      refine ⟨.complete (Block.fromHeader compact.header slots.reduceOption), bind_eq_ok.mpr ⟨_, hprefilled, (if_neg hmissing).trans ?_⟩⟩
      exact bind_eq_ok.mpr
        ⟨_, liftNet_eq_ok.mpr (assembleAndVerify_ok.mpr ⟨hroot, rfl⟩), rfl⟩

end

end CompactBlock

/-! ### What is decoded from an encoding -/

/-- The transaction is decoded from its encoding, to itself or to another one. -/
def TxDecodes (tx : Transaction) : Prop :=
  ∃ t, deserializeTransactionSigned (serializeTransactionSigned tx) = .ok t

/-- The encoding of a header is one of `HeaderFields`. -/
theorem serializeHeader_fields {header : BlockHeader} {bytes : List UInt8}
    (h : serializeHeader header = .ok bytes) : ∃ f : HeaderFields, bytes = f.bytes := by
  obtain ⟨previous, hprevious, h⟩ := bind_eq_ok.mp h
  obtain ⟨target, htarget, ⟨⟩⟩ := bind_eq_ok.mp h
  refine exists_fields ?_ rfl
  have hp := (bytes32OfHex_eq_ok.mp hprevious).2
  have ht := (bytes32OfHex_eq_ok.mp htarget).2
  simp [hp, ht, HEADER_WIRE_LEN]

variable {payload : List UInt8}

theorem txDecodes_iff_parse {tx : Transaction} (h : encodeTx tx = .ok payload) :
    (∃ received, parseTx payload = .ok received) ↔ TxDecodes tx := by
  obtain ⟨body, hbody, ⟨⟩⟩ := bind_eq_ok.mp h
  obtain ⟨hsize, rfl⟩ := encodeTxBody_ok.mp hbody
  refine exists_congr fun received => (accepts_tx.iff _ _).trans ⟨?_, ?_⟩
  · rintro ⟨_, hw, body, rfl, -, hdecode⟩
    rwa [← writeBytes_injective (List.cons.inj hw).2] at hdecode
  · exact fun hdecode => ⟨_, rfl, _, rfl, hsize, hdecode⟩

theorem exists_forall₂ {α β : Type} {R : α → β → Prop} {as : List α} (h : ∀ a ∈ as, ∃ b, R a b) :
    ∃ bs, List.Forall₂ R as bs := by
  induction as with
  | nil => exact ⟨[], .nil⟩
  | cons a as ih =>
    obtain ⟨⟨b, hb⟩, has⟩ := forall_mem_cons.mp h
    obtain ⟨bs, hbs⟩ := ih has
    exact ⟨b :: bs, .cons hb hbs⟩

section
variable {crates : Crates}

variable (crates) in
/-- The bytes of a block are read as a block if its transactions can be decoded. -/
theorem isBlock_encoded {block : Block} {body : List UInt8} (h : encodeBlockBody block = .ok body) :
    (∃ received, IsBlock crates body received) ↔ ∀ tx ∈ block.transactions, TxDecodes tx := by
  obtain ⟨hbody, hsize⟩ := encodeBlockBody_ok.mp h
  obtain ⟨header, hheader, ⟨⟩⟩ := bind_eq_ok.mp hbody
  obtain ⟨f, rfl⟩ := serializeHeader_fields hheader
  rw [serializeBlockTxs_eq] at hsize ⊢
  let bodies := block.transactions.map serializeTransactionSigned
  have hmax : MAX_BLOCK_SIZE < 2 ^ 32 := by decide
  have hlength := le_length_bodies bodies
  have htotal : (bodies.flatMap writeBytes).length ≤ MAX_BLOCK_SIZE := by
    rw [length_append] at hsize
    exact Nat.le_trans (Nat.le_add_left _ _) hsize
  have hcount : bodies.length < 2 ^ 32 := by omega
  have hshort : ∀ body ∈ bodies, body.length < 2 ^ 32 := by
    intro body hbody
    have hin := (infix_bodies hbody infix_rfl).length_le
    omega
  have hbodies : bodies.length = block.transactions.length := length_map _
  constructor
  · rintro ⟨received, -, hreceived⟩ tx htx
    rcases deserializeBlock_cases crates _ with ⟨message, hrejected⟩ | ⟨f', bodies', txs, hbytes,
      hcount', hshort', hdecode, -⟩
    · exact absurd (hreceived.symm.trans hrejected) nofun
    · rw [append_assoc, append_assoc] at hbytes
      have hrest := (append_inj hbytes (f.length_bytes.trans f'.length_bytes.symm)).2
      have hsame : bodies = bodies' := by
        refine (delimits_writeBytes.counted ⟨hcount, hshort⟩ ⟨hcount', hshort'⟩ (x := [])
          (y := []) ?_).1
        rw [append_nil, append_nil, hbodies]
        exact hrest
      subst hsame
      rw [forall₂_map_left_iff] at hdecode
      obtain ⟨t, -, ht⟩ := exists_of_forall₂ hdecode.flip htx
      exact ⟨t, ht⟩
  · intro hall
    obtain ⟨txs, htxs⟩ := exists_forall₂ hall
    have htxs : List.Forall₂ (fun body tx => deserializeTransactionSigned body = .ok tx) bodies txs :=
      forall₂_map_left_iff.mpr htxs
    have hdecode := deserializeBlock_bodies crates f hcount hshort htxs
    rw [hbodies] at hdecode
    exact ⟨_, hsize, hdecode⟩

variable (crates) in
/-- A message of blocks is taken by the gossip layer if it holds one that can be decoded. -/
theorem parseBlock_encoded {blocks : List Block} {payload : List UInt8}
    (h : encodeBlocks blocks = .ok payload) :
    (∃ received, GossipMessage.parseBlock crates payload = .ok received) ↔
      blocks.length = 1 ∧ ∀ block ∈ blocks, ∀ tx ∈ block.transactions, TxDecodes tx := by
  obtain ⟨hlimit, h⟩ := ensureFits_bind.mp h
  obtain ⟨bodies, hbodies, h⟩ := bind_eq_ok.mp h
  obtain ⟨-, rfl⟩ := ensureFits_return.mp h
  have hencoded := mapM_ok.mp hbodies
  have hlength := hencoded.length_eq
  have hmax : MAX_BLOCKS_BATCH < 2 ^ 32 := by decide
  have hblock : MAX_BLOCK_SIZE < 2 ^ 32 := by decide
  have hshort : ∀ body ∈ bodies, body.length < 2 ^ 32 := by
    intro body hbody
    obtain ⟨block, -, hblock⟩ := exists_of_forall₂ hencoded hbody
    have hsize := (encodeBlockBody_ok.mp hblock).2
    omega
  constructor
  · rintro ⟨received, hreceived⟩
    obtain ⟨blocks', hparse, hone⟩ := bind_eq_ok.mp hreceived
    obtain ⟨_, hw, hcounted⟩ := ((accepts_blocks crates).iff _ _).mp hparse
    obtain ⟨hlimit', bodies', rfl, hdecoded⟩ := counted_sized.mp hcounted
    have hlength' := hdecoded.length_eq
    have hshort' : ∀ body ∈ bodies', body.length < 2 ^ 32 := by
      intro body hbody
      obtain ⟨block, -, hsize, -⟩ := exists_of_forall₂ hdecoded.flip hbody
      omega
    have hsame : bodies = bodies' := by
      refine (delimits_writeBytes.counted ⟨by omega, hshort⟩ ⟨by omega, hshort'⟩ (x := [])
        (y := []) ?_).1
      rw [append_nil, append_nil, ← hlength, hlength']
      exact (List.cons.inj hw).2
    subst hsame
    match blocks', hone, hdecoded with
    | [b], _, .cons hb .nil =>
      obtain ⟨block, rfl⟩ := length_eq_one_iff.mp hlength
      obtain ⟨hencode, -⟩ := forall₂_cons.mp hencoded
      refine ⟨rfl, fun block' hblock' => ?_⟩
      rw [mem_singleton.mp hblock']
      exact (isBlock_encoded crates hencode).mp ⟨b, hb⟩
  · rintro ⟨hone, hall⟩
    obtain ⟨block, rfl⟩ := length_eq_one_iff.mp hone
    match bodies, hencoded with
    | [body], .cons hencode .nil =>
      obtain ⟨received, hreceived⟩ :=
        (isBlock_encoded crates hencode).mpr (hall block (by simp))
      have hparse := ((accepts_blocks crates).iff _ [received]).mpr
        ⟨_, rfl, counted_sized.mpr ⟨hlimit, [body], rfl, .cons hreceived .nil⟩⟩
      exact ⟨received, bind_eq_ok.mpr ⟨[received], hparse, rfl⟩⟩

end

theorem getBlockTxn_parses {request : GetBlockTxn} (h : request.encode = .ok payload) :
    ∃ received, GetBlockTxn.parse payload = .ok received := by
  obtain ⟨hcount, rfl⟩ := ensureFits_return.mp h
  -- On the wire an index is what is left of it in 32 bits.
  let received : GetBlockTxn := ⟨request.blockHash, request.missingIndices.map (· % 2 ^ 32)⟩
  have hindex : ∀ i, encodeIndex (i % 2 ^ 32) = encodeIndex i := by
    intro i
    unfold encodeIndex
    congr 1
    apply UInt32.toNat_inj.mp
    simp
  refine ⟨received, (accepts_getBlockTxn.iff _ _).mpr
    ⟨_, rfl, _, rfl, counted_encoded.mpr ⟨?_, ?_, ?_⟩⟩⟩
  · simpa [received] using hcount
  · simp only [received, putCount, length_map, flatMap_map, hindex]
  · intro i hi
    obtain ⟨j, -, rfl⟩ := mem_map.mp hi
    exact Nat.mod_lt _ (by decide)

/-! ### Sessions that go on -/

namespace Session
variable {crates : Crates} {sipHash : List UInt8 → UInt64} {self : Session} {view : ChainView}
  {peer : NodeId} {now : Instant}

/-- The frame was handled, and no violation recorded. -/
def Serves (before : Session) (r : Except Failure Session) : Prop :=
  ∃ after, r = .ok after ∧ after.violations = before.violations

theorem serves_ok {after : Session} : self.Serves (.ok after) ↔ after.violations = self.violations := by
  constructor
  · rintro ⟨_, ⟨⟩, h⟩
    exact h
  · exact fun h => ⟨after, rfl, h⟩

theorem serves_error (f : Failure) : ¬ self.Serves (.error f) := nofun

theorem serves_recordProtocolViolation : ¬ self.Serves (.ok self.recordProtocolViolation) := by
  rw [serves_ok]
  exact fun h => absurd h (Nat.succ_ne_self _)

variable (self) in
theorem send_of_not_panics {x : Except NetFailure (List UInt8)} (h : ¬ Panics x) :
    ∃ sent, self.send x = .ok { self with sent := sent } := by
  match x, h with
  | .ok out, _ => exact ⟨_, rfl⟩
  | .error (.error _), _ => exact ⟨_, rfl⟩
  | .error (.panic f), h => exact absurd ⟨f, rfl⟩ h

theorem serves_send {x : Except NetFailure (List UInt8)} : self.Serves (self.send x) ↔ ¬ Panics x := by
  constructor
  · rintro ⟨_, h, -⟩ ⟨f, rfl⟩
    exact absurd h nofun
  · intro h
    obtain ⟨sent, hsend⟩ := send_of_not_panics self h
    exact ⟨_, hsend, rfl⟩

variable (self) in
theorem sendAll_of_not_panics {xs : List (Except NetFailure (List UInt8))}
    (h : ∀ x ∈ xs, ¬ Panics x) : ∃ sent, self.sendAll xs = .ok { self with sent := sent } := by
  induction xs generalizing self with
  | nil => exact ⟨self.sent, rfl⟩
  | cons x xs ih =>
    obtain ⟨hx, hxs⟩ := forall_mem_cons.mp h
    obtain ⟨sent, hsend⟩ := send_of_not_panics self hx
    obtain ⟨sent', hrest⟩ := ih { self with sent := sent } hxs
    exact ⟨sent', bind_eq_ok.mpr ⟨_, hsend, hrest⟩⟩

variable {xs : List (Except NetFailure (List UInt8))}

theorem serves_sendAll : self.Serves (self.sendAll xs) ↔ ∀ x ∈ xs, ¬ Panics x := by
  constructor
  · rintro ⟨after, h, -⟩
    induction xs generalizing self with
    | nil => simp
    | cons x xs ih =>
      obtain ⟨next, hx, hxs⟩ := bind_eq_ok.mp h
      refine forall_mem_cons.mpr ⟨?_, ih hxs⟩
      rintro ⟨f, rfl⟩
      exact absurd hx nofun
  · intro h
    obtain ⟨sent, hsend⟩ := sendAll_of_not_panics self h
    exact ⟨_, hsend, rfl⟩

theorem serves_sendAll_bind {before : Session} {xs : List (Except NetFailure (List UInt8))}
    {f : Session → Except Failure Session} (hxs : ∀ x ∈ xs, ¬ Panics x)
    (hf : ∀ sent, before.Serves (f { self with sent := sent })) :
    before.Serves (self.sendAll xs >>= f) := by
  obtain ⟨sent, hsend⟩ := sendAll_of_not_panics self hxs
  obtain ⟨after, hafter, hv⟩ := hf sent
  exact ⟨after, bind_eq_ok.mpr ⟨_, hsend, hafter⟩, hv⟩

theorem pushInbound_violations (msg : Incoming) :
    (self.pushInbound crates msg).2.violations = self.violations := rfl

variable {items : List InventoryItem}

theorem serves_handleInv :
    self.Serves (self.handleGossip crates sipHash view peer now (.inv items)) := by
  refine serves_sendAll.mpr fun x hx => ?_
  obtain ⟨message, hmessage, rfl⟩ := mem_map.mp hx
  split at hmessage
  · exact absurd hmessage not_mem_nil
  · rw [mem_singleton.mp hmessage]
    exact not_panics_invItems _ _

theorem serves_handleTx (tx : Transaction) :
    self.Serves (self.handleGossip crates sipHash view peer now (.tx tx)) := by
  let pushed := self.pushInbound crates (.newTx tx)
  change self.Serves (.ok (if pushed.1 then { pushed.2 with
    reconciliation := pushed.2.reconciliation.noteNewTx (crates.txid tx) } else pushed.2))
  rw [serves_ok]
  cases pushed.1 <;> rfl

/-- Only the blocks that are asked for can make the answer panic. -/
theorem serves_handleGetData :
    self.Serves (self.handleGossip crates sipHash view peer now (.getData items)) ↔
      ∀ item ∈ items, ∀ block, view.lookUp item = some (.block block) →
        ¬ Panics (encodeBlocks [block]) := by
  have hanswers : self.Serves (self.handleGossip crates sipHash view peer now (.getData items)) ↔
      ∀ message ∈ items.filterMap view.lookUp, ¬ Panics message.encode := by
    let marked := { self with gossip := (handleGetData items peer self.gossip view).2 }
    refine (serves_sendAll : marked.Serves _ ↔ _).trans ?_
    rw [forall_mem_map]
    split
    · rfl
    · rw [forall_mem_append]
      refine and_iff_left fun message hmessage => ?_
      rw [mem_singleton.mp hmessage]
      exact not_panics_invItems _ _
  rw [hanswers]
  constructor
  · intro h item hitem block hblock
    exact h _ (mem_filterMap.mpr ⟨item, hitem, hblock⟩)
  · intro h message hmessage
    obtain ⟨item, hitem, hlook⟩ := mem_filterMap.mp hmessage
    cases hkind : item.kind with
    | tx =>
      simp only [ChainView.lookUp, hkind, Option.map_eq_some_iff] at hlook
      obtain ⟨tx, -, rfl⟩ := hlook
      exact not_panics_tx tx
    | block =>
      have hblock := hlook
      simp only [ChainView.lookUp, hkind, Option.map_eq_some_iff] at hblock
      obtain ⟨block, -, rfl⟩ := hblock
      exact h item hitem block hlook

theorem serves_handleErlay {message : ErlayReconcile} :
    self.Serves (self.handleGossip crates sipHash view peer now (.erlayReconcile message)) := by
  have hbatches : ∀ (session : Session) (txids : List Digest),
      ∀ x ∈ session.freshBatches peer txids, ¬ Panics x := by
    intro session txids x hx
    obtain ⟨items, -, rfl⟩ := mem_map.mp hx
    exact not_panics_invItems _ _
  change self.Serves (self.handleErlayReconcile crates view peer now message)
  refine serves_sendAll_bind (hbatches _ _) fun sent => ?_
  split
  · obtain ⟨sent', hreply⟩ := send_of_not_panics _ (not_panics_erlayReconcile _)
    exact ⟨_, hreply, rfl⟩
  · exact serves_ok.mpr rfl

theorem serves_handleCompactBlock {compact : CompactBlock} {hash : Digest}
    (hhash : crates.headerHash compact.header = .ok hash) :
    self.Serves (self.handleCompactBlock crates sipHash view compact) ↔
      compact.FillsUp crates sipHash view := by
  rw [← CompactBlock.fillUp_isOk hhash]
  unfold handleCompactBlock
  split
  · rename_i block hfill
    exact ⟨fun _ => ⟨_, hfill⟩, fun _ => serves_ok.mpr (pushInbound_violations _)⟩
  · rename_i request hfill
    refine ⟨fun _ => ⟨_, hfill⟩, fun _ => ?_⟩
    obtain ⟨sent, hsend⟩ := send_of_not_panics self (not_panics_getBlockTxn request)
    exact ⟨_, bind_eq_ok.mpr ⟨_, hsend, bind_eq_ok.mpr ⟨hash, hhash, rfl⟩⟩, rfl⟩
  · rename_i e hfill
    refine ⟨fun h => absurd h serves_recordProtocolViolation, ?_⟩
    rintro ⟨outcome, houtcome⟩
    exact absurd (houtcome.symm.trans hfill) nofun
  · rename_i f hfill
    refine ⟨fun h => absurd h (serves_error f), ?_⟩
    rintro ⟨outcome, houtcome⟩
    exact absurd (houtcome.symm.trans hfill) nofun

theorem serves_handleBlockTxn {txn : BlockTxn} :
    self.Serves (self.handleBlockTxn crates sipHash view txn) ↔
      ∀ compact request, self.pendingCompact[txn.blockHash]? = some (compact, request) →
        compact.Completes crates sipHash request.missingIndices txn view := by
  unfold handleBlockTxn
  cases hpending : self.pendingCompact[txn.blockHash]? with
  | none => exact ⟨fun _ _ _ => nofun, fun _ => serves_ok.mpr rfl⟩
  | some entry =>
    obtain ⟨compact, request⟩ := entry
    have hiff : (∀ compact' request', some (compact, request) = some (compact', request') →
        compact'.Completes crates sipHash request'.missingIndices txn view) ↔
        compact.Completes crates sipHash request.missingIndices txn view := by
      constructor
      · exact fun h => h compact request rfl
      · rintro h _ _ ⟨⟩
        exact h
    rw [hiff, ← CompactBlock.applyBlockTxn_isOk]
    dsimp only
    cases happly : compact.applyBlockTxn crates sipHash request.missingIndices txn view with
    | ok block => exact ⟨fun _ => ⟨block, rfl⟩, fun _ => serves_ok.mpr rfl⟩
    | error e =>
      refine ⟨fun h => ?_, nofun⟩
      cases e with
      | error e => exact absurd (serves_ok.mp h) (Nat.succ_ne_self _)
      | panic f => exact absurd h (serves_error f)

/-- What the gossip layer parses is handled, and what it does not parse is a violation. -/
theorem serves_dispatchGossip {payload : List UInt8} :
    self.Serves (self.dispatchGossip crates sipHash view peer now payload) ↔
      ∃ message, GossipMessage.parse crates payload = .ok message ∧
        self.Serves (self.handleGossip crates sipHash view peer now message) := by
  unfold dispatchGossip
  cases hparse : GossipMessage.parse crates payload with
  | ok message => exact ⟨fun h => ⟨message, rfl, h⟩, fun ⟨_, hm, h⟩ => Except.ok.inj hm ▸ h⟩
  | error e => exact ⟨fun h => absurd h serves_recordProtocolViolation, nofun⟩

/-- The frame was handled without a violation, and the session goes on. -/
def GoesOn (before : Session) (r : Except Failure (Bool × Session)) : Prop :=
  ∃ after, r = .ok (true, after) ∧ after.violations = before.violations

theorem goesOn_map {r : Except Failure Session} : self.GoesOn (Prod.mk true <$> r) ↔ self.Serves r := by
  constructor
  · rintro ⟨after, h, hv⟩
    obtain ⟨after', hr, heq⟩ := map_eq_ok.mp h
    obtain rfl := (Prod.mk.inj heq).2
    exact ⟨after', hr, hv⟩
  · rintro ⟨after, rfl, hv⟩
    exact ⟨after, rfl, hv⟩

end Session

/-! ### Every message of the crate -/

/-- What the encoders of the crate encode. -/
inductive WireMessage where
  | getHeaders (fromHeight : UInt64)
  | headers (headers : List BlockHeader)
  | getBlocks (hashes : List Digest)
  | blocks (blocks : List Block)
  | addr (entries : List AddrEntry)
  | gossip (message : GossipMessage)

def WireMessage.encode : WireMessage → Except NetFailure (List UInt8)
  | .getHeaders fromHeight => .ok (encodeGetHeaders fromHeight)
  | .headers batch => encodeHeaders batch
  | .getBlocks hashes => encodeGetBlocks hashes
  | .blocks batch => encodeBlocks batch
  | .addr entries => encodeAddr entries
  | .gossip message => message.encode

section
variable (crates : Crates) (sipHash : List UInt8 → UInt64) (self : Session) (view : ChainView)

/-- When a gossip message that is sent as `payload` is no violation. -/
def GossipMessage.Handled (payload : List UInt8) : GossipMessage → Prop
  | .inv _ => True
  | .getData items => ∀ item ∈ items, ∀ b, view.lookUp item = some (.block b) →
      ¬ Panics (encodeBlocks [b])
  | .tx t => TxDecodes t
  | .block b => ∀ t ∈ b.transactions, TxDecodes t
  | .notFound _ => True
  | .compactBlock _ => ∃ received, CompactBlock.parse crates payload = .ok received ∧
      received.FillsUp crates sipHash view
  | .getBlockTxn _ => True
  | .blockTxn _ => ∃ received, BlockTxn.parse payload = .ok received ∧
      ∀ compact request, self.pendingCompact[received.blockHash]? = some (compact, request) →
        compact.Completes crates sipHash request.missingIndices received view
  | .erlayReconcile _ => True

/-- When a message that is sent as `payload` is no violation: headers and addresses never
are, and of blocks there may be only one. -/
def WireMessage.Handled (payload : List UInt8) : WireMessage → Prop
  | .getHeaders fromHeight =>
    ¬ Panics (encodeHeaders (view.headersFromHeight fromHeight MAX_HEADERS_BATCH))
  | .headers _ => False
  | .getBlocks hashes => ¬ Panics (encodeBlocks (view.blocksByHashes hashes MAX_BLOCKS_BATCH))
  | .blocks batch => batch.length = 1 ∧ ∀ b ∈ batch, ∀ tx ∈ b.transactions, TxDecodes tx
  | .addr _ => False
  | .gossip message => message.Handled crates sipHash self view payload

end

section
variable {crates : Crates} {sipHash : List UInt8 → UInt64} {self : Session} {view : ChainView}
  {peer : NodeId} {now : Instant}

open Session

variable {tag : UInt8} {w : List UInt8}

theorem goesOn_gossip (h : decodeMessage (tag :: w) = .ok (.knownTag tag)) :
    self.GoesOn (self.dispatchFrame crates sipHash .ok view peer now (tag :: w)) ↔
      ∃ message, GossipMessage.parse crates (tag :: w) = .ok message ∧
        self.Serves (self.handleGossip crates sipHash view peer now message) := by
  unfold dispatchFrame
  rw [h]
  exact goesOn_map.trans serves_dispatchGossip

theorem exists_parsed {α : Type} {ctor : α → GossipMessage} {x : Except NetError α}
    {Q : GossipMessage → Prop} :
    (∃ message, ctor <$> x = .ok message ∧ Q message) ↔ ∃ a, x = .ok a ∧ Q (ctor a) := by
  constructor
  · rintro ⟨message, h, hQ⟩
    obtain ⟨a, ha, rfl⟩ := map_eq_ok.mp h
    exact ⟨a, ha, hQ⟩
  · rintro ⟨a, rfl, hQ⟩
    exact ⟨ctor a, rfl, hQ⟩

theorem goesOn_parsed {α : Type} (ctor : α → GossipMessage) {x : Except NetError α}
    (h : decodeMessage (tag :: w) = .ok (.knownTag tag))
    (hparse : GossipMessage.parse crates (tag :: w) = ctor <$> x) :
    self.GoesOn (self.dispatchFrame crates sipHash .ok view peer now (tag :: w)) ↔
      ∃ a, x = .ok a ∧ self.Serves (self.handleGossip crates sipHash view peer now (ctor a)) := by
  rw [goesOn_gossip h, hparse, exists_parsed]

/-- A tag that the gossip layer does not know. -/
theorem not_goesOn {e : NetError} (h : decodeMessage (tag :: w) = .ok (.knownTag tag))
    (hparse : GossipMessage.parse crates (tag :: w) = .error e) :
    ¬ self.GoesOn (self.dispatchFrame crates sipHash .ok view peer now (tag :: w)) := by
  rw [goesOn_gossip h, hparse]
  exact nofun

variable {payload : List UInt8}

theorem headerHash_of_parse {compact : CompactBlock}
    (h : CompactBlock.parse crates payload = .ok compact) :
    ∃ hash, crates.headerHash compact.header = .ok hash := by
  obtain ⟨_, rfl, header, _, _, rfl, hheader, -⟩ := ((accepts_compactBlock crates).iff _ _).mp h
  obtain ⟨hash, hhash, -⟩ := ((isHeader_iff crates).mp hheader).1.hash
  exact ⟨hash, hhash⟩

theorem goesOn_gossip_iff {message : GossipMessage} (h : message.encode = .ok payload) :
    self.GoesOn (self.dispatchFrame crates sipHash .ok view peer now payload) ↔
      message.Handled crates sipHash self view payload := by
  cases message with
  | inv items =>
    have hparse := (invItemsCodec MSG_INV "INV").roundTrip items payload trivial nofun h
    obtain ⟨-, rfl⟩ := ensureFits_return.mp h
    rw [goesOn_parsed .inv rfl rfl]
    exact iff_of_true ⟨items, hparse, serves_handleInv⟩ trivial
  | getData items =>
    have hparse := (invItemsCodec MSG_GET_DATA "GET_DATA").roundTrip items payload trivial nofun h
    obtain ⟨-, rfl⟩ := ensureFits_return.mp h
    rw [goesOn_parsed .getData rfl rfl]
    constructor
    · rintro ⟨items', hitems', hserves⟩
      obtain rfl := Except.ok.inj (hitems'.symm.trans hparse)
      exact serves_handleGetData.mp hserves
    · exact fun hserves => ⟨items, hparse, serves_handleGetData.mpr hserves⟩
  | tx tx =>
    have hdecodes := txDecodes_iff_parse h
    obtain ⟨body, -, ⟨⟩⟩ := bind_eq_ok.mp h
    rw [goesOn_parsed .tx rfl rfl]
    exact (exists_congr fun received => and_iff_left (serves_handleTx received)).trans hdecodes
  | block block =>
    have hdecodes := parseBlock_encoded crates h
    obtain ⟨-, h⟩ := ensureFits_bind.mp h
    obtain ⟨bodies, -, h⟩ := bind_eq_ok.mp h
    obtain ⟨-, rfl⟩ := ensureFits_return.mp h
    rw [goesOn_parsed .block rfl rfl]
    refine (exists_congr fun received => and_iff_left (serves_ok.mpr rfl)).trans
      (hdecodes.trans ?_)
    simp [GossipMessage.Handled]
  | notFound items =>
    have hparse := (invItemsCodec MSG_NOTFOUND "NOTFOUND").roundTrip items payload trivial nofun h
    obtain ⟨-, rfl⟩ := ensureFits_return.mp h
    rw [goesOn_parsed .notFound rfl rfl]
    exact iff_of_true ⟨items, hparse, serves_ok.mpr rfl⟩ trivial
  | compactBlock compact =>
    obtain ⟨-, h⟩ := ensureFits_bind.mp h
    obtain ⟨-, h⟩ := ensureFits_bind.mp h
    obtain ⟨header, -, h⟩ := bind_eq_ok.mp h
    obtain ⟨prefilled, -, h⟩ := bind_eq_ok.mp h
    obtain ⟨-, rfl⟩ := ensureFits_return.mp h
    rw [goesOn_parsed .compactBlock rfl rfl]
    refine exists_congr fun received => and_congr_right fun hparse => ?_
    obtain ⟨hash, hhash⟩ := headerHash_of_parse hparse
    exact serves_handleCompactBlock hhash
  | getBlockTxn request =>
    obtain ⟨received, hparse⟩ := getBlockTxn_parses h
    obtain ⟨-, rfl⟩ := ensureFits_return.mp h
    rw [goesOn_parsed .getBlockTxn rfl rfl]
    refine iff_of_true ⟨received, hparse, ?_⟩ trivial
    rw [handleGossip]
    split
    · exact serves_send.mpr (not_panics_blockTxn _)
    · exact serves_ok.mpr rfl
  | blockTxn txn =>
    obtain ⟨-, h⟩ := ensureFits_bind.mp h
    obtain ⟨bodies, -, h⟩ := bind_eq_ok.mp h
    obtain ⟨-, rfl⟩ := ensureFits_return.mp h
    rw [goesOn_parsed .blockTxn rfl rfl]
    exact exists_congr fun received => and_congr_right' serves_handleBlockTxn
  | erlayReconcile message =>
    have hparse := erlayReconcileCodec.roundTrip message payload trivial nofun h
    obtain ⟨-, rfl⟩ := ensureFits_return.mp h
    rw [goesOn_parsed .erlayReconcile rfl rfl]
    exact iff_of_true ⟨message, hparse, serves_handleErlay⟩ trivial

theorem decodeMessage_getHeaders (fromHeight : UInt64) :
    decodeMessage (encodeGetHeaders fromHeight) = .ok (.getHeaders fromHeight) := by
  change InboundMessage.getHeaders <$> parseGetHeaders (encodeGetHeaders fromHeight) = _
  rw [getHeadersCodec.roundTrip fromHeight _ trivial nofun rfl]
  rfl

theorem decodeMessage_getBlocks {hashes : List Digest} {request : List UInt8}
    (h : encodeGetBlocks hashes = .ok request) :
    decodeMessage request = .ok (.getBlocks hashes) := by
  have hparse := getBlocksCodec.roundTrip hashes request trivial nofun h
  obtain ⟨-, rfl⟩ := ensureFits_return.mp h
  change InboundMessage.getBlocks <$> parseGetBlocks _ = _
  rw [hparse]
  rfl

/-- **Known messages.**  A payload that an encoder of the crate produced is handled without a
protocol violation, and without closing the session, exactly if it is not a batch of headers
or of addresses, if of blocks it holds one, and if what it carries can be decoded and filled
in.  A payload with an unknown tag changes nothing. -/
theorem known_message_handled_iff (self : Session) (view : ChainView) (peer : NodeId)
    (now : Instant) :
    (∀ (message : WireMessage) (payload : List UInt8), message.encode = .ok payload →
      (self.GoesOn (self.dispatchFrame crates sipHash .ok view peer now payload) ↔
        message.Handled crates sipHash self view payload)) ∧
    (∀ payload : List UInt8, (∀ tag ∈ payload.head?, tag ∉ KNOWN_TAGS) →
      self.dispatchFrame crates sipHash .ok view peer now payload = .ok (true, self)) := by
  refine ⟨fun message payload h => ?_, fun payload h => ?_⟩
  · cases message with
    | getHeaders fromHeight =>
      obtain rfl := Except.ok.inj h
      unfold Session.dispatchFrame
      rw [decodeMessage_getHeaders]
      exact goesOn_map.trans serves_send
    | headers batch =>
      obtain ⟨-, h⟩ := ensureFits_bind.mp h
      obtain ⟨bodies, -, h⟩ := bind_eq_ok.mp h
      obtain ⟨-, rfl⟩ := ensureFits_return.mp h
      exact iff_of_false (not_goesOn rfl rfl) id
    | getBlocks hashes =>
      unfold Session.dispatchFrame
      rw [decodeMessage_getBlocks h]
      exact goesOn_map.trans serves_send
    | blocks batch =>
      have hdecodes := parseBlock_encoded crates h
      obtain ⟨-, h⟩ := ensureFits_bind.mp h
      obtain ⟨bodies, -, h⟩ := bind_eq_ok.mp h
      obtain ⟨-, rfl⟩ := ensureFits_return.mp h
      rw [goesOn_parsed .block rfl rfl]
      exact (exists_congr fun received => and_iff_left (serves_ok.mpr rfl)).trans hdecodes
    | addr entries =>
      obtain ⟨-, rfl⟩ := ensureFits_return.mp h
      exact iff_of_false (not_goesOn rfl rfl) id
    | gossip message => exact goesOn_gossip_iff h
  · have hdecode : decodeMessage payload = .ok (.unknownMessage payload) := by
      cases payload with
      | nil => rfl
      | cons tag w =>
        have hunknown : tag ∉ KNOWN_TAGS := h tag rfl
        have hne : ∀ t ∈ KNOWN_TAGS, tag ≠ t := fun t ht heq => hunknown (heq ▸ ht)
        rw [decodeMessage, if_neg (hne MSG_GET_HEADERS (by decide)),
          if_neg (hne MSG_GET_BLOCKS (by decide)), if_neg hunknown]
    unfold Session.dispatchFrame
    rw [hdecode]

end

/-- A node without blocks and transactions. -/
def idleView : ChainView where
  mempoolTxs := []
  mempoolTx _ := none
  mempoolContains _ := false
  blockByHash _ := none
  chainContainsBlock _ := false
  headersFromHeight _ _ := []
  blocksByHashes _ _ := []

def freshSession : Session where
  pendingCompact := ∅
  gossip := ⟨∅⟩
  reconciliation := ⟨⟨[], nodup_nil⟩, 0, none, ∅, ⟨0, 0, INITIAL_SKETCH_CAPACITY⟩⟩
  inbox := ⟨⟨[]⟩, [], [], ()⟩
  sent := []
  violations := 0

theorem empty_inventory_handled :
    freshSession.GoesOn (freshSession.dispatchFrame nonzeroCrates (fun _ => 0) .ok idleView zeroDigest
      0 [6, 0, 0, 0, 0]) ∧
    freshSession.dispatchFrame nonzeroCrates (fun _ => 0) .ok idleView zeroDigest 0 [0xFF, 1] =
      .ok (true, freshSession) :=
  ⟨((known_message_handled_iff freshSession idleView zeroDigest 0).1 (.gossip (.inv []))
      [6, 0, 0, 0, 0] rfl).mpr trivial,
    (known_message_handled_iff freshSession idleView zeroDigest 0).2 [0xFF, 1] fun tag htag =>
      Option.some.inj htag ▸ by decide⟩

/-- **Three encodings of the crate that are violations**: a batch of headers, of addresses,
and a batch of no blocks. -/
theorem own_messages_are_violations :
    (encodeHeaders [] = .ok [2, 0, 0, 0, 0] ∧ encodeAddr [] = .ok [5, 0, 0, 0, 0] ∧
      encodeBlocks [] = .ok [4, 0, 0, 0, 0]) ∧
    ∀ payload ∈ [[2, 0, 0, 0, 0], [5, 0, 0, 0, 0], [4, 0, 0, 0, 0]],
      freshSession.dispatchFrame nonzeroCrates (fun _ => 0) .ok idleView zeroDigest 0 payload =
        .ok (true, { freshSession with violations := 1 }) := by
  refine ⟨⟨rfl, rfl, rfl⟩, ?_⟩
  simp only [forall_mem_cons, not_mem_nil, false_imp_iff, implies_true, and_true]
  exact ⟨rfl, rfl, rfl⟩

end Strangecoin
