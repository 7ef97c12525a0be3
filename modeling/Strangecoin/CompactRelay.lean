import Strangecoin.CompactBlocks

/-! # Relay of compact blocks

From what it has in its mempool and what it asks for, a receiver assembles the block that was
sent.  The stored hash and the spelling of the hashes are not sent, so a block whose header is
not well formed arrives as another one.
-/
namespace Strangecoin
open List
namespace CompactBlock

section
variable (crates : Crates) (sipHash : List UInt8 → UInt64)

/-- Different ids of these transactions have different short ids. -/
def DistinctShortTxIds (nonce : UInt64) (txs : List Transaction) : Prop :=
  ∀ t ∈ txs, ∀ t' ∈ txs, shortId sipHash (crates.txid t) nonce =
    shortId sipHash (crates.txid t') nonce → crates.txid t = crates.txid t'

/-- The positions that are not prefilled and whose transactions are not in the mempool. -/
def absentPositions (txs mempool : List Transaction) : List Nat :=
  (List.range txs.length).filter fun i => !prefilledAt txs i &&
    !txs[i]?.any fun tx => mempool.any fun t => crates.txid t = crates.txid tx

end

section
variable {crates : Crates} {sipHash : List UInt8 → UInt64} {block : Block} {hash : Digest}
  {view : ChainView}

/-- Transactions with one id are the same. -/
theorem eq_of_txid_eq {txs : List Transaction} (hsurvive : TxsSurvive txs)
    (hcollision : ¬ Collision crates.blake3 (txs.map serializeTransactionSigned))
    {t t' : Transaction} (ht : t ∈ txs) (ht' : t' ∈ txs) (h : crates.txid t = crates.txid t') :
    t = t' := by
  have hbytes : serializeTransactionSigned t = serializeTransactionSigned t' :=
    eq_of_not_collision hcollision (mem_map_of_mem ht) (mem_map_of_mem ht') h
  exact Except.ok.inj ((hsurvive t ht).symm.trans (hbytes ▸ hsurvive t' ht'))

/-- The first match of a transaction of the block is that transaction. -/
theorem firstMatch_eq {nonce : UInt64}
    (hsurvive : TxsSurvive (block.transactions ++ view.mempoolTxs))
    (hcollision : ¬ Collision crates.blake3
      ((block.transactions ++ view.mempoolTxs).map serializeTransactionSigned))
    (hdistinct : DistinctShortTxIds crates sipHash nonce (block.transactions ++ view.mempoolTxs))
    {tx : Transaction} (htx : tx ∈ block.transactions) :
    firstMatch crates sipHash nonce view tx =
      if view.mempoolTxs.any fun t => crates.txid t = crates.txid tx then some tx else none := by
  have hin : tx ∈ block.transactions ++ view.mempoolTxs := mem_append_left _ htx
  unfold firstMatch findMempoolTxByShortId
  cases hfind : view.mempoolTxs.find? fun t => shortId sipHash (crates.txid t) nonce =
      shortId sipHash (crates.txid tx) nonce with
  | none =>
    have hnone := find?_eq_none.mp hfind
    rw [if_neg]
    rintro hany
    obtain ⟨t, ht, hid⟩ := any_eq_true.mp hany
    exact hnone t ht (by simp [of_decide_eq_true hid])
  | some t =>
    have ht := mem_of_find?_eq_some hfind
    have ht' : t ∈ block.transactions ++ view.mempoolTxs := mem_append_right _ ht
    have hsid := find?_some hfind
    have hid := hdistinct t ht' tx hin (of_decide_eq_true hsid)
    rw [eq_of_txid_eq hsurvive hcollision ht' hin hid] at ht ⊢
    rw [if_pos (any_eq_true.mpr ⟨tx, ht, decide_eq_true rfl⟩)]

/-- What is asked for are the positions that the mempool does not have. -/
theorem requested_eq (hfirst : ∀ tx ∈ block.transactions,
      firstMatch crates sipHash (deriveNonce hash) view tx =
        if view.mempoolTxs.any fun t => crates.txid t = crates.txid tx then some tx else none) :
    requested crates sipHash block hash view =
      absentPositions crates block.transactions view.mempoolTxs := by
  unfold requested missingOf absentPositions
  rw [length_filled]
  refine filter_congr fun i hi => ?_
  obtain ⟨tx, htx⟩ : ∃ tx, block.transactions[i]? = some tx :=
    ⟨_, getElem?_eq_getElem (mem_range.mp hi)⟩
  rw [getD_eq_getElem?_getD, getElem?_filled, htx, Option.map_some, Option.getD_some,
    hfirst tx (mem_of_getElem? htx), Option.any_some]
  cases prefilledAt block.transactions i <;>
    cases view.mempoolTxs.any fun t => crates.txid t = crates.txid tx <;> rfl

theorem assembleAndVerify_own
    (hroot : block.txRoot = crates.merkleRoot (block.transactions.map crates.txid)) :
    crates.assembleAndVerify block.header block.transactions = .ok block := by
  exact if_neg (not_not.mpr hroot.symm)

theorem mem_requested {i : Nat} (hi : i ∈ requested crates sipHash block hash view) :
    ∃ tx, block.transactions[i]? = some tx ∧ prefilledAt block.transactions i = false := by
  obtain ⟨tx, htx, hopen, -⟩ := mem_missingOf.mp hi
  exact ⟨tx, htx, hopen⟩

/-- The transactions at positions of the block. -/
theorem exists_answer {block : Block} (idxs : List Nat) (h : ∀ i ∈ idxs, ∃ tx, block.transactions[i]? = some tx) :
    ∃ txs, idxs.mapM (fun i => block.transactions[i]?) = some txs ∧
      List.Forall₂ (fun i tx => block.transactions[i]? = some tx) idxs txs := by
  induction idxs with
  | nil => exact ⟨[], rfl, .nil⟩
  | cons i idxs ih =>
    obtain ⟨⟨tx, htx⟩, hidxs⟩ := forall_mem_cons.mp h
    obtain ⟨txs, htxs, hall⟩ := ih hidxs
    refine ⟨tx :: txs, ?_, .cons htx hall⟩
    rw [mapM_cons, htx, htxs]
    rfl

/-- What is sent along is of the block. -/
theorem mem_prefilledOf {txs : List Transaction} {entry : Nat × Transaction}
    (h : entry ∈ prefilledOf txs) : entry.1 = 0 ∧ entry.2 ∈ txs := by
  cases txs with
  | nil => exact absurd h (by simp [prefilledOf])
  | cons tx rest =>
    cases hcoinbase : tx.isCoinbase with
    | false => exact absurd h (by simp [prefilledOf, hcoinbase])
    | true =>
      simp only [prefilledOf, head?_cons, hcoinbase, if_true, mem_singleton] at h
      rw [h]
      exact ⟨rfl, mem_cons_self⟩

theorem parse_ofBlock (hwell : WellFormedHeader crates block.header)
    (hsurvive : TxsSurvive block.transactions) {bytes : List UInt8}
    (hbytes : (ofBlock crates sipHash block hash).encode = .ok bytes) :
    CompactBlock.parse crates bytes = .ok (ofBlock crates sipHash block hash) := by
  refine (compactBlockCodec crates).roundTrip _ _ ⟨hwell, fun entry hentry => ?_⟩ ?_ hbytes
  · rw [(mem_prefilledOf hentry).1]
    decide
  · intro tx htx
    obtain ⟨entry, hentry, rfl⟩ := mem_map.mp htx
    exact hsurvive _ (mem_prefilledOf hentry).2

/-- A compact block that fits a message has no more transactions than a request may name. -/
theorem length_of_encode {bytes : List UInt8}
    (hbytes : (ofBlock crates sipHash block hash).encode = .ok bytes) :
    block.transactions.length ≤ MAX_COMPACT_TXS := by
  have h := (ensureFits_bind.mp hbytes).1
  simpa [ofBlock] using h

variable (crates sipHash hash view) in
theorem requested_encode (hcount : block.transactions.length ≤ MAX_COMPACT_TXS) :
    ∃ bytes, GetBlockTxn.encode ⟨hash, requested crates sipHash block hash view⟩ = .ok bytes ∧
      GetBlockTxn.parse bytes = .ok ⟨hash, requested crates sipHash block hash view⟩ := by
  have hlength : (requested crates sipHash block hash view).length ≤ MAX_COMPACT_TXS := by
    have h := length_filter_le (fun i => ((filled (prefilledAt block.transactions)
      (firstMatch crates sipHash (deriveNonce hash) view) block.transactions).getD i none).isNone)
      (List.range block.transactions.length)
    rw [length_range] at h
    unfold requested missingOf
    rw [length_filled]
    omega
  have hencode : ∃ bytes, GetBlockTxn.encode ⟨hash, requested crates sipHash block hash view⟩ =
      .ok bytes := ⟨_, ensureFits_return.mpr ⟨hlength, rfl⟩⟩
  obtain ⟨bytes, hencode⟩ := hencode
  refine ⟨bytes, hencode, getBlockTxnCodec.roundTrip _ _ (fun i hi => ?_) (by simp [TxsSurvive]) hencode⟩
  obtain ⟨tx, htx, -⟩ := mem_requested hi
  have hlt := (List.getElem?_eq_some_iff.mp htx).1
  have hmax : MAX_COMPACT_TXS < 2 ^ 32 := by decide
  omega

/-- **Compact blocks are complete.**  A block with a well-formed header and the root of its
transactions is sent to a receiver.  If the transactions of the block and of the receiver's
mempool survive their codec, no two of them collide, and different ids have different short
ids, the receiver assembles the block from its mempool, or it asks for exactly the positions
its mempool does not have, and the answer of a node that has the block completes it. -/
theorem compact_relay_complete (sender : ChainView)
    (hwell : WellFormedHeader crates block.header)
    (hhash : crates.headerHash block.header = .ok hash)
    (hroot : block.txRoot = crates.merkleRoot (block.transactions.map crates.txid))
    (hsurvive : TxsSurvive (block.transactions ++ view.mempoolTxs))
    (hcollision : ¬ Collision crates.blake3
      ((block.transactions ++ view.mempoolTxs).map serializeTransactionSigned))
    (hdistinct : DistinctShortTxIds crates sipHash (deriveNonce hash)
      (block.transactions ++ view.mempoolTxs))
    (hsender : sender.blockByHash (hexEncode hash.toList) = some block) :
    ∃ compact, fromBlock crates sipHash block = .ok compact ∧
      ∀ bytes, compact.encode = .ok bytes →
        CompactBlock.parse crates bytes = .ok compact ∧
        if absentPositions crates block.transactions view.mempoolTxs = [] then
          fillUp crates sipHash compact view = .ok (.complete block)
        else
          ∃ request requestBytes reply,
            fillUp crates sipHash compact view = .ok (.missing request) ∧
            request = ⟨hash, absentPositions crates block.transactions view.mempoolTxs⟩ ∧
            request.encode = .ok requestBytes ∧ GetBlockTxn.parse requestBytes = .ok request ∧
            handleGetBlockTxn request sender = some reply ∧
            ∀ replyBytes, reply.encode = .ok replyBytes →
              BlockTxn.parse replyBytes = .ok reply ∧
              applyBlockTxn crates sipHash compact request.missingIndices reply view =
                .ok block := by
  obtain ⟨hblockTxs, hpool⟩ := forall_mem_append.mp hsurvive
  have hfirst : ∀ tx ∈ block.transactions, _ := fun tx htx =>
    firstMatch_eq hsurvive hcollision hdistinct htx
  have hrequested := requested_eq hfirst
  refine ⟨ofBlock crates sipHash block hash, bind_eq_ok.mpr ⟨hash, hhash, rfl⟩, ?_⟩
  intro bytes hbytes
  refine ⟨parse_ofBlock hwell hblockTxs hbytes, ?_⟩
  rw [← hrequested]
  -- A position that is neither prefilled nor asked for has its transaction in the mempool.
  have hfound : ∀ i tx, block.transactions[i]? = some tx → prefilledAt block.transactions i = false →
      i ∉ requested crates sipHash block hash view →
      firstMatch crates sipHash (deriveNonce hash) view tx = some tx := by
    intro i tx htx hopen hi
    have hmatch := hfirst tx (mem_of_getElem? htx)
    split at hmatch
    · exact hmatch
    · exact absurd (mem_missingOf.mpr ⟨tx, htx, hopen, hmatch⟩) hi
  split
  · rename_i hnone
    have hslots : filled (prefilledAt block.transactions) _ _ = _ :=
      filled_eq_map fun i tx htx hopen => hfound i tx htx hopen (by simp [hnone])
    rw [fillUp_ofBlock hhash, if_neg (not_not.mpr hnone), hslots]
    have hall : (block.transactions.map some).reduceOption = block.transactions := by
      simp [List.reduceOption]
    rw [hall, assembleAndVerify_own hroot]
    rfl
  · rename_i hmissing
    obtain ⟨requestBytes, hrequest, hparse⟩ := requested_encode crates sipHash hash view
      (length_of_encode hbytes)
    obtain ⟨txs, htxs, hanswer⟩ := exists_answer
      (requested crates sipHash block hash view) fun i hi => (mem_requested hi).imp fun _ h => h.1
    refine ⟨⟨hash, requested crates sipHash block hash view⟩, requestBytes, ⟨hash, txs⟩, ?_, rfl,
      hrequest, hparse, ?_, fun replyBytes hreply => ⟨?_, ?_⟩⟩
    · rw [fillUp_ofBlock hhash, if_pos hmissing]
    · exact Option.bind_eq_some_iff.mpr
        ⟨block, hsender, Option.bind_eq_some_iff.mpr ⟨txs, htxs, rfl⟩⟩
    · refine blockTxnCodec.roundTrip _ _ trivial (fun tx htx => hblockTxs tx ?_) hreply
      obtain ⟨i, -, hi⟩ := exists_of_forall₂ hanswer htx
      exact mem_of_getElem? hi
    · rw [applyBlockTxn_ofBlock hhash hanswer fun i hi => (mem_requested hi).choose_spec.2]
      rw [okOr_slot.mpr (filled_eq_map fun i tx htx hknown => ?_)]
      · change liftNet (crates.assembleAndVerify block.header block.transactions) = _
        rw [assembleAndVerify_own hroot]
        rfl
      · simp only [Bool.or_eq_false_iff, contains_eq_mem, decide_eq_false_iff_not] at hknown
        exact hfound i tx htx hknown.1 hknown.2

end

/-! ### Two blocks -/

/-- A node with nothing pending that has one block. -/
def viewOf (mempool : List Transaction) (hash : String) (block : Block) : ChainView where
  mempoolTxs := mempool
  mempoolTx _ := none
  mempoolContains _ := false
  blockByHash h := if h = hash then some block else none
  chainContainsBlock h := h == hash
  headersFromHeight _ _ := []
  blocksByHashes _ _ := []

def plainTransfer : Transaction := .transfer { flagged with isCoinbase := false }

theorem survive_plainTransfer : TxsSurvive [plainTransfer] := by
  intro tx htx
  obtain rfl := mem_singleton.mp htx
  have hwire : OnWire (transferForm { flagged with isCoinbase := false } 0) plainTransfer :=
    .transfer _ 0 ⟨by decide, by decide, by decide⟩ (by simp)
  rw [plainTransfer, serialize_transfer]
  exact hwire.deserialize

/-- A header with the root of one transfer. -/
def relayedFields : HeaderFields :=
  { zeroFields with txRoot := nonzeroCrates.merkleRoot [nonzeroCrates.txid plainTransfer] }

def relayedBlock : Block := Block.fromHeader (relayedFields.header nonzeroCrates) [plainTransfer]

def relayedHash : Digest := nonzeroCrates.blake3 relayedFields.bytes

theorem headerHash_relayed : nonzeroCrates.headerHash relayedBlock.header = .ok relayedHash :=
  bind_eq_ok.mpr ⟨relayedFields.bytes, relayedFields.serializeHeader_eq _, rfl⟩

/-- A compact form without a transaction sent along fits a message. -/
theorem encode_small (compact : CompactBlock) {header : List UInt8}
    (hheader : serializeHeader compact.header = .ok header)
    (hlength : header.length = HEADER_WIRE_LEN) (hids : compact.shortIds.length ≤ MAX_COMPACT_TXS)
    (hprefilled : compact.prefilledTxs = []) : ∃ bytes, compact.encode = .ok bytes := by
  have hmax : MAX_COMPACT_TXS = 65536 := rfl
  have hwire : HEADER_WIRE_LEN = 189 := rfl
  have hmessage : MAX_MESSAGE_SIZE = 33554432 := rfl
  obtain ⟨head, nonce, ids, prefilled⟩ := compact
  obtain rfl : prefilled = [] := hprefilled
  have hids : ids.length ≤ MAX_COMPACT_TXS := hids
  refine ⟨MSG_COMPACT_BLOCK :: (header ++ (toBeBytes nonce ++ (putCount ids ++
    (ids.flatMap Vector.toList ++ (putCount ([] : List (Nat × Transaction)) ++ []))))), ?_⟩
  refine ensureFits_bind.mpr ⟨by omega, ensureFits_bind.mpr ⟨Nat.zero_le _,
    bind_eq_ok.mpr ⟨header, liftPanic_eq_ok.mpr hheader, ?_⟩⟩⟩
  refine bind_eq_ok.mpr ⟨[], rfl, ensureFits_return.mpr ⟨?_, rfl⟩⟩
  have hflat : (ids.flatMap Vector.toList).length = ids.length * 8 := by
    simp [length_flatMap]
  simp only [length_cons, length_append, length_putCount, length_toBeBytes, hflat,
    flatten_nil, length_nil, hlength]
  omega

theorem encode_relayed (sipHash : List UInt8 → UInt64) :
    ∃ bytes, (ofBlock nonzeroCrates sipHash relayedBlock relayedHash).encode = .ok bytes :=
  encode_small _ (relayedFields.serializeHeader_eq _) relayedFields.length_bytes
    (Nat.le_of_ble_eq_true rfl) rfl

theorem encode_answer (hash : Digest) (tx : Transaction)
    (hbody : (serializeTransactionSigned tx).length ≤ 100) :
    ∃ bytes, BlockTxn.encode ⟨hash, [tx]⟩ = .ok bytes := by
  let body := serializeTransactionSigned tx
  have hbody : body.length ≤ 100 := hbody
  have hsize : MAX_TX_SIZE = 262144 := rfl
  have hmessage : MAX_MESSAGE_SIZE = 33554432 := rfl
  refine ⟨MSG_BLOCK_TXN :: (hash.toList ++ (putCount [tx] ++ [body].flatMap writeBytes)),
    ensureFits_bind.mpr ⟨?_, bind_eq_ok.mpr ⟨[body], ?_, ?_⟩⟩⟩
  · exact Nat.le_of_ble_eq_true rfl
  · exact mapM_ok.mpr (.cons (encodeTxBody_ok.mpr ⟨by omega, rfl⟩) .nil)
  · refine ensureFits_return.mpr ⟨?_, rfl⟩
    simp only [length_cons, length_append, Vector.length_toList, length_putCount,
      flatMap_cons, flatMap_nil, length_nil, length_writeBytes]
    omega

theorem compact_relay_of_one :
    ∃ compact request reply, fromBlock nonzeroCrates (fun _ => 0) relayedBlock = .ok compact ∧
      fillUp nonzeroCrates (fun _ => 0) compact (viewOf [] "" relayedBlock) =
        .ok (.missing request) ∧
      request = ⟨relayedHash, [0]⟩ ∧
      handleGetBlockTxn request (viewOf [] (hexEncode relayedHash.toList) relayedBlock) =
        some reply ∧
      applyBlockTxn nonzeroCrates (fun _ => 0) compact [0] reply (viewOf [] "" relayedBlock) =
        .ok relayedBlock := by
  have hone : ∀ t ∈ relayedBlock.transactions ++ (viewOf [] "" relayedBlock).mempoolTxs,
      t = plainTransfer := fun t ht => mem_singleton.mp ht
  obtain ⟨compact, hcompact, hrelay⟩ := @compact_relay_complete nonzeroCrates (fun _ => 0)
    relayedBlock relayedHash (viewOf [] "" relayedBlock)
    (viewOf [] (hexEncode relayedHash.toList) relayedBlock) (relayedFields.wellFormed nonzeroCrates) headerHash_relayed rfl survive_plainTransfer
    (by
      rintro ⟨x, hx, y, hy, hne, -⟩
      obtain ⟨t, ht, rfl⟩ := mem_map.mp hx
      obtain ⟨t', ht', rfl⟩ := mem_map.mp hy
      exact hne (by rw [hone t ht, hone t' ht']))
    (fun t ht t' ht' _ => by rw [hone t ht, hone t' ht'])
    (if_pos rfl)
  obtain ⟨bytes, hbytes⟩ := encode_relayed fun _ => 0
  have hsame : compact = ofBlock nonzeroCrates (fun _ => 0) relayedBlock relayedHash :=
    Except.ok.inj (hcompact.symm.trans (bind_eq_ok.mpr ⟨relayedHash, headerHash_relayed, rfl⟩))
  have habsent : absentPositions nonzeroCrates relayedBlock.transactions
      (viewOf [] "" relayedBlock).mempoolTxs = [0] := rfl
  obtain ⟨-, hrest⟩ := hrelay bytes (hsame ▸ hbytes)
  rw [habsent, if_neg (by decide)] at hrest
  obtain ⟨request, -, reply, hfill, hrequest, -, -, hreply, hanswer⟩ := hrest
  refine ⟨compact, request, reply, hcompact, hfill, hrequest, hreply, ?_⟩
  subst hrequest
  have hanswered : handleGetBlockTxn ⟨relayedHash, [0]⟩ (viewOf [] (hexEncode relayedHash.toList)
      relayedBlock) = some ⟨relayedHash, [plainTransfer]⟩ :=
    Option.bind_eq_some_iff.mpr ⟨relayedBlock, if_pos rfl, rfl⟩
  obtain rfl := Option.some.inj (hreply.symm.trans hanswered)
  obtain ⟨replyBytes, hencode⟩ := encode_answer relayedHash plainTransfer (by decide)
  exact (hanswer replyBytes hencode).2

/-- The stored hash of the header is not encoded. -/
theorem encode_congr {compact compact' : CompactBlock}
    (hheader : serializeHeader compact.header = serializeHeader compact'.header)
    (hnonce : compact.nonce = compact'.nonce) (hids : compact.shortIds = compact'.shortIds)
    (hprefilled : compact.prefilledTxs = compact'.prefilledTxs) :
    compact.encode = compact'.encode := by
  unfold encode
  rw [hheader, hnonce, hids, hprefilled]

/-- A block whose stored hash is not its own. -/
def unhashedBlock : Block :=
  { Block.fromHeader (zeroFields.header nonzeroCrates) [] with hash := "" }

/-- **Counterexample to completeness for every block.**  The stored hash is not sent; the
receiver computes it. -/
theorem compact_relay_rehashes :
    unhashedBlock.txRoot =
      nonzeroCrates.merkleRoot (unhashedBlock.transactions.map nonzeroCrates.txid) ∧
    ∃ compact bytes compact' block, fromBlock nonzeroCrates (fun _ => 0) unhashedBlock = .ok compact ∧
      compact.encode = .ok bytes ∧ CompactBlock.parse nonzeroCrates bytes = .ok compact' ∧
      fillUp nonzeroCrates (fun _ => 0) compact' (viewOf [] "" unhashedBlock) =
        .ok (.complete block) ∧
      block.hash ≠ unhashedBlock.hash := by
  let hash := nonzeroCrates.blake3 zeroFields.bytes
  let hashed := Block.fromHeader (zeroFields.header nonzeroCrates) []
  have hown : nonzeroCrates.headerHash hashed.header = .ok hash :=
    bind_eq_ok.mpr ⟨zeroFields.bytes, zeroFields.serializeHeader_eq _, rfl⟩
  obtain ⟨bytes, hbytes⟩ := encode_small
    (ofBlock nonzeroCrates (fun _ => 0) unhashedBlock hash)
    (zeroFields.serializeHeader_eq "") zeroFields.length_bytes (Nat.zero_le _) rfl
  have hsame : (ofBlock nonzeroCrates (fun _ => 0) hashed hash).encode = .ok bytes := by
    rw [← hbytes]
    exact encode_congr ((zeroFields.serializeHeader_eq _).trans
      (zeroFields.serializeHeader_eq "").symm) rfl rfl rfl
  refine ⟨rfl, ofBlock nonzeroCrates (fun _ => 0) unhashedBlock hash, bytes,
    ofBlock nonzeroCrates (fun _ => 0) hashed hash, hashed, ?_, hbytes,
    parse_ofBlock (zeroFields.wellFormed _) (fun _ htx => absurd htx not_mem_nil) hsame, ?_, ?_⟩
  · exact bind_eq_ok.mpr
      ⟨hash, bind_eq_ok.mpr ⟨zeroFields.bytes, zeroFields.serializeHeader_eq "", rfl⟩, rfl⟩
  · rw [fillUp_ofBlock hown]
    rfl
  · intro h
    have hnil : hash.toList = [] := hexEncode_injective (h.trans rfl)
    exact absurd (congrArg List.length hnil) (by simp)

end CompactBlock
end Strangecoin
