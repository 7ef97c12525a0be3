import Strangecoin.CompactRelay
import Strangecoin.KnownMessages

/-! # Honest relay and violations

A peer that sends a block in compact form and answers the request for it truthfully is
charged a violation when the receiver's own mempool stands in the way: when the first
transaction with a short id of the block is another one, or when a transaction it counted
on has left the mempool before the answer came.
-/
namespace Strangecoin

namespace CompactBlock
variable {crates : Crates} {sipHash : List UInt8 → UInt64} {block : Block} {hash : Digest}

/-- Every other position resolves, by its first match, to the id that the block has there. -/
def Resolves (crates : Crates) (sipHash : List UInt8 → UInt64) (block : Block) (hash : Digest)
    (known : Nat → Bool) (view : ChainView) : Prop :=
  ∀ i tx, block.transactions[i]? = some tx → known i = false →
    (firstMatch crates sipHash (deriveNonce hash) view tx).map crates.txid = some (crates.txid tx)

/-- The positions that are known once the answer to a request has come. -/
def knownAfter (crates : Crates) (sipHash : List UInt8 → UInt64) (block : Block) (hash : Digest)
    (view : ChainView) (i : Nat) : Bool :=
  prefilledAt block.transactions i || (requested crates sipHash block hash view).contains i

/-- What is assembled of the block. -/
def assembled (crates : Crates) (sipHash : List UInt8 → UInt64) (block : Block) (hash : Digest)
    (known : Nat → Bool) (view : ChainView) : List Digest :=
  (filled known (firstMatch crates sipHash (deriveNonce hash) view)
    block.transactions).reduceOption.map crates.txid

section
variable {known : Nat → Bool} {view : ChainView}

theorem resolves_iff {txs : List Transaction}
    (hfilled : filled known (firstMatch crates sipHash (deriveNonce hash) view) block.transactions =
      txs.map some) :
    txs.map crates.txid = block.transactions.map crates.txid ↔
      Resolves crates sipHash block hash known view := by
  have hget : ∀ i tx, block.transactions[i]? = some tx → txs[i]? =
      if known i then some tx else firstMatch crates sipHash (deriveNonce hash) view tx := by
    intro i tx htx
    have h := congrArg (fun slots => slots[i]?) hfilled
    simp only [getElem?_filled, htx, Option.map_some, List.getElem?_map] at h
    cases hslot : txs[i]? with
    | none => rw [hslot] at h; exact absurd h nofun
    | some t => rw [hslot] at h; exact (Option.some.inj h).symm
  have hlength : txs.length = block.transactions.length := by
    have h := congrArg List.length hfilled
    simpa using h.symm
  constructor
  · intro hids i tx htx hknown
    have h := congrArg (fun ids => ids[i]?) hids
    simp only [List.getElem?_map, htx, hget i tx htx, hknown] at h
    simpa using h
  · intro hresolves
    apply List.ext_getElem?
    intro i
    rw [List.getElem?_map, List.getElem?_map]
    cases htx : block.transactions[i]? with
    | none =>
      have hi := List.getElem?_eq_none_iff.mp htx
      rw [List.getElem?_eq_none (by omega)]
    | some tx =>
      rw [hget i tx htx]
      cases hknown : known i with
      | true => rfl
      | false => exact hresolves i tx htx hknown

/-- Without a collision the root is right only for the ids of the block. -/
theorem rootMatches_iff {txs : List Transaction}
    (hroot : block.txRoot = crates.merkleRoot (block.transactions.map crates.txid))
    (hcollision : ¬ Collision crates.blake3 (crates.merklePreimages (txs.map crates.txid) ++
      crates.merklePreimages (block.transactions.map crates.txid)))
    (hlength : txs.length = block.transactions.length) :
    (∃ assembled, crates.assembleAndVerify block.header txs = .ok assembled) ↔
      txs.map crates.txid = block.transactions.map crates.txid := by
  constructor
  · rintro ⟨assembled, h⟩
    refine Crates.merkleRoot_inj hcollision (by simpa using hlength) ?_
    exact (assembleAndVerify_ok.mp h).1.trans hroot
  · intro h
    exact ⟨_, assembleAndVerify_ok.mpr ⟨h ▸ hroot.symm, rfl⟩⟩

/-- The block is assembled exactly if every other position resolves. -/
theorem assembles_iff
    (hroot : block.txRoot = crates.merkleRoot (block.transactions.map crates.txid))
    (hcollision : ¬ Collision crates.blake3 (crates.merklePreimages
      (assembled crates sipHash block hash known view) ++
      crates.merklePreimages (block.transactions.map crates.txid))) :
    (∃ txs, takeSlots (filled known (firstMatch crates sipHash (deriveNonce hash) view)
        block.transactions) = .ok txs ∧
      ∃ assembled, crates.assembleAndVerify block.header txs = .ok assembled) ↔
      Resolves crates sipHash block hash known view := by
  have hids : ∀ {txs}, filled known (firstMatch crates sipHash (deriveNonce hash) view)
      block.transactions = txs.map some →
      ((∃ assembled, crates.assembleAndVerify block.header txs = .ok assembled) ↔
        Resolves crates sipHash block hash known view) := by
    intro txs hfilled
    have hassembled : assembled crates sipHash block hash known view = txs.map crates.txid := by
      rw [assembled, hfilled, (takeSlots_ok.mp (okOr_slot.mpr rfl)).2.symm]
    have hlength : txs.length = block.transactions.length := by
      simpa using (congrArg List.length hfilled).symm
    rw [rootMatches_iff hroot (hassembled ▸ hcollision) hlength, resolves_iff hfilled]
  constructor
  · rintro ⟨txs, htxs, h⟩
    exact (hids (okOr_slot.mp htxs)).mp h
  · intro h
    have hnone : none ∉ filled known (firstMatch crates sipHash (deriveNonce hash) view)
        block.transactions := by
      rw [← missingOf_eq_nil_iff, missingOf_eq_nil]
      intro i tx htx hknown
      obtain ⟨t, ht, -⟩ := Option.map_eq_some_iff.mp (h i tx htx hknown)
      rw [ht]
      rfl
    have htxs := takeSlots_ok.mpr ⟨hnone, rfl⟩
    exact ⟨_, htxs, (hids (okOr_slot.mp htxs)).mpr h⟩

end

/-- **An honest peer.**  It sends `payload`, the compact form of a block with a well-formed
header and the root of its transactions, which survive their codec; and to the request of a
receiver with the mempool of `before` it sends `reply`, the answer of a node that has the
block. -/
structure HonestPeer (crates : Crates) (sipHash : List UInt8 → UInt64) (block : Block)
    (hash : Digest) (before : ChainView) (payload reply : List UInt8) : Prop where
  wellFormed : WellFormedHeader crates block.header
  headerHash : crates.headerHash block.header = .ok hash
  txRoot : block.txRoot = crates.merkleRoot (block.transactions.map crates.txid)
  survive : TxsSurvive block.transactions
  sends : ∃ compact, fromBlock crates sipHash block = .ok compact ∧ compact.encode = .ok payload
  answers : ∃ sender txn, sender.blockByHash (hexEncode hash.toList) = some block ∧
    handleGetBlockTxn ⟨hash, requested crates sipHash block hash before⟩ sender = some txn ∧
    txn.encode = .ok reply

section
variable {before : ChainView} {payload reply : List UInt8}
  (h : HonestPeer crates sipHash block hash before payload reply)
include h

theorem HonestPeer.parse :
    GossipMessage.parse crates payload = .ok (.compactBlock (ofBlock crates sipHash block hash)) := by
  obtain ⟨compact, hcompact, hpayload⟩ := h.sends
  have hsame : compact = ofBlock crates sipHash block hash :=
    Except.ok.inj (hcompact.symm.trans (bind_eq_ok.mpr ⟨hash, h.headerHash, rfl⟩))
  subst hsame
  have hparse := parse_ofBlock h.wellFormed h.survive hpayload
  obtain ⟨w, rfl, -⟩ := ((accepts_compactBlock crates).iff _ _).mp hparse
  change GossipMessage.compactBlock <$> CompactBlock.parse crates (MSG_COMPACT_BLOCK :: w) = _
  rw [hparse]
  rfl

/-- What is read from the answer. -/
theorem HonestPeer.parse_reply :
    ∃ txs, List.Forall₂ (fun i tx => block.transactions[i]? = some tx)
        (requested crates sipHash block hash before) txs ∧
      GossipMessage.parse crates reply = .ok (.blockTxn ⟨hash, txs⟩) := by
  obtain ⟨sender, txn, hsender, hanswer, hreply⟩ := h.answers
  obtain ⟨block', hblock', hrest⟩ := Option.bind_eq_some_iff.mp hanswer
  obtain rfl := Option.some.inj (hblock'.symm.trans hsender)
  obtain ⟨txs, htxs, hmade⟩ := Option.bind_eq_some_iff.mp hrest
  obtain rfl := Option.some.inj hmade
  obtain ⟨txs', htxs', hall⟩ := exists_answer
    (requested crates sipHash block' hash before) fun i hi => (mem_requested hi).imp fun _ h => h.1
  obtain rfl := Option.some.inj (htxs'.symm.trans htxs)
  refine ⟨_, hall, ?_⟩
  have hparse : BlockTxn.parse reply = .ok ⟨hash, txs'⟩ := by
    refine blockTxnCodec.roundTrip _ _ trivial (fun tx htx => h.survive tx ?_) hreply
    obtain ⟨i, -, hi⟩ := exists_of_forall₂ hall htx
    exact List.mem_of_getElem? hi
  obtain ⟨w, rfl, -⟩ := (accepts_blockTxn.iff _ _).mp hparse
  change GossipMessage.blockTxn <$> BlockTxn.parse (MSG_BLOCK_TXN :: w) = _
  rw [hparse]
  rfl

end

end CompactBlock

open CompactBlock

section
variable {crates : Crates} {sipHash : List UInt8 → UInt64} {block : Block} {hash : Digest}
  {self : Session} {before after : ChainView} {peer : NodeId} {now now' : Instant}
  {payload reply : List UInt8}

/-- The peer is charged neither for its compact block, which comes when the mempool is that
of `before`, nor for its answer to the request, if there is one, whatever the session and
the mempool, that of `after`, have become in between. -/
def Uncharged (crates : Crates) (sipHash : List UInt8 → UInt64) (block : Block) (hash : Digest)
    (self : Session) (before after : ChainView) (peer : NodeId) (now now' : Instant)
    (payload reply : List UInt8) : Prop :=
  ∃ first, self.dispatchGossip crates sipHash before peer now payload = .ok first ∧
    first.violations = self.violations ∧
    (requested crates sipHash block hash before ≠ [] → ∀ later : Session,
      later.pendingCompact[hash]? = first.pendingCompact[hash]? →
      later.Serves (later.dispatchGossip crates sipHash after peer now' reply))

section
variable (h : HonestPeer crates sipHash block hash before payload reply)
include h

theorem CompactBlock.HonestPeer.serves_payload :
    self.Serves (self.dispatchGossip crates sipHash before peer now payload) ↔
      ∃ outcome, fillUp crates sipHash (ofBlock crates sipHash block hash) before = .ok outcome := by
  have hheader : crates.headerHash (ofBlock crates sipHash block hash).header = .ok hash :=
    h.headerHash
  rw [Session.serves_dispatchGossip, h.parse, fillUp_isOk hheader]
  constructor
  · rintro ⟨_, ⟨⟩, hserves⟩
    exact (Session.serves_handleCompactBlock hheader).mp hserves
  · exact fun hfills => ⟨_, rfl, (Session.serves_handleCompactBlock hheader).mpr hfills⟩

theorem CompactBlock.HonestPeer.serves_reply
    (hpending : self.pendingCompact[hash]? = some (ofBlock crates sipHash block hash,
        ⟨hash, requested crates sipHash block hash before⟩)) :
    ∃ txs, List.Forall₂ (fun i tx => block.transactions[i]? = some tx)
        (requested crates sipHash block hash before) txs ∧
      (self.Serves (self.dispatchGossip crates sipHash after peer now reply) ↔
        ∃ assembled, applyBlockTxn crates sipHash (ofBlock crates sipHash block hash)
          (requested crates sipHash block hash before) ⟨hash, txs⟩ after = .ok assembled) := by
  obtain ⟨txs, htxs, hparse⟩ := h.parse_reply
  refine ⟨txs, htxs, ?_⟩
  rw [Session.serves_dispatchGossip, hparse, CompactBlock.applyBlockTxn_isOk]
  constructor
  · rintro ⟨_, ⟨⟩, hserves⟩
    exact Session.serves_handleBlockTxn.mp hserves _ _ hpending
  · intro hcompletes
    refine ⟨_, rfl, Session.serves_handleBlockTxn.mpr ?_⟩
    intro compact request hpending'
    obtain ⟨rfl, rfl⟩ := Prod.mk.inj (Option.some.inj (hpending'.symm.trans hpending))
    exact hcompletes

/-- The first frame, when nothing is missing. -/
theorem serves_complete (hcollision : ¬ Collision crates.blake3 (crates.merklePreimages
      (assembled crates sipHash block hash (prefilledAt block.transactions) before) ++
      crates.merklePreimages (block.transactions.map crates.txid)))
    (hnone : requested crates sipHash block hash before = []) :
    self.Serves (self.dispatchGossip crates sipHash before peer now payload) ↔
      Resolves crates sipHash block hash (prefilledAt block.transactions) before := by
  rw [← assembles_iff h.txRoot hcollision, h.serves_payload, fillUp_ofBlock h.headerHash,
    if_neg (not_not.mpr hnone)]
  have htaken := takeSlots_ok.mpr ⟨missingOf_eq_nil_iff.mp hnone, rfl⟩
  constructor
  · rintro ⟨outcome, houtcome⟩
    obtain ⟨assembled, hassembled, -⟩ := map_eq_ok.mp houtcome
    exact ⟨_, htaken, assembled, liftNet_eq_ok.mp hassembled⟩
  · rintro ⟨txs, htxs, assembled, hassembled⟩
    obtain rfl := Except.ok.inj (htxs.symm.trans htaken)
    exact ⟨_, map_eq_ok.mpr ⟨assembled, liftNet_eq_ok.mpr hassembled, rfl⟩⟩

variable (self peer now) in
/-- The first frame, when something is missing. -/
theorem dispatch_missing (hmissing : requested crates sipHash block hash before ≠ []) :
    ∃ first, self.dispatchGossip crates sipHash before peer now payload = .ok first ∧
      first.violations = self.violations ∧
      first.pendingCompact[hash]? = some (ofBlock crates sipHash block hash,
        ⟨hash, requested crates sipHash block hash before⟩) := by
  have hfill : fillUp crates sipHash (ofBlock crates sipHash block hash) before = _ :=
    (fillUp_ofBlock h.headerHash before).trans (if_pos hmissing)
  obtain ⟨sent, hsend⟩ := Session.send_of_not_panics self
    (not_panics_getBlockTxn ⟨hash, requested crates sipHash block hash before⟩)
  refine ⟨{ self with
    sent := sent
    pendingCompact := self.pendingCompact.insert hash _ }, ?_, rfl,
    Std.ExtTreeMap.getElem?_insert_self⟩
  unfold Session.dispatchGossip
  rw [h.parse]
  change self.handleCompactBlock crates sipHash before _ = _
  unfold Session.handleCompactBlock
  rw [hfill]
  exact bind_eq_ok.mpr ⟨_, hsend, bind_eq_ok.mpr ⟨hash, h.headerHash, rfl⟩⟩

theorem serves_reply (hcollision : ¬ Collision crates.blake3 (crates.merklePreimages (assembled crates sipHash block
      hash (knownAfter crates sipHash block hash before) after) ++
      crates.merklePreimages (block.transactions.map crates.txid)))
    (hpending : self.pendingCompact[hash]? = some (ofBlock crates sipHash block hash,
        ⟨hash, requested crates sipHash block hash before⟩)) :
    self.Serves (self.dispatchGossip crates sipHash after peer now reply) ↔
      Resolves crates sipHash block hash (knownAfter crates sipHash block hash before) after := by
  obtain ⟨txs, htxs, hserves⟩ := h.serves_reply hpending
  rw [← assembles_iff h.txRoot hcollision, hserves, applyBlockTxn_ofBlock h.headerHash htxs fun i hi =>
    (mem_requested hi).elim fun _ h => h.2]
  constructor
  · rintro ⟨assembled, hassembled⟩
    obtain ⟨txs', htxs', hverified⟩ := bind_eq_ok.mp hassembled
    exact ⟨txs', liftNet_eq_ok.mp htxs', assembled, liftNet_eq_ok.mp hverified⟩
  · rintro ⟨txs', htxs', assembled, hassembled⟩
    exact ⟨assembled, bind_eq_ok.mpr
      ⟨txs', liftNet_eq_ok.mpr htxs', liftNet_eq_ok.mpr hassembled⟩⟩

end

variable (self after peer now) in
/-- A transaction that was counted on and has left the mempool is charged to the peer. -/
theorem dispatch_evicted (h : HonestPeer crates sipHash block hash before payload reply)
    (hpending : self.pendingCompact[hash]? = some (ofBlock crates sipHash block hash,
        ⟨hash, requested crates sipHash block hash before⟩))
    {i : Nat} {tx : Transaction} (htx : block.transactions[i]? = some tx)
    (hknown : knownAfter crates sipHash block hash before i = false)
    (hevicted : firstMatch crates sipHash (deriveNonce hash) after tx = none) :
    ∃ second, self.dispatchGossip crates sipHash after peer now reply = .ok second ∧
      second.violations = self.violations + 1 := by
  obtain ⟨txs, htxs, hparse⟩ := h.parse_reply
  have hslots : none ∈ filled (knownAfter crates sipHash block hash before)
      (firstMatch crates sipHash (deriveNonce hash) after) block.transactions := by
    refine List.mem_of_getElem? (i := i) ?_
    rw [getElem?_filled, htx, Option.map_some, hknown]
    exact congrArg some hevicted
  unfold Session.dispatchGossip
  rw [hparse]
  change ∃ second, self.handleBlockTxn crates sipHash after ⟨hash, txs⟩ = .ok second ∧ _
  unfold Session.handleBlockTxn
  rw [hpending]
  dsimp only
  rw [applyBlockTxn_ofBlock h.headerHash htxs fun i hi => (mem_requested hi).elim fun _ h => h.2]
  cases htaken : takeSlots (filled
      (fun i => prefilledAt block.transactions i || (requested crates sipHash block hash
        before).contains i) (firstMatch crates sipHash (deriveNonce hash) after)
      block.transactions) with
  | ok txs => exact absurd hslots (takeSlots_ok.mp htaken).1
  | error e => exact ⟨_, rfl, rfl⟩

end

/-! ### Two exchanges -/

/-- The only string that is hashed for the root of one id. -/
theorem not_collision_singleton (tx : Transaction) {ids : List Digest}
    (hids : ids = [] ∨ ids = [nonzeroCrates.txid tx]) :
    ¬ Collision nonzeroCrates.blake3 (nonzeroCrates.merklePreimages ids ++
      nonzeroCrates.merklePreimages [nonzeroCrates.txid tx]) := by
  have hall : ∀ z ∈ nonzeroCrates.merklePreimages ids ++
      nonzeroCrates.merklePreimages [nonzeroCrates.txid tx],
      z = pairPreimage (nonzeroCrates.txid tx, nonzeroCrates.txid tx) := by
    rcases hids with rfl | rfl <;> simp [Crates.merklePreimages]
  rintro ⟨x, hx, y, hy, hne, -⟩
  exact hne ((hall x hx).trans (hall y hy).symm)

theorem honestPeer_relayed : ∃ payload reply, HonestPeer nonzeroCrates (fun _ => 0) relayedBlock
    relayedHash idleView payload reply := by
  obtain ⟨payload, hpayload⟩ := encode_relayed fun _ => 0
  obtain ⟨reply, hreply⟩ := encode_answer relayedHash plainTransfer (by decide)
  refine ⟨payload, reply, relayedFields.wellFormed nonzeroCrates, headerHash_relayed, rfl,
    survive_plainTransfer, ⟨_, bind_eq_ok.mpr ⟨_, headerHash_relayed, rfl⟩, hpayload⟩,
    viewOf [] (hexEncode relayedHash.toList) relayedBlock, _, if_pos rfl, ?_, hreply⟩
  exact Option.bind_eq_some_iff.mpr ⟨relayedBlock, if_pos rfl, rfl⟩

/-- The transfer with the nonce after that of `plainTransfer`. -/
def nextTransfer : Transaction := .transfer { flagged with isCoinbase := false, nonce := 2 }

theorem survive_nextTransfer : TxsSurvive [plainTransfer, nextTransfer] := by
  intro tx htx
  rcases List.mem_cons.mp htx with rfl | htx
  · exact survive_plainTransfer _ (List.mem_singleton.mpr rfl)
  · obtain rfl := List.mem_singleton.mp htx
    have hwire : OnWire (transferForm { flagged with isCoinbase := false, nonce := 2 } 0)
        nextTransfer :=
      .transfer _ 0 ⟨by decide, by decide, by decide⟩ (by simp)
    rw [nextTransfer, serialize_transfer]
    exact hwire.deserialize

def evictedRoot : Digest :=
  nonzeroCrates.merkleRoot [nonzeroCrates.txid plainTransfer, nonzeroCrates.txid nextTransfer]

def evictedFields : HeaderFields := { zeroFields with txRoot := evictedRoot }

def evictedBlock : Block :=
  Block.fromHeader (evictedFields.header nonzeroCrates) [plainTransfer, nextTransfer]

def evictedHash : Digest := nonzeroCrates.blake3 evictedFields.bytes

theorem headerHash_evicted : nonzeroCrates.headerHash evictedBlock.header = .ok evictedHash :=
  bind_eq_ok.mpr ⟨evictedFields.bytes, evictedFields.serializeHeader_eq _, rfl⟩

/-- The bytes of an id that the nonce does not touch. -/
def untouchedBytes (bytes : List UInt8) : UInt64 :=
  ((bytes.drop 8).take 8).foldl (fun n b => n * 256 + b.toUInt64) 0

/-- The mempool before the compact block came has the first transaction. -/
def poolBefore : ChainView := viewOf [plainTransfer] "" evictedBlock

theorem requested_evicted : requested nonzeroCrates untouchedBytes evictedBlock evictedHash
    poolBefore = [1] := by
  decide +kernel

theorem honestPeer_evicted : ∃ payload reply, HonestPeer nonzeroCrates untouchedBytes evictedBlock
    evictedHash poolBefore payload reply := by
  obtain ⟨payload, hpayload⟩ := encode_small
    (ofBlock nonzeroCrates untouchedBytes evictedBlock evictedHash)
    (evictedFields.serializeHeader_eq _) evictedFields.length_bytes
    (Nat.le_of_ble_eq_true rfl) rfl
  obtain ⟨reply, hreply⟩ := encode_answer evictedHash nextTransfer (by decide)
  refine ⟨payload, reply, evictedFields.wellFormed nonzeroCrates, headerHash_evicted, rfl,
    survive_nextTransfer, ⟨_, bind_eq_ok.mpr ⟨_, headerHash_evicted, rfl⟩, hpayload⟩,
    viewOf [] (hexEncode evictedHash.toList) evictedBlock, _, if_pos rfl, ?_, hreply⟩
  rw [requested_evicted]
  exact Option.bind_eq_some_iff.mpr ⟨evictedBlock, if_pos rfl, rfl⟩

end Strangecoin
