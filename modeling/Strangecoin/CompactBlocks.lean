import Strangecoin.TxRoot
import Strangecoin.WireCodecs

/-! # Compact blocks

A block is sent as its header and one short id for each transaction; the coinbase is sent
along.  The receiver looks the others up in its mempool by their short ids, asks for the
positions it did not find and fills them with the answer.  What it has assembled must have
the root of the header (`gossip/compact_blocks.rs`).
-/
namespace Strangecoin
open List

/-- What a session reads of the node (`BlockchainView`). -/
structure ChainView where
  mempoolTxs : List Transaction
  mempoolTx : Digest → Option Transaction
  mempoolContains : Digest → Bool
  blockByHash : String → Option Block
  chainContainsBlock : String → Bool
  headersFromHeight : UInt64 → Nat → List BlockHeader
  blocksByHashes : List Digest → Nat → List Block

def liftNet {α : Type} : Except NetError α → Except NetFailure α
  | .ok a => .ok a
  | .error e => .error (.error e)

inductive FillOutcome where
  | complete (block : Block)
  | missing (request : GetBlockTxn)

/-- The first eight bytes of the hash, little-endian. -/
def deriveNonce (blockHash : Digest) : UInt64 := UInt64.ofNat (leNat (blockHash.toList.take 8))

namespace CompactBlock

section
variable (crates : Crates) (sipHash : List UInt8 → UInt64)

/-- SipHash-2-4 with the keys zero, of the id with the nonce in its first eight bytes. -/
def shortId (txid : Digest) (blockNonce : UInt64) : ShortTxId :=
  let head := List.zipWith (· ^^^ ·) (txid.toList.take 8) (toLeBytes blockNonce)
  let hash := toLeBytes (sipHash (head ++ txid.toList.drop 8))
  Vector.ofFn fun i => hash.getD i 0

/-- The coinbase, if the block starts with one. -/
def prefilledOf (txs : List Transaction) : List (Nat × Transaction) :=
  match txs.head? with
  | some first => if first.isCoinbase then [(0, first)] else []
  | none => []

/-- The compact form of a block with the hash `blockHash`. -/
def ofBlock (block : Block) (blockHash : Digest) : CompactBlock :=
  let nonce := deriveNonce blockHash
  { header := block.header
    nonce := nonce
    shortIds := block.transactions.map fun tx => shortId sipHash (crates.txid tx) nonce
    prefilledTxs := prefilledOf block.transactions }

def fromBlock (block : Block) : Except Failure CompactBlock := do
  let blockHash ← crates.headerHash block.header
  return ofBlock crates sipHash block blockHash

def findMempoolTxByShortId (sid : ShortTxId) (nonce : UInt64) (view : ChainView) :
    Option Transaction :=
  view.mempoolTxs.find? fun tx => shortId sipHash (crates.txid tx) nonce = sid

/-- The slots with the prefilled transactions; the others are empty. -/
def placePrefilled (compact : CompactBlock) : Except NetError (List (Option Transaction)) :=
  compact.prefilledTxs.foldlM (fun slots (index, tx) => do
    guardWith (index < compact.shortIds.length) (.protocol ("compact block: prefilled index " ++
      toString index ++ " out of range (" ++ toString compact.shortIds.length ++ ")"))
    return slots.set index (some tx)) (List.replicate compact.shortIds.length none)

/-- The positions that are still empty. -/
def missingOf (slots : List (Option Transaction)) : List Nat :=
  (List.range slots.length).filter fun i => (slots.getD i none).isNone

/-- A slot that is not prefilled is looked up in the mempool. -/
def lookUp (compact : CompactBlock) (view : ChainView) (slots : List (Option Transaction)) :
    List (Option Transaction) :=
  List.zipWith (fun slot sid =>
    slot <|> findMempoolTxByShortId crates sipHash sid compact.nonce view) slots compact.shortIds

def fillUp (compact : CompactBlock) (view : ChainView) : Except NetFailure FillOutcome := do
  let prefilled ← liftNet compact.placePrefilled
  let slots := lookUp crates sipHash compact view prefilled
  let missing := missingOf slots
  if missing ≠ [] then
    let blockHash ← liftPanic (crates.headerHash compact.header)
    return .missing ⟨blockHash, missing⟩
  else
    let block ← liftNet (crates.assembleAndVerify compact.header slots.reduceOption)
    return .complete block

/-- One transaction of the answer, at the position that was asked for. -/
def placeMissing (compact : CompactBlock) (prefilled slots : List (Option Transaction))
    (entry : Nat × Transaction) : Except NetError (List (Option Transaction)) := do
  let (idx, tx) := entry
  guardWith (idx < compact.shortIds.length) (.protocol ("block_txn: index " ++ toString idx ++
    " out of range (" ++ toString compact.shortIds.length ++ ")"))
  guardWith ((prefilled.getD idx none).isNone = true) (.protocol ("block_txn: index " ++ toString idx ++
    " was prefilled, not missing"))
  guardWith (compact.shortIds[idx]? = some (shortId sipHash (crates.txid tx) compact.nonce))
    (.protocol ("block_txn: short id mismatch at index " ++ toString idx))
  return slots.set idx (some tx)

/-- The transactions of the slots, none of which may be empty. -/
def takeSlots (slots : List (Option Transaction)) : Except NetError (List Transaction) :=
  slots.zipIdx.mapM fun (slot, i) =>
    okOr slot (.protocol ("block_txn: index " ++ toString i ++ " still missing after apply"))

def applyBlockTxn (compact : CompactBlock) (missingIndices : List Nat) (txn : BlockTxn)
    (view : ChainView) : Except NetFailure Block := do
  ensureFits (txn.txs.length = missingIndices.length) (.protocol ("block_txn: " ++
    toString txn.txs.length ++ " txs for " ++ toString missingIndices.length ++ " indices"))
  let blockHash ← liftPanic (crates.headerHash compact.header)
  ensureFits (blockHash = txn.blockHash)
    (.protocol "block_txn: block hash does not match compact header")
  let prefilled ← liftNet compact.placePrefilled
  let slots ← liftNet ((missingIndices.zip txn.txs).foldlM
    (placeMissing crates sipHash compact prefilled) prefilled)
  let txs ← liftNet (takeSlots (lookUp crates sipHash compact view slots))
  liftNet (crates.assembleAndVerify compact.header txs)

end

end CompactBlock

/-- The transactions at the positions that are asked for. -/
def handleGetBlockTxn (request : GetBlockTxn) (view : ChainView) : Option BlockTxn := do
  let block ← view.blockByHash (hexEncode request.blockHash.toList)
  let txs ← request.missingIndices.mapM fun idx => block.transactions[idx]?
  return ⟨request.blockHash, txs⟩

/-! ### What the slots hold -/

theorem liftNet_eq_ok {α : Type} {x : Except NetError α} {a : α} :
    liftNet x = .ok a ↔ x = .ok a := by
  cases x <;> simp [liftNet]

/-- The slots of a block: the transaction itself at the known positions, and what is found
for it at the others. -/
def filled (known : Nat → Bool) (found : Transaction → Option Transaction)
    (txs : List Transaction) : List (Option Transaction) :=
  txs.mapIdx fun i tx => if known i then some tx else found tx

section
variable {known : Nat → Bool} {found : Transaction → Option Transaction} {txs : List Transaction}

@[simp] theorem length_filled : (filled known found txs).length = txs.length := length_mapIdx

theorem getElem?_filled (i : Nat) : (filled known found txs)[i]? =
    txs[i]?.map fun tx => if known i then some tx else found tx := getElem?_mapIdx

theorem mem_missingOf {i : Nat} : i ∈ CompactBlock.missingOf (filled known found txs) ↔
    ∃ tx, txs[i]? = some tx ∧ known i = false ∧ found tx = none := by
  simp only [CompactBlock.missingOf, mem_filter, mem_range, length_filled,
    getD_eq_getElem?_getD, getElem?_filled]
  cases htx : txs[i]? with
  | none => simpa using getElem?_eq_none_iff.mp htx
  | some tx =>
    have hi := (List.getElem?_eq_some_iff.mp htx).1
    cases known i <;> simp [hi]

theorem missingOf_eq_nil : CompactBlock.missingOf (filled known found txs) = [] ↔
    ∀ i tx, txs[i]? = some tx → known i = false → (found tx).isSome = true := by
  rw [eq_nil_iff_forall_not_mem]
  constructor
  · intro h i tx htx hknown
    by_contra hnone
    exact h i (mem_missingOf.mpr ⟨tx, htx, hknown, by simpa using hnone⟩)
  · intro h i hi
    obtain ⟨tx, htx, hknown, hnone⟩ := mem_missingOf.mp hi
    have hsome := h i tx htx hknown
    rw [hnone] at hsome
    exact absurd hsome nofun

/-- A transaction that is placed makes its position known. -/
theorem set_filled {idx : Nat} {tx : Transaction} (htx : txs[idx]? = some tx) :
    (filled known found txs).set idx (some tx) =
      filled (fun i => known i || i == idx) found txs := by
  apply ext_getElem?
  intro i
  rw [getElem?_set, getElem?_filled, getElem?_filled, length_filled]
  by_cases hi : idx = i
  · subst hi
    have hlt := (List.getElem?_eq_some_iff.mp htx).1
    rw [htx]
    simp [hlt]
  · have hne : (i == idx) = false := by simpa using fun h => hi h.symm
    simp [hi, hne]

theorem filled_congr {known' : Nat → Bool} {found' : Transaction → Option Transaction}
    (h : ∀ i tx, txs[i]? = some tx →
      (if known i then some tx else found tx) = if known' i then some tx else found' tx) :
    filled known found txs = filled known' found' txs := by
  apply ext_getElem?
  intro i
  rw [getElem?_filled, getElem?_filled]
  cases htx : txs[i]? with
  | none => rfl
  | some tx => exact congrArg some (h i tx htx)

/-- Slots that hold the transactions of the block. -/
theorem filled_eq_map (h : ∀ i tx, txs[i]? = some tx → known i = false → found tx = some tx) :
    filled known found txs = txs.map some := by
  apply ext_getElem?
  intro i
  rw [getElem?_filled, getElem?_map]
  cases htx : txs[i]? with
  | none => rfl
  | some tx =>
    cases hknown : known i with
    | true => simp
    | false => simp [h i tx htx hknown]

end

theorem okOr_slot {slots : List (Option Transaction)} {txs : List Transaction} :
    CompactBlock.takeSlots slots = .ok txs ↔ slots = txs.map some := by
  unfold CompactBlock.takeSlots
  rw [mapM_ok]
  suffices h : ∀ k, List.Forall₂ (fun (x : Option Transaction × Nat) tx => okOr x.1
      (NetError.protocol ("block_txn: index " ++ toString x.2 ++ " still missing after apply")) =
      .ok tx) (slots.zipIdx k) txs ↔ slots = txs.map some from h 0
  intro k
  induction slots generalizing txs k with
  | nil => cases txs <;> simp
  | cons slot slots ih =>
    cases txs with
    | nil => simp
    | cons tx txs =>
      rw [zipIdx_cons, forall₂_cons, ih, okOr_eq_ok, map_cons, List.cons.injEq]

namespace CompactBlock
variable (crates : Crates) (sipHash : List UInt8 → UInt64)

/-- The positions that are sent along. -/
def prefilledAt (txs : List Transaction) (i : Nat) : Bool :=
  i == 0 && txs.head?.any Transaction.isCoinbase

/-- The first transaction of the mempool with the short id of the transaction. -/
def firstMatch (nonce : UInt64) (view : ChainView) (tx : Transaction) : Option Transaction :=
  findMempoolTxByShortId crates sipHash (shortId sipHash (crates.txid tx) nonce) nonce view

variable (block : Block) (hash : Digest)

theorem placePrefilled_ofBlock : (ofBlock crates sipHash block hash).placePrefilled =
    .ok (filled (prefilledAt block.transactions) (fun _ => none) block.transactions) := by
  have hempty : ∀ txs : List Transaction,
      List.replicate txs.length none = filled (fun _ => false) (fun _ => none) txs := by
    intro txs
    apply ext_getElem?
    intro i
    rw [getElem?_filled, getElem?_replicate]
    by_cases hi : i < txs.length
    · simp [hi]
    · simp [hi]
  unfold placePrefilled
  simp only [ofBlock, length_map, hempty]
  cases htxs : block.transactions with
  | nil => rfl
  | cons tx rest =>
    cases hcoinbase : tx.isCoinbase with
    | false =>
      simp only [prefilledOf, head?_cons, hcoinbase, Bool.false_eq_true, if_false,
        foldlM_nil]
      exact congrArg Except.ok (filled_congr fun i _ _ => by simp [prefilledAt, hcoinbase])
    | true =>
      simp only [prefilledOf, head?_cons, hcoinbase, if_true, foldlM_cons,
        foldlM_nil]
      refine bind_eq_ok.mpr ⟨_, bind_eq_ok.mpr
        ⟨(), guardWith_eq_ok.mpr (Nat.succ_pos _), rfl⟩, ?_⟩
      rw [set_filled rfl]
      exact congrArg Except.ok (filled_congr fun i _ _ => by simp [prefilledAt, hcoinbase])

theorem lookUp_ofBlock (known : Nat → Bool) (view : ChainView) :
    lookUp crates sipHash (ofBlock crates sipHash block hash) view
      (filled known (fun _ => none) block.transactions) =
      filled known (firstMatch crates sipHash (deriveNonce hash) view) block.transactions := by
  apply ext_getElem?
  intro i
  unfold lookUp
  rw [getElem?_zipWith, getElem?_filled, getElem?_filled]
  simp only [ofBlock, getElem?_map]
  cases htx : block.transactions[i]? with
  | none => rfl
  | some tx => cases known i <;> simp [firstMatch]

/-- **The positions of the answer.**  The transactions of the block at positions that were
not prefilled are placed there. -/
theorem placeMissing_ofBlock {known : Nat → Bool} {idxs : List Nat} {txs : List Transaction}
    (hidxs : List.Forall₂ (fun idx tx => block.transactions[idx]? = some tx) idxs txs)
    (hopen : ∀ idx ∈ idxs, prefilledAt block.transactions idx = false) :
    (idxs.zip txs).foldlM (placeMissing crates sipHash (ofBlock crates sipHash block hash)
      (filled (prefilledAt block.transactions) (fun _ => none) block.transactions))
      (filled known (fun _ => none) block.transactions) =
    .ok (filled (fun i => known i || idxs.contains i) (fun _ => none) block.transactions) := by
  induction hidxs generalizing known with
  | nil =>
    refine congrArg Except.ok (filled_congr fun i _ _ => ?_)
    simp
  | @cons idx tx idxs txs htx _ ih =>
    obtain ⟨hidx, hidxs⟩ := forall_mem_cons.mp hopen
    have hlt := (List.getElem?_eq_some_iff.mp htx).1
    rw [zip_cons_cons, foldlM_cons]
    refine bind_eq_ok.mpr ⟨filled (fun i => known i || i == idx) (fun _ => none)
      block.transactions, ?_, ?_⟩
    · refine bind_eq_ok.mpr ⟨(), guardWith_eq_ok.mpr ?_, bind_eq_ok.mpr
        ⟨(), guardWith_eq_ok.mpr ?_, bind_eq_ok.mpr ⟨(), guardWith_eq_ok.mpr ?_, ?_⟩⟩⟩
      · simpa [ofBlock] using hlt
      · simp [getD_eq_getElem?_getD, getElem?_filled, htx, hidx]
      · simp [ofBlock, htx]
      · exact congrArg Except.ok (set_filled htx)
    · rw [ih hidxs]
      refine congrArg Except.ok (filled_congr fun i _ _ => ?_)
      simp [Bool.or_assoc]

/-- What a receiver with the mempool of `view` asks for. -/
def requested (view : ChainView) : List Nat :=
  missingOf (filled (prefilledAt block.transactions)
    (firstMatch crates sipHash (deriveNonce hash) view) block.transactions)

variable {crates sipHash block hash}

theorem fillUp_ofBlock (hhash : crates.headerHash block.header = .ok hash) (view : ChainView) :
    fillUp crates sipHash (ofBlock crates sipHash block hash) view =
      if requested crates sipHash block hash view ≠ [] then
        .ok (.missing ⟨hash, requested crates sipHash block hash view⟩)
      else FillOutcome.complete <$> liftNet (crates.assembleAndVerify block.header
        (filled (prefilledAt block.transactions)
          (firstMatch crates sipHash (deriveNonce hash) view) block.transactions).reduceOption) := by
  unfold fillUp
  rw [placePrefilled_ofBlock]
  change (if missingOf (lookUp crates sipHash (ofBlock crates sipHash block hash) view _) ≠ [] then
    _ else _) = _
  rw [lookUp_ofBlock]
  change (if requested crates sipHash block hash view ≠ [] then _ else _) = _
  split
  · change (liftPanic (crates.headerHash block.header) >>= _) = _
    rw [hhash]
    rfl
  · rfl

theorem applyBlockTxn_ofBlock (hhash : crates.headerHash block.header = .ok hash)
    {idxs : List Nat} {txs : List Transaction}
    (hidxs : List.Forall₂ (fun idx tx => block.transactions[idx]? = some tx) idxs txs)
    (hopen : ∀ idx ∈ idxs, prefilledAt block.transactions idx = false) (view : ChainView) :
    applyBlockTxn crates sipHash (ofBlock crates sipHash block hash) idxs ⟨hash, txs⟩ view = (do
      let txs ← liftNet (takeSlots (filled
        (fun i => prefilledAt block.transactions i || idxs.contains i)
        (firstMatch crates sipHash (deriveNonce hash) view) block.transactions))
      liftNet (crates.assembleAndVerify block.header txs)) := by
  unfold applyBlockTxn
  rw [placePrefilled_ofBlock]
  change (ensureFits (txs.length = idxs.length) _ >>= fun _ =>
    liftPanic (crates.headerHash block.header) >>= _) = _
  rw [hhash, ensureFits, guardWith, if_pos hidxs.length_eq.symm]
  change (ensureFits (hash = hash) _ >>= _) = _
  rw [ensureFits, guardWith, if_pos rfl]
  change (liftNet ((idxs.zip txs).foldlM _ _) >>= _) = _
  rw [placeMissing_ofBlock crates sipHash block hash hidxs hopen]
  change (liftNet (takeSlots (lookUp crates sipHash _ view _)) >>= _) = _
  rw [lookUp_ofBlock]
  rfl

end CompactBlock

end Strangecoin
