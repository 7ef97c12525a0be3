import Strangecoin.CompactBlocks
import Strangecoin.Erlay
import Strangecoin.SyncInbox

/-! # The dispatch of a session

One frame of a session is charged to the rate limiter, decoded and handled
(`peer/connection_loop.rs`): requests of the synchronisation are answered at once, all
other known tags go to the gossip layer (`gossip/mod.rs`, `gossip/broadcast.rs`), and
unknown ones are ignored.  An encoder that stops with an error sends nothing.
-/
namespace Strangecoin

/-! ### Inventories of the peers -/

def KNOWN_SET_CAP : Nat := 4096

/-- What each peer is known to have. -/
structure GossipState where
  known : HashMap NodeId (List InventoryItem)

namespace GossipState

/-- A full set is cleared first. -/
def markKnown (state : GossipState) (peer : NodeId) (item : InventoryItem) : GossipState :=
  let set := state.known[peer]?.getD []
  let set := if KNOWN_SET_CAP ≤ set.length then [] else set
  ⟨state.known.insert peer (if item ∈ set then set else item :: set)⟩

def knows (state : GossipState) (peer : NodeId) (item : InventoryItem) : Bool :=
  state.known[peer]?.any fun set => item ∈ set

end GossipState

/-! ### Messages -/

inductive GossipMessage where
  | inv (items : List InventoryItem)
  | getData (items : List InventoryItem)
  | tx (tx : Transaction)
  | block (block : Block)
  | notFound (items : List InventoryItem)
  | compactBlock (compact : CompactBlock)
  | getBlockTxn (request : GetBlockTxn)
  | blockTxn (txn : BlockTxn)
  | erlayReconcile (message : ErlayReconcile)

namespace GossipMessage

def encode : GossipMessage → Except NetFailure (List UInt8)
  | .inv items => encodeInv items
  | .getData items => encodeGetData items
  | .tx t => encodeTx t
  | .block b => encodeBlocks [b]
  | .notFound items => encodeNotFound items
  | .compactBlock compact => compact.encode
  | .getBlockTxn request => request.encode
  | .blockTxn txn => txn.encode
  | .erlayReconcile message => message.encode

/-- A message of blocks with one block in it. -/
def parseBlock (crates : Crates) (bytes : List UInt8) : Except NetError Block := do
  match ← parseBlocks crates bytes with
  | [b] => return b
  | blocks => .error (.protocol ("gossip block message: count " ++ toString blocks.length ++ " != 1"))

def parse (crates : Crates) (bytes : List UInt8) : Except NetError GossipMessage :=
  match bytes with
  | [] => .error (.protocol "gossip: empty payload")
  | tag :: _ =>
    if tag = MSG_INV then inv <$> parseInv bytes
    else if tag = MSG_GET_DATA then getData <$> parseGetData bytes
    else if tag = MSG_TX then tx <$> parseTx bytes
    else if tag = MSG_BLOCKS then block <$> parseBlock crates bytes
    else if tag = MSG_NOTFOUND then notFound <$> parseNotFound bytes
    else if tag = MSG_COMPACT_BLOCK then compactBlock <$> CompactBlock.parse crates bytes
    else if tag = MSG_GET_BLOCK_TXN then getBlockTxn <$> GetBlockTxn.parse bytes
    else if tag = MSG_BLOCK_TXN then blockTxn <$> BlockTxn.parse bytes
    else if tag = MSG_ERLAY_RECONCILE then erlayReconcile <$> ErlayReconcile.parse bytes
    else .error (.protocol ("gossip: unknown message tag 0x" ++ hexEncode [tag]))

end GossipMessage

def KNOWN_TAGS : List UInt8 :=
  [MSG_GET_HEADERS, MSG_HEADERS, MSG_GET_BLOCKS, MSG_BLOCKS, MSG_ADDR, MSG_INV, MSG_GET_DATA,
   MSG_TX, MSG_COMPACT_BLOCK, MSG_NOTFOUND, MSG_GET_BLOCK_TXN, MSG_BLOCK_TXN, MSG_ERLAY_RECONCILE]

inductive InboundMessage where
  | getHeaders (fromHeight : UInt64)
  | getBlocks (hashes : List Digest)
  | knownTag (tag : UInt8)
  | unknownMessage (bytes : List UInt8)

def decodeMessage (bytes : List UInt8) : Except NetError InboundMessage :=
  match bytes with
  | [] => .ok (.unknownMessage bytes)
  | tag :: _ =>
    if tag = MSG_GET_HEADERS then .getHeaders <$> parseGetHeaders bytes
    else if tag = MSG_GET_BLOCKS then .getBlocks <$> parseGetBlocks bytes
    else if tag ∈ KNOWN_TAGS then .ok (.knownTag tag)
    else .ok (.unknownMessage bytes)

/-! ### Handlers of inventories -/

/-- What the node does not have is asked for. -/
def handleInv (items : List InventoryItem) (peer : NodeId) (state : GossipState)
    (view : ChainView) : List GossipMessage × GossipState :=
  let state := items.foldl (fun state item => state.markKnown peer item) state
  let missing := items.filter fun item =>
    !match item.kind with
    | .tx => view.mempoolContains item.hash
    | .block => view.chainContainsBlock (hexEncode item.hash.toList)
  (if missing = [] then [] else [.getData missing], state)

/-- What the node has for an item. -/
def ChainView.lookUp (view : ChainView) (item : InventoryItem) : Option GossipMessage :=
  match item.kind with
  | .tx => (view.mempoolTx item.hash).map .tx
  | .block => (view.blockByHash (hexEncode item.hash.toList)).map .block

def handleGetData (items : List InventoryItem) (peer : NodeId) (state : GossipState)
    (view : ChainView) : List GossipMessage × GossipState :=
  let out := items.filterMap view.lookUp
  let missing := items.filter fun item => (view.lookUp item).isNone
  let state := (items.filter fun item => (view.lookUp item).isSome).foldl
    (fun state item => state.markKnown peer item) state
  (if missing = [] then out else out ++ [.notFound missing], state)

/-- A transaction that is mirrored into the set of known ones. -/
def ReconciliationState.noteNewTx (state : ReconciliationState) (txid : Digest) :
    ReconciliationState :=
  if h : txid ∈ state.knownSet.elems then state
  else { state with
    knownSet := ⟨txid :: state.knownSet.elems, List.nodup_cons.mpr ⟨h, state.knownSet.nodup⟩⟩
    newTxsSinceReconcile := saturatingAdd state.newTxsSinceReconcile 1 }

/-! ### Sessions -/

/-- What the frames of a session change; `violations` counts the protocol violations that
are recorded for the peer. -/
structure Session where
  pendingCompact : HashMap Digest (CompactBlock × GetBlockTxn)
  gossip : GossipState
  reconciliation : ReconciliationState
  inbox : SyncEngine Unit
  sent : List (List UInt8)
  violations : Nat

namespace Session

/-- `send_or_log` of an encoded message. -/
def send (self : Session) : Except NetFailure (List UInt8) → Except Failure Session
  | .ok out => .ok { self with sent := self.sent ++ [out] }
  | .error (.error _) => .ok self
  | .error (.panic f) => .error f

def sendAll (self : Session) (messages : List (Except NetFailure (List UInt8))) :
    Except Failure Session :=
  messages.foldlM send self

def recordProtocolViolation (self : Session) : Session :=
  { self with violations := self.violations + 1 }

section
variable (crates : Crates) (sipHash : List UInt8 → UInt64)

/-- Whether the message was queued. -/
def pushInbound (self : Session) (msg : Incoming) : Bool × Session :=
  let (outcome, inbox) := self.inbox.enqueue crates msg
  (outcome = .queued, { self with inbox := inbox })

/-- Inventories of at most `MAX_INV_BATCH` items, without those the peer is known to have. -/
def freshBatches (self : Session) (peer : NodeId) (txids : List Digest) :
    List (Except NetFailure (List UInt8)) :=
  let batches := (txids.toChunks MAX_INV_BATCH).map fun chunk =>
    (chunk.map (InventoryItem.mk .tx)).filter fun item => !self.gossip.knows peer item
  (batches.filter (· ≠ [])).map encodeInv

def handleErlayReconcile (self : Session) (view : ChainView) (peer : NodeId) (now : Instant)
    (message : ErlayReconcile) : Except Failure Session := do
  let (outcome, reconciliation) := self.reconciliation.reconcileAt peer message.sketch now
  let self := { self with reconciliation := reconciliation }
  let replySketch :=
    if message.respond then reconciliation.peerState[peer]?.map PeerReconciliation.lastSketch
    else none
  let txids := match outcome with
    | .ok txids => txids
    -- Full relay: everything that is pending.
    | .error _ => dedupList (sortList (view.mempoolTxs.map crates.txid))
  let self ← self.sendAll (self.freshBatches peer txids)
  match replySketch with
  | some sketch => self.send (ErlayReconcile.encode ⟨false, sketch⟩)
  | none => .ok self

def handleCompactBlock (self : Session) (view : ChainView) (compact : CompactBlock) :
    Except Failure Session :=
  match compact.fillUp crates sipHash view with
  | .ok (.complete block) => .ok (self.pushInbound crates (.newBlock block)).2
  | .ok (.missing request) => do
    let self ← self.send request.encode
    let hash ← crates.headerHash compact.header
    return { self with pendingCompact := self.pendingCompact.insert hash (compact, request) }
  | .error (.error _) => .ok self.recordProtocolViolation
  | .error (.panic f) => .error f

def handleBlockTxn (self : Session) (view : ChainView) (txn : BlockTxn) : Except Failure Session :=
  match self.pendingCompact[txn.blockHash]? with
  | none => .ok self
  | some (compact, request) =>
    let self := { self with pendingCompact := self.pendingCompact.erase txn.blockHash }
    match compact.applyBlockTxn crates sipHash request.missingIndices txn view with
    | .ok block => .ok (self.pushInbound crates (.newBlock block)).2
    | .error (.error _) => .ok self.recordProtocolViolation
    | .error (.panic f) => .error f

def handleGossip (self : Session) (view : ChainView) (peer : NodeId) (now : Instant) :
    GossipMessage → Except Failure Session
  | .inv items =>
    let (responses, gossip) := handleInv items peer self.gossip view
    { self with gossip := gossip }.sendAll (responses.map GossipMessage.encode)
  | .getData items =>
    let (responses, gossip) := handleGetData items peer self.gossip view
    { self with gossip := gossip }.sendAll (responses.map GossipMessage.encode)
  | .tx tx =>
    let (queued, self) := self.pushInbound crates (.newTx tx)
    .ok (if queued then
      { self with reconciliation := self.reconciliation.noteNewTx (crates.txid tx) } else self)
  | .block block => .ok (self.pushInbound crates (.newBlock block)).2
  | .notFound _ => .ok self
  | .compactBlock compact => self.handleCompactBlock crates sipHash view compact
  | .getBlockTxn request =>
    match handleGetBlockTxn request view with
    | some response => self.send response.encode
    | none => .ok self
  | .blockTxn txn => self.handleBlockTxn crates sipHash view txn
  | .erlayReconcile message => self.handleErlayReconcile crates view peer now message

def dispatchGossip (self : Session) (view : ChainView) (peer : NodeId) (now : Instant)
    (payload : List UInt8) : Except Failure Session :=
  match GossipMessage.parse crates payload with
  | .ok message => self.handleGossip crates sipHash view peer now message
  | .error _ => .ok self.recordProtocolViolation

/-- What the rate limiter says to a frame. -/
inductive RateVerdict where
  | ok
  | exceeded
  | ban
deriving DecidableEq, Repr

/-- Whether the session goes on. -/
def dispatchFrame (self : Session) (verdict : RateVerdict) (view : ChainView) (peer : NodeId)
    (now : Instant) (payload : List UInt8) : Except Failure (Bool × Session) :=
  match verdict with
  | .exceeded => .ok (true, self)
  | .ban => .ok (false, self)
  | .ok =>
    match decodeMessage payload with
    | .ok (.getHeaders fromHeight) =>
      Prod.mk true <$>
        self.send (encodeHeaders (view.headersFromHeight fromHeight MAX_HEADERS_BATCH))
    | .ok (.getBlocks hashes) =>
      Prod.mk true <$> self.send (encodeBlocks (view.blocksByHashes hashes MAX_BLOCKS_BATCH))
    | .ok (.knownTag _) =>
      Prod.mk true <$> self.dispatchGossip crates sipHash view peer now payload
    | .ok (.unknownMessage _) => .ok (true, self)
    | .error _ => .ok (false, self.recordProtocolViolation)

end

end Session
end Strangecoin
