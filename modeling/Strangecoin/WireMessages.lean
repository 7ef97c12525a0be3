import Strangecoin.BlockCodec
import Strangecoin.BlockExecutor
import Strangecoin.NoiseTransport
import Strangecoin.PeerManager
import Strangecoin.Recognizers

/-! # The messages of the wire

A payload starts with the tag of its message.  The messages of synchronisation
(`protocol.rs`), gossip (`gossip/inv.rs`, `gossip/get_data.rs`), compact blocks
(`gossip/compact_blocks.rs`), reconciliation (`gossip/erlay/mod.rs`) and addresses
(`discovery/addr_gossip.rs`), each with its encoder and its parser.

A parser bounds every count before it reads that many items.  After such a check some
slices cannot fail any more; the error they carry in the model is never returned.
-/
namespace Strangecoin

/-! ### Tags and limits -/

def MSG_GET_HEADERS : UInt8 := 0x01
def MSG_HEADERS : UInt8 := 0x02
def MSG_GET_BLOCKS : UInt8 := 0x03
def MSG_BLOCKS : UInt8 := 0x04
def MSG_ADDR : UInt8 := 0x05
def MSG_INV : UInt8 := 0x06
def MSG_GET_DATA : UInt8 := 0x07
def MSG_TX : UInt8 := 0x08
def MSG_COMPACT_BLOCK : UInt8 := 0x09
def MSG_NOTFOUND : UInt8 := 0x0A
def MSG_GET_BLOCK_TXN : UInt8 := 0x0B
def MSG_BLOCK_TXN : UInt8 := 0x0C
def MSG_ERLAY_RECONCILE : UInt8 := 0x0D

def MAX_HEADERS_BATCH : Nat := 2000
def MAX_BLOCKS_BATCH : Nat := 128
def MAX_ADDR_ENTRIES : Nat := 1000
def MAX_INV_BATCH : Nat := 512
def INV_ITEM_WIRE_LEN : Nat := 33
def SHORT_ID_LEN : Nat := 8
def MAX_COMPACT_TXS : Nat := 65536
def MAX_PREFILLED : Nat := 64
def MAX_ERLAY_SKETCH : Nat := 1024 * 1024

/-- How a function of the wire stops: with an error, or because a header cannot be encoded. -/
inductive NetFailure where
  | error (e : NetError)
  | panic (f : Failure)
deriving DecidableEq, Repr

/-- A check, with the error of a failure. -/
def ensureFits (c : Prop) [Decidable c] (e : NetError) : Except NetFailure Unit :=
  guardWith c (.error e)

def liftPanic {α : Type} : Except Failure α → Except NetFailure α
  | .ok a => .ok a
  | .error f => .error (.panic f)

/-- A count in front of the items. -/
def putCount {α : Type} (items : List α) : List UInt8 := toBeBytes32 (UInt32.ofNat items.length)

/-! ### Readers -/

namespace Reader
variable {ε α : Type}

/-- The tag of a message. -/
def tag (expected : UInt8) (e : ε) : Reader ε Unit := do
  let b ← byte e
  Reader.check (guardWith (b = expected) e)

def u32 (e : ε) : Reader ε UInt32 := do
  let word ← take 4 e
  return fromBeBytes32 word

def u64 (e : ε) : Reader ε UInt64 := do
  let word ← take 8 e
  return fromBeBytes64 word

def digest (e : ε) : Reader ε Digest := do
  let bytes ← take 32 e
  return digestOfBytes bytes

/-- A count and a limit for it. -/
def count (truncated : ε) (limit : Nat) (tooMany : Nat → ε) : Reader ε Nat := do
  let n ← u32 truncated
  Reader.check (guardWith (n.toNat ≤ limit) (tooMany n.toNat))
  return n.toNat

end Reader

open Reader

/-! ### Synchronisation -/

def encodeGetHeaders (fromHeight : UInt64) : List UInt8 := MSG_GET_HEADERS :: toBeBytes fromHeight

def parseGetHeaders (bytes : List UInt8) : Except NetError UInt64 :=
  Reader.value (do
    ensure (fun n => n = 9) (sizeErr "GET_HEADERS")
    Reader.tag MSG_GET_HEADERS (sizeErr "GET_HEADERS")
    Reader.u64 (sizeErr "u64 truncation")) bytes

def encodeHeaders (headers : List BlockHeader) : Except NetFailure (List UInt8) := do
  ensureFits (headers.length ≤ MAX_HEADERS_BATCH) (sizeErr "headers batch")
  let bodies ← headers.mapM fun header => liftPanic (serializeHeader header)
  let out := MSG_HEADERS :: (putCount headers ++ bodies.flatMap writeBytes)
  ensureFits (out.length ≤ MAX_MESSAGE_SIZE) (sizeErr "headers message")
  return out

/-- A message with a count of items that have their length in front: the count is
bounded, and by the bytes that are left, which have room for that many lengths only. -/
def readBatch {α : Type} (tag : UInt8) (tagName batch : String) (limit : Nat)
    (item : Reader NetError α) : Reader NetError (List α) := do
  Reader.tag tag (sizeErr (tagName ++ " tag"))
  let count ← Reader.count (sizeErr "u32 truncation") limit fun _ => sizeErr (batch ++ " batch")
  ensure (fun n => count ≤ n / 4) (sizeErr (batch ++ " truncation"))
  times count item

/-- An item with its length in front. -/
def readSized {α : Type} (valid : Nat → Bool) (name : String)
    (decode : List UInt8 → Except WireFailure α) : Reader NetError α := do
  let len ← Reader.u32 (sizeErr "u32 truncation")
  Reader.check (guardWith (valid len.toNat = true) (sizeErr (name ++ " item")))
  let body ← Reader.take len.toNat (sizeErr (name ++ " item"))
  Reader.check ((decode body).mapError fun _ => sizeErr (name ++ " decode"))

section
variable (crates : Crates)

def readHeaderItem : Reader NetError BlockHeader :=
  readSized (fun len => len = HEADER_WIRE_LEN) "header" (deserializeHeader crates)

def parseHeaders (bytes : List UInt8) : Except NetError (List BlockHeader) :=
  finish (readBatch MSG_HEADERS "HEADERS" "headers" MAX_HEADERS_BATCH (readHeaderItem crates))
    (sizeErr "HEADERS trailing") bytes

end

def encodeGetBlocks (hashes : List Digest) : Except NetFailure (List UInt8) := do
  ensureFits (hashes.length ≤ MAX_BLOCKS_BATCH) (sizeErr "blocks batch")
  return MSG_GET_BLOCKS :: (putCount hashes ++ hashes.flatMap Vector.toList)

def parseGetBlocks (bytes : List UInt8) : Except NetError (List Digest) :=
  Reader.value (do
    ensure (fun n => 5 ≤ n) (sizeErr "GET_BLOCKS")
    Reader.tag MSG_GET_BLOCKS (sizeErr "GET_BLOCKS")
    let count ← Reader.count (sizeErr "u32 truncation") MAX_BLOCKS_BATCH fun _ =>
      sizeErr "blocks batch"
    ensure (fun n => count * 32 = n) (sizeErr "GET_BLOCKS payload")
    times count (Reader.digest (sizeErr "GET_BLOCKS payload"))) bytes

/-- The bytes of a block in a message. -/
def encodeBlockBody (block : Block) : Except NetFailure (List UInt8) := do
  let bytes ← liftPanic (serializeBlock block)
  ensureFits (bytes.length ≤ MAX_BLOCK_SIZE) (sizeErr "block size")
  return bytes

def encodeBlocks (blocks : List Block) : Except NetFailure (List UInt8) := do
  ensureFits (blocks.length ≤ MAX_BLOCKS_BATCH) (sizeErr "blocks batch")
  let bodies ← blocks.mapM encodeBlockBody
  let out := MSG_BLOCKS :: (putCount blocks ++ bodies.flatMap writeBytes)
  ensureFits (out.length ≤ MAX_MESSAGE_SIZE) (sizeErr "blocks message")
  return out

section
variable (crates : Crates)

def readBlockItem : Reader NetError Block :=
  readSized (fun len => len ≤ MAX_BLOCK_SIZE) "block" (deserializeBlock crates)

def parseBlocks (bytes : List UInt8) : Except NetError (List Block) :=
  finish (readBatch MSG_BLOCKS "BLOCKS" "blocks" MAX_BLOCKS_BATCH (readBlockItem crates))
    (sizeErr "BLOCKS trailing") bytes

end

/-! ### Inventories -/

inductive InvKind where
  | tx
  | block
deriving DecidableEq, Repr

def InvKind.toWire : InvKind → UInt8
  | .tx => 0x01
  | .block => 0x02

def InvKind.fromWire (byte : UInt8) : Option InvKind :=
  if byte = 0x01 then some .tx else if byte = 0x02 then some .block else none

structure InventoryItem where
  kind : InvKind
  hash : Digest
deriving DecidableEq, Repr

def encodeInvItem (item : InventoryItem) : List UInt8 := item.kind.toWire :: item.hash.toList

def encodeInvItems (tag : UInt8) (items : List InventoryItem) :
    Except NetFailure (List UInt8) := do
  ensureFits (items.length ≤ MAX_INV_BATCH) (.protocol
    ("inv batch: " ++ toString items.length ++ " items > " ++ toString MAX_INV_BATCH))
  return tag :: (putCount items ++ items.flatMap encodeInvItem)

def malformedMessage (what detail : String) : NetError := .protocol (what ++ ": " ++ detail)

def readInvItem (what : String) : Reader NetError InventoryItem := do
  let byte ← Reader.byte (malformedMessage what "count exceeds payload length")
  let kind ← Reader.check (okOr (InvKind.fromWire byte) (malformedMessage what "unknown item kind"))
  let hash ← Reader.digest (malformedMessage what "count exceeds payload length")
  return ⟨kind, hash⟩

def parseInvItems (tag : UInt8) (what : String) (bytes : List UInt8) :
    Except NetError (List InventoryItem) :=
  Reader.value (do
    ensure (fun n => 5 ≤ n) (malformedMessage what "bad tag or missing count")
    Reader.tag tag (malformedMessage what "bad tag or missing count")
    let count ← Reader.count (malformedMessage what "bad tag or missing count") MAX_INV_BATCH
      fun count => malformedMessage what
        ("count " ++ toString count ++ " > " ++ toString MAX_INV_BATCH)
    ensure (fun n => count * INV_ITEM_WIRE_LEN = n)
      (malformedMessage what "count exceeds payload length")
    times count (readInvItem what)) bytes

def encodeInv (items : List InventoryItem) : Except NetFailure (List UInt8) :=
  encodeInvItems MSG_INV items

def parseInv (bytes : List UInt8) : Except NetError (List InventoryItem) :=
  parseInvItems MSG_INV "INV" bytes

def encodeGetData (items : List InventoryItem) : Except NetFailure (List UInt8) :=
  encodeInvItems MSG_GET_DATA items

def parseGetData (bytes : List UInt8) : Except NetError (List InventoryItem) :=
  parseInvItems MSG_GET_DATA "GET_DATA" bytes

def encodeNotFound (items : List InventoryItem) : Except NetFailure (List UInt8) :=
  encodeInvItems MSG_NOTFOUND items

def parseNotFound (bytes : List UInt8) : Except NetError (List InventoryItem) :=
  parseInvItems MSG_NOTFOUND "NOTFOUND" bytes

/-! ### Transactions -/

/-- The bytes of a transaction in a message that names it `what`. -/
def encodeTxBody (what : String) (tx : Transaction) : Except NetFailure (List UInt8) := do
  let body := serializeTransactionSigned tx
  ensureFits (body.length ≤ MAX_TX_SIZE) (.protocol
    (what ++ " size " ++ toString body.length ++ " > " ++ toString MAX_TX_SIZE))
  return body

def encodeTx (tx : Transaction) : Except NetFailure (List UInt8) := do
  let body ← encodeTxBody "tx" tx
  return MSG_TX :: writeBytes body

def parseTx (bytes : List UInt8) : Except NetError Transaction :=
  let malformed := malformedMessage "tx message"
  Reader.value (do
    ensure (fun n => 5 ≤ n) (malformed "bad tag or missing length")
    Reader.tag MSG_TX (malformed "bad tag or missing length")
    let len ← Reader.count (malformed "bad tag or missing length") MAX_TX_SIZE
      fun len => malformed ("length " ++ toString len ++ " > " ++ toString MAX_TX_SIZE)
    ensure (fun n => len = n) (malformed "length exceeds payload length")
    let body ← Reader.take len (malformed "length exceeds payload length")
    Reader.check ((deserializeTransactionSigned body).mapError fun _ => malformed "tx decode")) bytes

/-! ### Compact blocks -/

abbrev ShortTxId := Vector UInt8 8

structure CompactBlock where
  header : BlockHeader
  nonce : UInt64
  shortIds : List ShortTxId
  prefilledTxs : List (Nat × Transaction)

structure GetBlockTxn where
  blockHash : Digest
  missingIndices : List Nat
deriving DecidableEq

structure BlockTxn where
  blockHash : Digest
  txs : List Transaction

/-- An index, as a `u32`. -/
def encodeIndex (index : Nat) : List UInt8 := toBeBytes32 (UInt32.ofNat index)

def encodePrefilled (entry : Nat × Transaction) : Except NetFailure (List UInt8) := do
  let body ← encodeTxBody "compact block: prefilled tx" entry.2
  return encodeIndex entry.1 ++ writeBytes body

def CompactBlock.encode (compact : CompactBlock) : Except NetFailure (List UInt8) := do
  ensureFits (compact.shortIds.length ≤ MAX_COMPACT_TXS) (.protocol ("compact block: " ++
    toString compact.shortIds.length ++ " short ids > " ++ toString MAX_COMPACT_TXS))
  ensureFits (compact.prefilledTxs.length ≤ MAX_PREFILLED) (.protocol ("compact block: " ++
    toString compact.prefilledTxs.length ++ " prefilled > " ++ toString MAX_PREFILLED))
  let header ← liftPanic (serializeHeader compact.header)
  let prefilled ← compact.prefilledTxs.mapM encodePrefilled
  let out := MSG_COMPACT_BLOCK :: (header ++ (toBeBytes compact.nonce ++
    (putCount compact.shortIds ++ (compact.shortIds.flatMap Vector.toList ++
    (putCount compact.prefilledTxs ++ prefilled.flatten)))))
  ensureFits (out.length ≤ MAX_MESSAGE_SIZE) (.protocol ("compact block: " ++
    toString out.length ++ " bytes > " ++ toString MAX_MESSAGE_SIZE))
  return out

/-- The text of the error of a decoder. -/
def WireFailure.text : WireFailure → String
  | .rejected message => message
  | .panicked message => message

def readShortId (e : NetError) : Reader NetError ShortTxId := do
  let bytes ← Reader.take SHORT_ID_LEN e
  return Vector.ofFn fun i => bytes.getD i 0

/-- The body of a transaction, with its length in front. -/
def readTxBody (what name : String) : Reader NetError Transaction := do
  let len ← Reader.count (malformedMessage what "truncated u32") MAX_TX_SIZE fun len =>
    malformedMessage what (name ++ " size " ++ toString len ++ " > " ++ toString MAX_TX_SIZE)
  let body ← Reader.take len (malformedMessage what (name ++ " exceeds payload"))
  Reader.check ((deserializeTransactionSigned body).mapError fun _ =>
    malformedMessage what (name ++ " decode"))

/-- An index, which is a `u32` on the wire. -/
def readIndex (what : String) : Reader NetError Nat := do
  let index ← Reader.u32 (malformedMessage what "truncated u32")
  return index.toNat

def readPrefilled : Reader NetError (Nat × Transaction) := do
  let index ← readIndex "compact block"
  let tx ← readTxBody "compact block" "prefilled tx"
  return (index, tx)

section
variable (crates : Crates)

def readCompactBlock : Reader NetError CompactBlock := do
  let malformed := malformedMessage "compact block"
  ensure (fun n => 1 + HEADER_WIRE_LEN + 8 + 4 ≤ n) (malformed "bad tag or truncated header")
  Reader.tag MSG_COMPACT_BLOCK (malformed "bad tag or truncated header")
  let headerBytes ← Reader.take HEADER_WIRE_LEN (malformed "bad tag or truncated header")
  let header ← Reader.check ((deserializeHeader crates headerBytes).mapError fun e =>
    malformed ("header: " ++ e.text))
  let nonce ← Reader.u64 (malformed "bad tag or truncated header")
  let shortCount ← Reader.count (malformed "truncated u32") MAX_COMPACT_TXS fun count =>
    malformed ("short id count " ++ toString count ++ " > " ++ toString MAX_COMPACT_TXS)
  ensure (fun n => shortCount * SHORT_ID_LEN ≤ n) (malformed "short ids exceed payload")
  let shortIds ← times shortCount (readShortId (malformed "short ids exceed payload"))
  let prefillCount ← Reader.count (malformed "truncated u32") MAX_PREFILLED fun count =>
    malformed ("prefilled count " ++ toString count ++ " > " ++ toString MAX_PREFILLED)
  let prefilledTxs ← times prefillCount readPrefilled
  return ⟨header, nonce, shortIds, prefilledTxs⟩

def CompactBlock.parse (bytes : List UInt8) : Except NetError CompactBlock :=
  finish (readCompactBlock crates) (malformedMessage "compact block" "trailing bytes") bytes

end

def GetBlockTxn.encode (request : GetBlockTxn) : Except NetFailure (List UInt8) := do
  ensureFits (request.missingIndices.length ≤ MAX_COMPACT_TXS) (.protocol ("get_block_txn: " ++
    toString request.missingIndices.length ++ " indices > " ++ toString MAX_COMPACT_TXS))
  return MSG_GET_BLOCK_TXN :: (request.blockHash.toList ++ (putCount request.missingIndices ++
    request.missingIndices.flatMap encodeIndex))

def GetBlockTxn.parse (bytes : List UInt8) : Except NetError GetBlockTxn :=
  let malformed := malformedMessage "get_block_txn"
  Reader.value (do
    ensure (fun n => 1 + 32 + 4 ≤ n) (malformed "bad tag or truncated")
    Reader.tag MSG_GET_BLOCK_TXN (malformed "bad tag or truncated")
    let blockHash ← Reader.digest (malformed "bad tag or truncated")
    let count ← Reader.count (malformed "truncated u32") MAX_COMPACT_TXS fun count =>
      malformed ("index count " ++ toString count ++ " > " ++ toString MAX_COMPACT_TXS)
    ensure (fun n => count * 4 = n) (malformed "indices exceed payload")
    let missingIndices ← times count (readIndex "get_block_txn")
    return ⟨blockHash, missingIndices⟩) bytes

def BlockTxn.encode (txn : BlockTxn) : Except NetFailure (List UInt8) := do
  ensureFits (txn.txs.length ≤ MAX_COMPACT_TXS) (.protocol ("block_txn: " ++
    toString txn.txs.length ++ " txs > " ++ toString MAX_COMPACT_TXS))
  let bodies ← txn.txs.mapM (encodeTxBody "block_txn: tx")
  let out := MSG_BLOCK_TXN :: (txn.blockHash.toList ++ (putCount txn.txs ++
    bodies.flatMap writeBytes))
  ensureFits (out.length ≤ MAX_MESSAGE_SIZE) (.protocol ("block_txn: " ++
    toString out.length ++ " bytes > " ++ toString MAX_MESSAGE_SIZE))
  return out

def readBlockTxn : Reader NetError BlockTxn := do
  let malformed := malformedMessage "block_txn"
  ensure (fun n => 1 + 32 + 4 ≤ n) (malformed "bad tag or truncated")
  Reader.tag MSG_BLOCK_TXN (malformed "bad tag or truncated")
  let blockHash ← Reader.digest (malformed "bad tag or truncated")
  let count ← Reader.count (malformed "truncated u32") MAX_COMPACT_TXS fun count =>
    malformed ("tx count " ++ toString count ++ " > " ++ toString MAX_COMPACT_TXS)
  let txs ← times count (readTxBody "block_txn" "tx")
  return ⟨blockHash, txs⟩

def BlockTxn.parse (bytes : List UInt8) : Except NetError BlockTxn :=
  finish readBlockTxn (malformedMessage "block_txn" "trailing bytes") bytes

/-! ### Reconciliation -/

structure ErlayReconcile where
  respond : Bool
  sketch : List UInt8
deriving DecidableEq, Repr

/-- The error of a sketch that is too long. -/
def sketchTooLong (sketch : List UInt8) : NetError := .protocol ("erlay reconcile: sketch " ++
  toString sketch.length ++ " bytes > " ++ toString MAX_ERLAY_SKETCH)

def ErlayReconcile.encode (message : ErlayReconcile) : Except NetFailure (List UInt8) := do
  ensureFits (message.sketch.length ≤ MAX_ERLAY_SKETCH) (sketchTooLong message.sketch)
  return MSG_ERLAY_RECONCILE :: (if message.respond then 1 else 0) :: message.sketch

def ErlayReconcile.parse (bytes : List UInt8) : Except NetError ErlayReconcile :=
  match bytes with
  | tag :: flag :: sketch => do
    guardWith (tag = MSG_ERLAY_RECONCILE) (.protocol "erlay reconcile: bad framing")
    guardWith (flag = 0 ∨ flag = 1) (.protocol ("erlay reconcile: respond flag " ++
      toString flag.toNat ++ " not 0/1"))
    guardWith (sketch.length ≤ MAX_ERLAY_SKETCH) (sketchTooLong sketch)
    return ⟨flag = 1, sketch⟩
  | _ => .error (.protocol "erlay reconcile: bad framing")

/-! ### Addresses -/

def encodeAddrEntry (entry : AddrEntry) : List UInt8 :=
  match entry.addr with
  | .v4 octets port =>
    4 :: (octets.toList ++ ((leBytes 2 port.toNat).reverse ++ entry.nodeId.toList))
  | .v6 octets port =>
    6 :: (octets.toList ++ ((leBytes 2 port.toNat).reverse ++ entry.nodeId.toList))

def encodeAddr (entries : List AddrEntry) : Except NetFailure (List UInt8) := do
  ensureFits (entries.length ≤ MAX_ADDR_ENTRIES) (.protocol ("addr batch: " ++
    toString entries.length ++ " entries > " ++ toString MAX_ADDR_ENTRIES))
  return MSG_ADDR :: (putCount entries ++ entries.flatMap encodeAddrEntry)

end Strangecoin
