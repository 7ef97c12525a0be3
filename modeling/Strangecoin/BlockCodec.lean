import Strangecoin.BlockEncoding
import Strangecoin.TransactionWire

/-! # Reading headers and blocks from the wire

A header has a fixed length; its stored hash is computed from the bytes that were
read.  A block is a header followed by a count and that many length-prefixed
signed transactions.

The decoders index and slice their input.  In the model a slice that does not
fit is a panic, as is encoding a header whose text is not hexadecimal.
-/
namespace Strangecoin

/-- How a decoder stops: with an error, or with a panic. -/
inductive WireFailure where
  | rejected (message : String)
  | panicked (message : String)
deriving DecidableEq, Repr

def WireFailure.ofFailure : Failure → WireFailure
  | .panic message => .panicked message
  | .error _ => .panicked "header encoding"

def Block.fromHeader (header : BlockHeader) (transactions : List Transaction) : Block where
  index := header.index
  timestamp := header.timestamp
  transactions := transactions
  previousHash := header.previousHash
  hash := header.hash
  nonce := header.nonce
  target := header.target
  consensusVersion := header.consensusVersion
  stateRoot := header.stateRoot
  txRoot := header.txRoot
  receiptsRoot := header.receiptsRoot

/-- Byte length of an encoded header. -/
def HEADER_WIRE_LEN : Nat := 1 + 8 + 8 + 32 + 32 + 32 + 8 + 4 + 32 + 32

/-- The digest with the given bytes. -/
def digestOfBytes (bytes : List UInt8) : Digest := Vector.ofFn fun i => bytes.getD i 0

theorem toList_digestOfBytes {w : List UInt8} (h : w.length = 32) : (digestOfBytes w).toList = w := by
  apply List.ext_getElem?
  intro i
  by_cases hi : i < 32
  · simp [digestOfBytes, hi, h]
  · rw [List.getElem?_eq_none (by simpa using hi), List.getElem?_eq_none (by omega)]

theorem digestOfBytes_toList (d : Digest) : digestOfBytes d.toList = d :=
  Vector.toList_inj.mp (toList_digestOfBytes d.length_toList)

/-- The slice of the next bytes. -/
def readSlice (n : Nat) : Reader WireFailure (List UInt8) :=
  Reader.take n (.panicked "range end index out of range")

def readDigest : Reader WireFailure Digest := do
  let bytes ← readSlice 32
  return digestOfBytes bytes

/-- A hash that is stored as text. -/
def readHash : Reader WireFailure String := do
  let bytes ← readSlice 32
  return hexEncode bytes

section
variable (crates : Crates)

def Crates.headerHash (header : BlockHeader) : Except Failure Digest := do
  let bytes ← serializeHeader header
  return crates.blake3 bytes

/-- The header with the hash computed from its other fields. -/
def hashHeader (header : BlockHeader) : Except WireFailure BlockHeader :=
  match crates.headerHash header with
  | .ok hash => .ok { header with hash := hexEncode hash.toList }
  | .error e => .error (.ofFailure e)

def readHeader : Reader WireFailure BlockHeader := do
  let version ← Reader.byte (.panicked "index out of bounds")
  Reader.check (guardWith (version = FORMAT_VERSION) (.rejected "Unsupported format version"))
  let index ← readU64Be.mapError .rejected
  let timestamp ← readU64Be.mapError .rejected
  let previousHash ← readHash
  let txRoot ← readDigest
  let target ← readHash
  let nonce ← readU64Be.mapError .rejected
  let consensusVersion ← readU32Be.mapError .rejected
  let stateRoot ← readDigest
  let receiptsRoot ← readDigest
  Reader.check (hashHeader crates ⟨index, timestamp, previousHash, "", nonce, target,
    consensusVersion, stateRoot, txRoot, receiptsRoot⟩)

def deserializeHeader (bytes : List UInt8) : Except WireFailure BlockHeader :=
  if bytes.length ≠ HEADER_WIRE_LEN then .error (.rejected "Header length mismatch")
  else ((readHeader crates).run bytes).map Prod.fst

theorem le_length_bodies (bodies : List (List UInt8)) :
    4 * bodies.length ≤ (bodies.flatMap writeBytes).length := by
  induction bodies with
  | nil => simp
  | cons body bodies ih =>
    simp only [List.flatMap_cons, List.length_append, List.length_cons, writeBytes,
      length_toBeBytes32]
    omega

theorem serializeBlockTxs_eq (txs : List Transaction) : txs.flatMap serializeBlockTx =
    (txs.map serializeTransactionSigned).flatMap writeBytes := by
  rw [List.flatMap_map]
  rfl

theorem le_length_serializeBlockTxs (txs : List Transaction) :
    4 * txs.length ≤ (txs.flatMap serializeBlockTx).length := by
  have h := le_length_bodies (txs.map serializeTransactionSigned)
  rwa [List.length_map, ← serializeBlockTxs_eq] at h

def readBlockTx : Reader WireFailure Transaction := do
  let len ← readU32Be.mapError .rejected
  let body ← Reader.take len.toNat (.rejected "Transaction length exceeds buffer")
  Reader.check ((deserializeTransactionSigned body).mapError .rejected)

/-- The count of transactions; every one needs at least its length field. -/
def readTxCount : Reader WireFailure UInt32 := do
  let count ← readU32Be.mapError .rejected
  fun rest =>
    if count.toNat > rest.length / 4 then .error (.rejected "Transaction count exceeds buffer")
    else .ok (count, rest)

def readBlockTxs : Reader WireFailure (List Transaction) := do
  let count ← readTxCount
  Reader.times count.toNat readBlockTx

def deserializeBlock (bytes : List UInt8) : Except WireFailure Block :=
  if bytes.length < HEADER_WIRE_LEN + 4 then .error (.rejected "Block too short")
  else do
    let header ← deserializeHeader crates (bytes.take HEADER_WIRE_LEN)
    let (transactions, rest) ← readBlockTxs.run (bytes.drop HEADER_WIRE_LEN)
    guardWith (rest = []) (.rejected "Trailing bytes after block")
    return Block.fromHeader header transactions

end

end Strangecoin
