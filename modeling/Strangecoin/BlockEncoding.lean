import Strangecoin.Serialize
import Strangecoin.NodeError
import Strangecoin.U256

/-! # Headers, blocks and their hashes

The canonical encoding of a header is hashed into the block hash; the encoding of a
block is the header followed by its length-prefixed signed transactions.  The stored
`hash` is not part of it.  Two header fields are hexadecimal text, and **encoding a
header whose text is not 32 bytes of hexadecimal panics**.
-/
namespace Strangecoin

/-- `hex::decode(..).expect(invalid)` with the length asserted. -/
def bytes32OfHex (invalid wrongLength text : String) : Except Failure (List UInt8) :=
  match hexDecode text with
  | .error _ => .error (.panic invalid)
  | .ok bytes => if bytes.length = 32 then .ok bytes else .error (.panic wrongLength)

theorem bytes32OfHex_eq_ok {invalid wrongLength text : String} {bytes : List UInt8} :
    bytes32OfHex invalid wrongLength text = .ok bytes ↔
      hexDecode text = .ok bytes ∧ bytes.length = 32 := by
  unfold bytes32OfHex
  cases hexDecode text with
  | error e => simp
  | ok decoded =>
    simp only [Except.ok.injEq]
    split
    · rename_i h
      simp only [Except.ok.injEq]
      exact ⟨fun hb => ⟨hb, hb ▸ h⟩, fun hb => hb.1⟩
    · rename_i h
      exact ⟨nofun, fun hb => absurd (hb.1 ▸ hb.2) h⟩

def serializeHeader (header : BlockHeader) : Except Failure (List UInt8) := do
  let previousHash ← bytes32OfHex "Invalid hex hash" "Expected 32-byte hash" header.previousHash
  let target ← bytes32OfHex "Invalid target hex" "Target must be 32 bytes" header.target
  return FORMAT_VERSION :: (toBeBytes header.index ++ toBeBytes header.timestamp ++ previousHash ++
    header.txRoot.toList ++ target ++ toBeBytes header.nonce ++
    toBeBytes32 header.consensusVersion ++ header.stateRoot.toList ++ header.receiptsRoot.toList)

def serializeBlockHeader (block : Block) : Except Failure (List UInt8) :=
  serializeHeader block.header

/-- A signed transaction with its length in front. -/
def serializeBlockTx (tx : Transaction) : List UInt8 := writeBytes (serializeTransactionSigned tx)

def serializeBlock (block : Block) : Except Failure (List UInt8) := do
  let header ← serializeBlockHeader block
  return header ++ toBeBytes32 (UInt32.ofNat block.transactions.length) ++
    block.transactions.flatMap serializeBlockTx

namespace Crates
variable (crates : Crates)

def blockHash (block : Block) : Except Failure Digest := do
  let header ← serializeBlockHeader block
  return crates.blake3 header

/-! ### The commitment to the transactions -/

/-- One level of the tree over the transaction ids; an odd node is paired with
itself. -/
def merkleLevel : List Digest → List Digest
  | left :: right :: rest => crates.blake3 (left.toList ++ right.toList) :: merkleLevel rest
  | [node] => [crates.blake3 (node.toList ++ node.toList)]
  | [] => []

/-- Levels until one node is left; every level halves the nodes, so their number is
fuel enough. -/
def merkleFold : Nat → List Digest → Digest
  | 0, hashes => hashes.headD zeroDigest
  | fuel + 1, hashes =>
    if hashes.length > 1 then merkleFold fuel (crates.merkleLevel hashes)
    else hashes.headD zeroDigest

def merkleRoot (txids : List Digest) : Digest :=
  match txids with
  | [] => zeroDigest
  | [id] => crates.blake3 (id.toList ++ id.toList)
  | _ => crates.merkleFold txids.length txids

def computeTxRoot (transactions : List Transaction) : Digest :=
  if transactions.isEmpty then zeroDigest else crates.merkleRoot (transactions.map crates.txid)

end Crates

end Strangecoin
