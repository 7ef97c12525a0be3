import Strangecoin.Serialize
import Strangecoin.MerkleTree

/-! # The state commitment: a sparse Merkle tree of depth 256

The key of an account is the digest of its address; level `i` of the tree
branches on bit `i` of the key.  The tree is never built: the leaves are sorted by key, and a
subtree is a slice of the sorted list that is cut in two at every level (`hashRange`).  A slice
of the source (`sorted[start..end]`) is the list of its elements here, and the bit that
is branched on is counted by the levels that remain below it.
-/
namespace Strangecoin

def DEPTH : Nat := 256

/-- The leaf of an empty slot. -/
def EMPTY_HASH : Digest := #v[
  0xaf, 0x13, 0x49, 0xb9, 0xf5, 0xf9, 0xa1, 0xa6, 0xa0, 0x9f, 0xb0, 0x2d, 0xc6, 0x03, 0x1e, 0x89,
  0x25, 0x81, 0x64, 0xb6, 0xb8, 0x73, 0x0a, 0x4b, 0x48, 0x02, 0x6d, 0x1e, 0x94, 0x78, 0xf5, 0x46]

def CONTRACT_LEAF_TAG : UInt8 := 0x01
def RECEIPT_LEAF_TAG : UInt8 := 0x02
def STORAGE_LEAF_TAG : UInt8 := 0x03

/-! ### Bits of a key -/

/-- Bit `bitIndex` of a key, most significant first. -/
def bitAt (key : Digest) (bitIndex : Nat) : UInt8 :=
  (byteAt key (bitIndex / 8) >>> UInt8.ofNat (7 - bitIndex % 8)) &&& 1

/-- The key with every bit from `depth` on zeroed. -/
def pathPrefix (key : Digest) (depth : Nat) : Digest :=
  Vector.ofFn fun j =>
    if j.val < depth / 8 then byteAt key j
    else if j.val = depth / 8 ∧ 0 < depth % 8 then
      byteAt key j &&& ((0xff : UInt8) <<< UInt8.ofNat (8 - depth % 8))
    else 0

/-- The sibling of the node at depth `level + 1` on the path of the key. -/
def siblingPath (key : Digest) (level : Nat) : Digest :=
  let path := pathPrefix key level
  if bitAt key level = 0 then
    path.setIfInBounds (level / 8)
      (byteAt path (level / 8) ||| ((1 : UInt8) <<< UInt8.ofNat (7 - level % 8)))
  else path

/-! ### Hashes -/

/-- What is hashed for the leaf of an account. -/
def leafPreimage (keyHash : Digest) : Account → List UInt8
  | .eoa account => keyHash.toList ++ toLeBytes account.balance ++ toLeBytes account.nonce
  | .contract account =>
    keyHash.toList ++ [CONTRACT_LEAF_TAG] ++ account.codeHash.toList ++
      account.storageRoot.toList ++ toLeBytes account.balance ++ toLeBytes account.nonce

section
variable (blake3 : List UInt8 → Digest)

def hashPair (left right : Digest) : Digest := blake3 (left.toList ++ right.toList)

def accountKeyHash (address : String) : Digest := blake3 (asBytes address)

def accountLeafHash (keyHash : Digest) (account : Account) : Digest :=
  blake3 (leafPreimage keyHash account)

/-- The leaf of an account, `EMPTY_HASH` when it is empty. -/
def leafHashFor (key : Digest) (account : Account) : Digest :=
  if account.isEmpty then EMPTY_HASH else accountLeafHash blake3 key account

/-- Digest of an empty subtree with `levels` levels below it. -/
def emptyLevels : Nat → Digest
  | 0 => EMPTY_HASH
  | levels + 1 => hashPair blake3 (emptyLevels levels) (emptyLevels levels)

/-- Digest of an empty subtree rooted at `depth`. -/
def emptySubtree (depth : Nat) : Digest := emptyLevels blake3 (DEPTH - depth)

/-! ### Slices of the sorted leaves -/

/-- `partition_point` on a slice whose zero-bit keys come first. -/
def partitionPoint (sorted : List (Digest × Digest)) (bitIndex : Nat) : Nat :=
  (sorted.takeWhile (fun e => bitAt e.1 bitIndex == 0)).length

/-- Root of the subtree that covers the slice, with `levels` levels below it. -/
def hashRange : Nat → List (Digest × Digest) → Digest
  | levels, [] => emptyLevels blake3 levels
  | 0, e :: _ => e.2
  | levels + 1, e :: rest =>
    let sorted := e :: rest
    let mid := partitionPoint sorted (DEPTH - (levels + 1))
    let left := if mid = 0 then emptyLevels blake3 levels else hashRange levels (sorted.take mid)
    let right :=
      if mid = sorted.length then emptyLevels blake3 levels else hashRange levels (sorted.drop mid)
    hashPair blake3 left right

/-- The sibling subtrees on the path of `key`, with `levels` levels to go. -/
def collectSiblings (key : Digest) : Nat → List (Digest × Digest) → List Digest
  | 0, _ => []
  | levels + 1, sorted =>
    let mid := partitionPoint sorted (DEPTH - (levels + 1))
    let (sibling, next) :=
      if bitAt key (DEPTH - (levels + 1)) = 0 then (sorted.drop mid, sorted.take mid)
      else (sorted.take mid, sorted.drop mid)
    hashRange blake3 levels sibling :: collectSiblings key levels next

/-- `sort_by_key` on the key: a stable sort. -/
def sortByKey (leaves : List (Digest × Digest)) : List (Digest × Digest) :=
  leaves.mergeSort (fun a b => (compare a.1 b.1).isLE)

/-! ### The trie -/

/-- The leaves by key hash. -/
structure SparseMerkleTrie where
  leaves : HashMap Digest Digest

namespace SparseMerkleTrie

def new : SparseMerkleTrie := ⟨∅⟩

def insert (trie : SparseMerkleTrie) (address : String) (account : Account) : SparseMerkleTrie :=
  let key := accountKeyHash blake3 address
  if account.isEmpty then ⟨trie.leaves.erase key⟩
  else ⟨trie.leaves.insert key (accountLeafHash blake3 key account)⟩

def root (trie : SparseMerkleTrie) : Digest :=
  hashRange blake3 DEPTH (sortByKey trie.leaves.toList)

def emptyRoot : Digest := emptySubtree blake3 0

/-- The leaves of an account map.  Two addresses with one key hash keep the
order of the map's iteration, which is not specified in the source. -/
def accountLeaves (accounts : HashMap String Account) : List (Digest × Digest) :=
  (accounts.toList.filter (fun e => !e.2.isEmpty)).map (fun e =>
    (accountKeyHash blake3 e.1, accountLeafHash blake3 (accountKeyHash blake3 e.1) e.2))

def computeRoot (accounts : HashMap String Account) : Digest :=
  if accounts.isEmpty then emptyRoot blake3
  else hashRange blake3 DEPTH (sortByKey (accountLeaves blake3 accounts))

/-- A sibling proof of the claimed account, or of its absence when it is empty. -/
def prove (trie : SparseMerkleTrie) (address : String) (account : Account) :
    Except CoreError (List Digest) :=
  let key := accountKeyHash blake3 address
  let isPruned := account.isEmpty
  let expectedLeaf := if isPruned then EMPTY_HASH else accountLeafHash blake3 key account
  let claimed := match trie.leaves[key]? with
    | none => isPruned
    | some leaf => !isPruned && leaf == expectedLeaf
  if claimed then
    .ok (collectSiblings blake3 key DEPTH (sortByKey trie.leaves.toList))
  else .error .proofAccountMismatch

/-- One level of a path, upwards: the digest so far is the child on the key's
side. -/
def hashUp (key : Digest) (level : Nat) (acc sibling : Digest) : Digest :=
  if bitAt key level = 0 then hashPair blake3 acc sibling else hashPair blake3 sibling acc

def verifyProof (root : Digest) (address : String) (account : Account) (proof : List Digest) :
    Bool :=
  if proof.length ≠ DEPTH then false
  else
    let key := accountKeyHash blake3 address
    let leaf := leafHashFor blake3 key account
    let acc := (List.range DEPTH).reverse.foldl
      (fun acc i => hashUp blake3 key i acc (proof.getD i zeroDigest)) leaf
    acc == root

end SparseMerkleTrie

/-! ### Replacing several leaves -/

structure LeafUpdate where
  address : String
  pre : Account
  proof : List Digest
  post : Account

/-- A node of the tree: its depth and its path. -/
abbrev NodeKey := Nat × Digest

instance : Ord NodeKey := ⟨compareLex (compareOn (·.1)) (compareOn (·.2))⟩

/-- Known nodes. -/
abbrev NodeTable := HashMap NodeKey Digest

namespace SparseMerkleTrie

/-- Check one update's proof and enter its leaf and its siblings. -/
def seedUpdate (preRoot : Digest) (nodes : NodeTable) (update : LeafUpdate) :
    Except CoreError NodeTable := do
  let key := accountKeyHash blake3 update.address
  guardWith (verifyProof blake3 preRoot update.address update.pre update.proof)
    CoreError.witnessVerificationFailed
  let nodes := nodes.insert (DEPTH, key) (leafHashFor blake3 key update.pre)
  return (List.range DEPTH).foldl
    (fun nodes level =>
      nodes.insert (level + 1, siblingPath key level) (update.proof.getD level zeroDigest)) nodes

/-- Enter the new leaf of an update. -/
def writeLeaf (nodes : NodeTable) (update : LeafUpdate) : NodeTable :=
  let key := accountKeyHash blake3 update.address
  nodes.insert (DEPTH, key) (leafHashFor blake3 key update.post)

/-- Recompute the node at `level` on the path of `key` from its children. -/
def rehashLevel (key : Digest) (nodes : NodeTable) (level : Nat) : Except CoreError NodeTable := do
  let onPath := pathPrefix key (level + 1)
  let offPath := siblingPath key level
  let (left, right) := if bitAt key level = 0 then (onPath, offPath) else (offPath, onPath)
  let leftHash ← okOr nodes[((level + 1, left) : NodeKey)]? CoreError.witnessVerificationFailed
  let rightHash ← okOr nodes[((level + 1, right) : NodeKey)]? CoreError.witnessVerificationFailed
  return nodes.insert (level, pathPrefix key level) (hashPair blake3 leftHash rightHash)

/-- Recompute the whole path of an update, the deepest node first. -/
def rehashUpdate (nodes : NodeTable) (update : LeafUpdate) : Except CoreError NodeTable :=
  (List.range DEPTH).reverse.foldlM (rehashLevel blake3 (accountKeyHash blake3 update.address)) nodes

/-- The root after the updates, from the root before them and their proofs. -/
def rootAfterUpdates (preRoot : Digest) (updates : List LeafUpdate) : Except CoreError Digest :=
  if updates.isEmpty then .ok preRoot
  else do
    let seeded ← updates.foldlM (seedUpdate blake3 preRoot) ∅
    let written := updates.foldl (writeLeaf blake3) seeded
    let rehashed ← updates.foldlM (rehashUpdate blake3) written
    okOr rehashed[((0, zeroDigest) : NodeKey)]? CoreError.witnessVerificationFailed

end SparseMerkleTrie

/-- `build_trie`: the trie of an account map, filled in the order of the keys. -/
def buildTrie (accounts : HashMap String Account) : SparseMerkleTrie :=
  (accounts.toList.mergeSort (fun a b =>
    (compare (accountKeyHash blake3 a.1) (accountKeyHash blake3 b.1)).isLE)).foldl
      (fun trie e => trie.insert blake3 e.1 e.2) SparseMerkleTrie.new

/-! ### Receipts and contract storage -/

def receiptLeafHash (receipt : Receipt) : Digest :=
  blake3 (RECEIPT_LEAF_TAG :: serializeReceipt receipt)

/-- The receipts of a block by transaction id; of two with one id the first
counts. -/
def receiptLeaves (receipts : List Receipt) : List (Digest × Digest) :=
  receipts.foldl (fun sorted receipt =>
    if sorted.any (fun e => e.1 == receipt.txid) then sorted
    else sorted ++ [(receipt.txid, receiptLeafHash blake3 receipt)]) []

def receiptsSubroot (receipts : List Receipt) : Digest :=
  if receipts.isEmpty then SparseMerkleTrie.emptyRoot blake3
  else hashRange blake3 DEPTH (sortByKey (receiptLeaves blake3 receipts))

def storageLeafHash (key : Digest) (value : List UInt8) : Digest :=
  blake3 (STORAGE_LEAF_TAG :: (key.toList ++ value))

/-- Root of one contract's storage; empty storage has the zero root. -/
def contractStorageRoot (entries : ContractStorage) : Digest :=
  if entries.isEmpty then zeroDigest
  else hashRange blake3 DEPTH
    (sortByKey (entries.toList.map (fun e => (e.1, storageLeafHash blake3 e.1 e.2))))

end

end Strangecoin
