import Strangecoin.Dispatch

/-! # Headers-first sync

A round of sync with one peer (`sync.rs`): its headers are asked for in batches, and a batch
is taken as far as its headers have the work they declare and link to one another
(`HeaderCache.ingest`); the best branch among them is compared with the local chain
(`planBestBranch`); the blocks after the fork point are asked for in batches.

The peer is a function from requests to answers: the handshake, the encrypted frames, the
timeouts and the shutdown flag are not modelled.  A peer can go on sending full batches of
headers for ever; the rounds of the first phase are counted by `fuel`.
-/
namespace Strangecoin

/-- A peer that breaks the contract of the sync. -/
def invalidBlock (message : String) : NetFailure :=
  .error (.protocol ("invalid block: " ++ message))

section
variable (crates : Crates)

/-- The header's hash, which a stored one has to agree with, meets its own target. -/
def validateHeaderPow (header : BlockHeader) : Except Failure Unit := do
  let computed ← crates.headerHash header
  liftCore (guardWith (header.hash = "" ∨ header.hash = hexEncode computed.toList)
    (CoreError.headerHashMismatch (hexEncode computed.toList) header.hash))
  match hexDecode header.target with
  | .error _ => liftCore (.error .invalidDifficulty)
  | .ok bytes => do
    liftCore (guardWith (bytes.length = 32) CoreError.invalidDifficulty)
    let target ← digestOfSlice bytes
    liftCore (guardWith (u256Gt (u256FromBytes computed) (u256FromBytes target) = false)
      CoreError.invalidDifficulty)

/-! ### Validated headers -/

structure HeaderCache where
  byHash : HashMap String BlockHeader
  maxIndex : Option UInt64

namespace HeaderCache

def new : HeaderCache := ⟨∅, none⟩

def insert (self : HeaderCache) (header : BlockHeader) : HeaderCache where
  byHash := self.byHash.insert header.hash header
  maxIndex := some (match self.maxIndex with
    | some m => max m header.index
    | none => header.index)

/-- Whether a header links to the one before it in its batch, if there is one. -/
def linked (self : HeaderCache) (localHashes : List String) (prev : Option (String × UInt64))
    (header : BlockHeader) : Bool :=
  match prev with
  | some (hash, index) => header.previousHash = hash ∧ header.index = index + 1
  | none => header.index = 0 ∨ self.byHash.contains header.previousHash ∨
      header.previousHash ∈ localHashes

/-- The headers of a batch up to the first bad one: how many, and the cache with them. -/
def ingestFrom (localHashes : List String) :
    HeaderCache → Option (String × UInt64) → List BlockHeader → Except Failure (Nat × HeaderCache)
  | self, _, [] => .ok (0, self)
  | self, prev, header :: rest =>
    match validateHeaderPow crates header with
    | .error (.panic message) => .error (.panic message)
    | .error (.error _) => .ok (0, self)
    | .ok () =>
      if self.linked localHashes prev header then do
        let (accepted, self) ← ingestFrom localHashes (self.insert header)
          (some (header.hash, header.index)) rest
        return (accepted + 1, self)
      else .ok (0, self)

def ingest (self : HeaderCache) (batch : List BlockHeader) (localHashes : List String) :
    Except Failure (Nat × HeaderCache) :=
  self.ingestFrom crates localHashes none batch

end HeaderCache

/-! ### The best branch -/

structure BranchPlan where
  forkIndex : UInt64
  headers : List BlockHeader
  candidateInfo : ChainInfo

/-- From a header down to the one with index zero, in at most `steps` steps. -/
def walkFrom (cache : HeaderCache) (steps : Nat) (current : BlockHeader)
    (above : List BlockHeader) : Option (List BlockHeader) :=
  if current.index = 0 then some (current :: above)
  else match steps with
    | 0 => none
    | steps + 1 => do
      let parent ← cache.byHash[current.previousHash]?
      walkFrom cache steps parent (current :: above)

def walkAncestry (cache : HeaderCache) (tip : BlockHeader) : Option (List BlockHeader) :=
  walkFrom cache cache.byHash.size tip []

/-- The better of a branch and that of one more tip. -/
def considerTip (cache : HeaderCache) (genesisHash : String)
    (best : Option (List BlockHeader × ChainInfo)) (tip : BlockHeader) :
    Except Failure (Option (List BlockHeader × ChainInfo)) :=
  match walkAncestry cache tip with
  | none => .ok best
  | some ancestry =>
    if ancestry.head?.map BlockHeader.hash ≠ some genesisHash then .ok best
    else do
      let totalWork ← cumulativeWorkHeaders ancestry
      let info : ChainInfo := ⟨tip.index, tip.hash, totalWork, tip.timestamp⟩
      return match best with
        | none => some (ancestry, info)
        | some (_, current) => if isBetter info current then some (ancestry, info) else best

/-- The pairs of the branch and the local chain up to the first that differs. -/
def sharedPairs (ancestry : List BlockHeader) (localChain : List Block) :
    List (BlockHeader × Block) :=
  (ancestry.zip localChain).takeWhile fun pair => pair.1.hash = pair.2.hash

/-- The branch after the last header that it shares with the local chain. -/
def forkPlan (localChain : List Block) (ancestry : List BlockHeader) (candidateInfo : ChainInfo) :
    Option BranchPlan :=
  let shared := sharedPairs ancestry localChain
  let forkIndex := (shared.getLast?.map fun pair => pair.1.index).getD 0
  let headers := ancestry.drop shared.length
  if shared.length = 0 ∨ localChain.length < shared.length then none
  else if headers = [] then none
  else some ⟨forkIndex, headers, candidateInfo⟩

/-- The best branch if it is better than the local chain.  The headers of the cache are
iterated in the order of `headers`. -/
def planBestBranch (headers : List BlockHeader) (localChain : List Block) (cache : HeaderCache) :
    Except Failure (Option BranchPlan) :=
  match localChain with
  | [] => .ok none
  | genesis :: _ =>
    if cache.byHash.isEmpty then .ok none
    else do
      match ← chainInfo localChain with
      | none => return none
      | some localInfo =>
        let parents := headers.map BlockHeader.previousHash
        let tips := headers.filter fun header => header.hash ∉ parents
        match ← tips.foldlM (considerTip cache genesis.hash) none with
        | none => return none
        | some (ancestry, candidateInfo) =>
          return if isBetter candidateInfo localInfo then
            forkPlan localChain ancestry candidateInfo
          else none

/-! ### The round -/

structure SyncOutcome where
  candidate : Option (List Block)
  headersIngested : Nat
  blocksDownloaded : Nat
  peerTipHeight : UInt64

/-- What a peer answers to a request. -/
abbrev Answers := List UInt8 → Except NetFailure (List UInt8)

section
variable (peer : Answers)

/-- The first phase, from a height on. -/
def syncHeaders (localHashes : List String) :
    Nat → HeaderCache → UInt64 → Option (Except NetFailure HeaderCache)
  | 0, _, _ => none
  | fuel + 1, cache, fromHeight =>
    match peer (encodeGetHeaders fromHeight) >>= fun payload =>
      liftNet (parseHeaders crates payload) with
    | .error e => some (.error e)
    | .ok headers =>
      if headers = [] then some (.ok cache)
      else match cache.ingest crates headers localHashes with
        | .error f => some (.error (.panic f))
        | .ok (accepted, cache) =>
          if accepted = 0 then
            some (.error (invalidBlock "headers-first: peer sent no valid header"))
          else if headers.length < MAX_HEADERS_BATCH ∨ accepted < headers.length then
            some (.ok cache)
          else syncHeaders localHashes fuel cache ((cache.maxIndex.map (· + 1)).getD 0)

/-- The bytes of a hash that is stored as text. -/
def requestedHash (header : BlockHeader) : Except NetFailure Digest :=
  match hexDecode header.hash with
  | .error _ => .error (invalidBlock "headers-first: non-hex header hash")
  | .ok bytes => if bytes.length = 32 then .ok (digestOfBytes bytes)
      else .error (invalidBlock "headers-first: bad header hash")

/-- The blocks of an answer are among those asked for, none of them twice. -/
def checkBatch (chunk : List BlockHeader) (batch : List Block) : Except NetFailure Unit := do
  let seen ← batch.mapM fun block => do
    let hash ← liftPanic (crates.blockHash block)
    let actual := hexEncode hash.toList
    guardWith (actual = block.hash ∧ actual ∈ chunk.map BlockHeader.hash)
      (invalidBlock "headers-first: block hash mismatch")
    return actual
  guardWith (seen.dedup.length = batch.length ∧ batch.length ≤ chunk.length)
    (invalidBlock "headers-first: duplicate blocks in response")

/-- A list in pieces of `n`, the last of which may be shorter. -/
def batches {α : Type} (n : Nat) (xs : List α) : List (List α) :=
  if h : xs = [] ∨ n = 0 then []
  else xs.take n :: batches n (xs.drop n)
termination_by xs.length
decreasing_by
  have := List.length_pos_iff.mpr (not_or.mp h).1
  rw [List.length_drop]
  omega

/-- The blocks of all `total` headers, asked for chunk by chunk. -/
def downloadBodies (total : Nat) :
    List (List BlockHeader) → List Block → Except NetFailure (List Block)
  | [], blocks => .ok blocks
  | chunk :: rest, blocks => do
    let requested ← chunk.mapM requestedHash
    let request ← encodeGetBlocks requested
    let payload ← peer request
    let batch ← liftNet (parseBlocks crates payload)
    checkBatch crates chunk batch
    if (blocks ++ batch).length = total then return blocks ++ batch
    else downloadBodies total rest (blocks ++ batch)

/-- The third phase and the candidate. -/
def downloadPlan (localChain : List Block) (cache : HeaderCache) (plan : BranchPlan) :
    Except NetFailure SyncOutcome := do
  let blocks ← downloadBodies crates peer plan.headers.length
    (batches MAX_BLOCKS_BATCH plan.headers) []
  guardWith (blocks.length = plan.headers.length) (invalidBlock ("headers-first: got " ++
    toString blocks.length ++ " of " ++ toString plan.headers.length ++ " blocks"))
  guardWith (plan.forkIndex.toNat < localChain.length)
    (.panic (.panic "range end index out of range for slice"))
  return { candidate := some (localChain.take (plan.forkIndex.toNat + 1) ++ blocks)
           headersIngested := cache.byHash.size
           blocksDownloaded := plan.headers.length
           peerTipHeight := plan.candidateInfo.tipHeight }

/-- The second phase and, if there is a plan, the third.  The cache is iterated in the order
that `iterate` says. -/
def planAndDownload (iterate : HashMap String BlockHeader → List BlockHeader)
    (localChain : List Block) (cache : HeaderCache) : Except NetFailure SyncOutcome := do
  match ← liftPanic (planBestBranch (iterate cache.byHash) localChain cache) with
  | none => return { candidate := none
                     headersIngested := cache.byHash.size
                     blocksDownloaded := 0
                     peerTipHeight := cache.maxIndex.getD 0 }
  | some plan => downloadPlan crates peer localChain cache plan

/-- One round. -/
def syncHeadersFirst (iterate : HashMap String BlockHeader → List BlockHeader) (fuel : Nat)
    (localChain : List Block) : Option (Except NetFailure SyncOutcome) :=
  (syncHeaders crates peer (localChain.map Block.hash) fuel .new 0).map fun headers =>
    headers >>= planAndDownload crates peer iterate localChain

end

/-! ### What a node serves -/

/-- At most `max` headers from a height on. -/
def headersFromHeight (chain : List Block) (fromHeight : UInt64) (max : Nat) : List BlockHeader :=
  ((chain.filter fun block => fromHeight ≤ block.index).take max).map Block.header

/-- The blocks under their hashes; of several the last. -/
def blocksByHash (chain : List Block) : HashMap String Block := HashMap.keyed Block.hash chain

def blocksByHashes (chain : List Block) (hashes : List Digest) (max : Nat) : List Block :=
  (hashes.filterMap fun hash => (blocksByHash chain)[hexEncode hash.toList]?).take max

/-- The answers of a node with a chain; other frames have none. -/
def answerFrom (chain : List Block) : Answers := fun payload =>
  match decodeMessage payload with
  | .ok (.getHeaders fromHeight) =>
    encodeHeaders (headersFromHeight chain fromHeight MAX_HEADERS_BATCH)
  | .ok (.getBlocks hashes) => encodeBlocks (blocksByHashes chain hashes MAX_BLOCKS_BATCH)
  | _ => .error (.error (.transport "sync I/O timeout"))

/-- The answer is what a session of that node sends. -/
theorem dispatchFrame_answerFrom {sipHash : List UInt8 → UInt64} {self : Session} {view : ChainView}
    {peer : NodeId} {now : Instant} {chain : List Block} {payload out : List UInt8}
    (hheaders : view.headersFromHeight = headersFromHeight chain)
    (hblocks : view.blocksByHashes = blocksByHashes chain)
    (h : answerFrom chain payload = .ok out) :
    self.dispatchFrame crates sipHash .ok view peer now payload =
      .ok (true, { self with sent := self.sent ++ [out] }) := by
  unfold answerFrom at h
  unfold Session.dispatchFrame
  split at h
  · rename_i fromHeight hdecode
    rw [hdecode]
    dsimp only
    rw [hheaders, h]
    rfl
  · rename_i hashes hdecode
    rw [hdecode]
    dsimp only
    rw [hblocks, h]
    rfl
  · exact absurd h nofun

end

end Strangecoin
