import Strangecoin.ApplySteps
import Strangecoin.Genesis
import Strangecoin.ValidBlock
import Strangecoin.ReferenceCrates

/-! # Mined blocks

A miner fills in a block template: the roots of the state the template leads to, and the
hash.  With the easiest target every nonce will do.  `mineOn` extends a replay by such a
block; concrete chains are built with it.
-/
namespace Strangecoin

section
variable {V : Type} (crates : Crates) (rt : Runtime V)

/-! ### Sealing -/

/-- The hash as it is stored in a block. -/
def storedHash (block : Block) : String :=
  match crates.blockHash block with
  | .ok hash => hexEncode hash.toList
  | .error _ => ""

/-- The template with the commitments to its transactions and to a state. -/
def sealBlock (template : Block) (post : State) : Block :=
  let block := { template with
    txRoot := crates.computeTxRoot template.transactions
    stateRoot := computeStateRoot crates post.balances
    receiptsRoot := receiptsRoot crates post.receipts }
  { block with hash := storedHash crates block }

/-- The state a block leads to. -/
def outcomeOf (config : NodeConfig) (r : Replay) (block : Block) : Except CoreError (State × V) :=
  applyBlockWithVm crates rt.exec r.state block config.chainId (rt.seed r.codes)

/-- That state, or the state before a block that is not applied. -/
def stateAfter (config : NodeConfig) (r : Replay) (block : Block) : State :=
  match outcomeOf crates rt config r block with
  | .ok x => x.1
  | .error _ => r.state

def mineTemplate (r : Replay) (timestamp : UInt64) (transactions : List Transaction) : Block where
  index := UInt64.ofNat r.done.length
  timestamp := timestamp
  transactions := transactions
  previousHash := (r.done.getLast?.map Block.hash).getD zeroHash
  hash := ""
  nonce := 0
  target := maxTarget
  consensusVersion := CURRENT_CONSENSUS_VERSION
  stateRoot := zeroDigest
  txRoot := zeroDigest
  receiptsRoot := zeroDigest

/-- The block mined on a replay. -/
def minedBlock (config : NodeConfig) (r : Replay) (timestamp : UInt64)
    (transactions : List Transaction) : Block :=
  let template := mineTemplate r timestamp transactions
  sealBlock crates template (stateAfter crates rt config r template)

def mineOn (config : NodeConfig) (r : Replay) (timestamp : UInt64)
    (transactions : List Transaction) : Replay :=
  let template := mineTemplate r timestamp transactions
  ⟨r.done ++ [minedBlock crates rt config r timestamp transactions],
    stateAfter crates rt config r template,
    collectBlockCodes crates template config.chainId r.codes⟩

/-- The checks of a template. -/
def mineable (config : NodeConfig) (now : UInt64) (r : Replay) (timestamp : UInt64)
    (transactions : List Transaction) : Bool :=
  let template := mineTemplate r timestamp transactions
  let view := config.viewAt r.done now (UInt64.ofNat r.done.length) r.codes
  decide (193 + (transactions.flatMap serializeBlockTx).length ≤ MAX_BLOCK_SIZE) &&
  decide (∀ tx ∈ transactions, (serializeTransactionSigned tx).length ≤ MAX_TX_SIZE) &&
  decide (template.index ≠ 0 ∧ template.index.toNat = r.done.length ∧
    template.index % RETARGET_INTERVAL ≠ 0) &&
  (validateVersion template view).isOk &&
  (validateTimestamp template r.done now).isOk &&
  (validateTransactions crates template view).isOk &&
  (enforceBlockGasLimit transactions).isOk &&
  (outcomeOf crates rt config r template).isOk &&
  (enforceReceiptGasLimit (stateAfter crates rt config r template).receipts).isOk

/-! ### The commitments are not read -/

/-- An executor that does not read the header. -/
def HeaderBlind (exec : VmExecutor V) : Prop :=
  ∀ vm ctx header, exec.execute vm { ctx with block := header } = exec.execute vm ctx ∧
    exec.executeConstructor vm { ctx with block := header } = exec.executeConstructor vm ctx

/-- Blocks that differ in their header at most. -/
structure SameBody (b b' : Block) : Prop where
  index : b.index = b'.index
  timestamp : b.timestamp = b'.timestamp
  transactions : b.transactions = b'.transactions

section
variable {exec : VmExecutor V} {b b' : Block}

section
variable (h : SameBody b b')
include h

theorem SameBody.executionContext (s : State) (caller callee : String)
    (value gasLimit : UInt64) (input : List UInt8) :
    executionContext s b caller callee value gasLimit input =
      { executionContext s b' caller callee value gasLimit input with block := b.header } := by
  unfold Strangecoin.executionContext
  rw [h.index, h.timestamp, h.transactions]

theorem SameBody.applyCreate (hexec : HeaderBlind exec) (s : State)
    (create : CreateTx) (chainId : UInt32) (vm : V) (i : UInt32) :
    applyCreate crates exec s create chainId vm b i =
      applyCreate crates exec s create chainId vm b' i := by
  unfold Strangecoin.applyCreate settleCreate
  simp only [h.executionContext, (hexec _ _ _).2, h.index]

theorem SameBody.applyCall (hexec : HeaderBlind exec) (s : State)
    (call : CallTx) (vm : V) (i : UInt32) :
    applyCall crates exec s b call vm i = applyCall crates exec s b' call vm i := by
  unfold Strangecoin.applyCall settleCall
  simp only [h.executionContext, (hexec _ _ _).1, h.index]

theorem SameBody.applyTx (hexec : HeaderBlind exec) (chainId : UInt32) :
    applyTx crates exec chainId b = applyTx crates exec chainId b' := by
  funext p e
  unfold Strangecoin.applyTx transferReceipt
  simp only [h.applyCreate crates hexec, h.applyCall crates hexec, h.index]

/-- **What a block does does not depend on what its header commits to.** -/
theorem SameBody.applyBlockWithVm (hexec : HeaderBlind exec) (s : State)
    (chainId : UInt32) (vm : V) :
    applyBlockWithVm crates exec s b chainId vm = applyBlockWithVm crates exec s b' chainId vm := by
  have hgenesis : applyGenesisTx crates (V := V) chainId b = applyGenesisTx crates chainId b' := by
    funext p e
    unfold applyGenesisTx transferReceipt
    simp only [h.index]
  unfold Strangecoin.applyBlockWithVm applyBlockInner applyGenesis applyNonGenesis applyCoinbase
    coinbaseOf transferReceipt
  simp only [h.index, h.transactions, h.applyTx crates hexec, hgenesis]

theorem SameBody.atEachTx (hexec : HeaderBlind exec) (s : State)
    (chainId : UInt32) (vm : Option V) (P : Progress V → Transaction × Nat → Prop) :
    AtEachTx crates exec chainId b s vm P ↔ AtEachTx crates exec chainId b' s vm P := by
  unfold AtEachTx applyCoinbase coinbaseOf transferReceipt
  simp only [h.index, h.transactions, h.applyTx crates hexec]

end

end

/-! ### The roots are not zero -/

/-- Of a hash function that never returns zero. -/
theorem hashRange_ne_zero {blake3 : List UInt8 → Digest} (hnz : ∀ x, blake3 x ≠ zeroDigest)
    (levels : Nat) (leaves : List (Digest × Digest)) :
    hashRange blake3 (levels + 1) leaves ≠ zeroDigest := by
  cases leaves with
  | nil => exact hnz _
  | cons e rest => exact hnz _

variable {crates} in
theorem computeStateRoot_ne_zero (hnz : ∀ x, crates.blake3 x ≠ zeroDigest)
    (accounts : HashMap String Account) : computeStateRoot crates accounts ≠ zeroDigest := by
  unfold computeStateRoot SparseMerkleTrie.computeRoot
  split
  · exact hnz _
  · exact hashRange_ne_zero hnz 255 _

variable {crates} in
theorem receiptsRoot_ne_zero (hnz : ∀ x, crates.blake3 x ≠ zeroDigest) (receipts : List Receipt) :
    receiptsRoot crates receipts ≠ zeroDigest := by
  unfold receiptsRoot receiptsSubroot
  split
  · exact hnz _
  · exact hashRange_ne_zero hnz 255 _

variable {block : Block}

theorem validateStateRoot_of_eq {view : BlockView} {state : State}
    (heq : block.stateRoot = computeStateRoot crates state.balances)
    (hne : block.stateRoot ≠ zeroDigest) : validateStateRoot crates block view state = .ok () := by
  unfold validateStateRoot
  rw [if_neg hne]
  exact guardNode_eq_ok.mpr heq

theorem validateReceiptsRoot_of_eq {state : State}
    (heq : block.receiptsRoot = receiptsRoot crates state.receipts)
    (hne : block.receiptsRoot ≠ zeroDigest) : validateReceiptsRoot crates block state = .ok () := by
  unfold validateReceiptsRoot
  rw [if_neg hne]
  exact guardNode_eq_ok.mpr heq

/-! ### Hashes and targets -/

theorem hexDecode_maxTarget : hexDecode maxTarget = .ok (List.replicate 32 0xff) := by
  decide

theorem serializeHeader_ok {header : BlockHeader} {d : Digest}
    (hprevious : header.previousHash = hexEncode d.toList) (htarget : header.target = maxTarget) :
    ∃ bytes, serializeHeader header = .ok bytes ∧ bytes.length = 189 := by
  have hd : bytes32OfHex "Invalid hex hash" "Expected 32-byte hash" header.previousHash =
      .ok d.toList := by
    rw [bytes32OfHex_eq_ok, hprevious]
    exact ⟨hexDecode_hexEncode _, d.length_toList⟩
  have ht : bytes32OfHex "Invalid target hex" "Target must be 32 bytes" header.target =
      .ok (List.replicate 32 0xff) := by
    rw [bytes32OfHex_eq_ok, htarget]
    exact ⟨hexDecode_maxTarget, List.length_replicate⟩
  refine ⟨_, bind_eq_ok.mpr ⟨_, hd, bind_eq_ok.mpr ⟨_, ht, rfl⟩⟩, ?_⟩
  simp [toBeBytes32]

/-- The hash of a block with a well-formed header is stored as its hexadecimal form. -/
theorem storedHash_eq {d : Digest} (hprevious : block.previousHash = hexEncode d.toList)
    (htarget : block.target = maxTarget) :
    ∃ hash : Digest, crates.blockHash block = .ok hash ∧
      storedHash crates block = hexEncode hash.toList := by
  obtain ⟨bytes, hbytes, -⟩ := @serializeHeader_ok block.header d hprevious htarget
  have hhash : crates.blockHash block = .ok (crates.blake3 bytes) :=
    bind_eq_ok.mpr ⟨bytes, hbytes, rfl⟩
  refine ⟨_, hhash, ?_⟩
  rw [storedHash, hhash]

/-- Every hash meets the easiest target. -/
theorem validateDifficulty_maxTarget {hash : Digest} (hhash : crates.blockHash block = .ok hash)
    (htarget : block.target = maxTarget) : validateDifficulty crates block = .ok () := by
  refine bind_eq_ok.mpr ⟨hash, hhash, ?_⟩
  rw [htarget, hexDecode_maxTarget]
  change (digestOfSlice (List.replicate 32 0xff) >>= fun target => _) = _
  refine bind_eq_ok.mpr ⟨Vector.replicate 32 0xff, by decide, ?_⟩
  rw [liftCore_eq_ok, guardWith_eq_ok]
  have hmax : u256FromBytes (Vector.replicate 32 0xff) = U256.max256 := by decide
  rw [hmax]
  exact u256Gt_max256 _

/-! ### Mined blocks are accepted -/

/-- The last block can be mined on: it has a hash, and the easiest target. -/
def Replay.HasTip (r : Replay) : Prop :=
  ∃ (tip : Block) (d : Digest), r.done.getLast? = some tip ∧ tip.hash = hexEncode d.toList ∧
    tip.target = maxTarget

variable (config : NodeConfig) (now timestamp : UInt64) (transactions : List Transaction)
  {r : Replay}

theorem minedBlock_hash (htip : r.HasTip) :
    ∃ hash : Digest,
      crates.blockHash (minedBlock crates rt config r timestamp transactions) = .ok hash ∧
      (minedBlock crates rt config r timestamp transactions).hash = hexEncode hash.toList := by
  obtain ⟨tip, d, hlast, hhash, -⟩ := htip
  let unhashed := { minedBlock crates rt config r timestamp transactions with hash := "" }
  have hprevious : unhashed.previousHash = hexEncode d.toList := by
    change (r.done.getLast?.map Block.hash).getD zeroHash = _
    rw [hlast]
    exact hhash
  exact storedHash_eq crates hprevious rfl

theorem hasTip_mineOn (htip : r.HasTip) :
    (mineOn crates rt config r timestamp transactions).HasTip := by
  obtain ⟨hash, -, hstored⟩ := minedBlock_hash crates rt config timestamp transactions htip
  refine ⟨minedBlock crates rt config r timestamp transactions, hash, ?_, hstored, rfl⟩
  exact List.getLast?_concat

/-- **A mined block is accepted** on the replay it was mined on. -/
theorem replayBlock_mineOn (hnz : ∀ x, crates.blake3 x ≠ zeroDigest)
    (hexec : HeaderBlind rt.exec) (htip : r.HasTip)
    (h : mineable crates rt config now r timestamp transactions = true) :
    replayBlock crates rt config now r (minedBlock crates rt config r timestamp transactions) =
      .ok (mineOn crates rt config r timestamp transactions) := by
  obtain ⟨hash, hblockHash, hstored⟩ := minedBlock_hash crates rt config timestamp transactions htip
  obtain ⟨tip, d, hlast, htipHash, htipTarget⟩ := htip
  simp only [mineable, Bool.and_eq_true, decide_eq_true_eq, isOk_iff] at h
  obtain ⟨⟨⟨⟨⟨⟨⟨⟨hsize, htxSizes⟩, hindex, hlength, hretarget⟩, ⟨⟨⟩, hversion⟩⟩, ⟨⟨⟩, htime⟩⟩,
    ⟨⟨⟩, htxs⟩⟩, ⟨⟨⟩, hgas⟩⟩, ⟨⟨post, vm⟩, hpost⟩⟩, ⟨⟨⟩, hreceiptGas⟩⟩ := h
  have hstate : stateAfter crates rt config r (mineTemplate r timestamp transactions) = post := by
    rw [stateAfter, hpost]
  have hbody : SameBody (minedBlock crates rt config r timestamp transactions)
      (mineTemplate r timestamp transactions) := ⟨rfl, rfl, rfl⟩
  have hpost' : outcomeOf crates rt config r (minedBlock crates rt config r timestamp transactions) =
      .ok (post, vm) := by
    rw [← hpost]
    exact hbody.applyBlockWithVm crates hexec _ _ _
  refine (replayBlock_ok crates rt).mpr ⟨post, ?_, by rw [mineOn, hstate]; rfl⟩
  have hprevious : (minedBlock crates rt config r timestamp transactions).previousHash =
      tip.hash := by
    change (r.done.getLast?.map Block.hash).getD zeroHash = _
    rw [hlast]
    rfl
  refine {
    sizes := ?_
    position := ?_
    hash := ?_
    version := hversion
    txRoot := guardWith_eq_ok.mpr rfl
    timestamp := htime
    work := ?_
    transactions := htxs
    gasLimit := hgas
    applied := (applyAndExecute_ok crates rt).mpr ⟨vm, hpost'⟩
    receiptGas := hstate ▸ hreceiptGas
    stateRoot := validateStateRoot_of_eq crates
      (congrArg (fun s : State => computeStateRoot crates s.balances) hstate)
      (computeStateRoot_ne_zero hnz _)
    receiptsRoot := validateReceiptsRoot_of_eq crates
      (congrArg (fun s : State => receiptsRoot crates s.receipts) hstate)
      (receiptsRoot_ne_zero hnz _) }
  · obtain ⟨bytes, hbytes, hlen⟩ := @serializeHeader_ok
      (minedBlock crates rt config r timestamp transactions).header d (hprevious.trans htipHash) rfl
    refine bind_eq_ok.mpr ⟨_, bind_eq_ok.mpr ⟨bytes, hbytes, rfl⟩, ?_⟩
    refine bind_eq_ok.mpr ⟨(), guardNode_eq_ok.mpr ?_, forM_ok.mpr fun tx htx =>
      guardNode_eq_ok.mpr (htxSizes tx htx)⟩
    rw [List.length_append, List.length_append, hlen]
    exact hsize
  · have hindex' : (minedBlock crates rt config r timestamp transactions).index ≠ 0 := hindex
    unfold validatePosition
    rw [if_neg hindex']
    refine bind_eq_ok.mpr ⟨tip, okOr_eq_ok.mpr hlast, ?_⟩
    exact bind_eq_ok.mpr ⟨(), guardNode_eq_ok.mpr hlength, guardNode_eq_ok.mpr hprevious⟩
  · exact bind_eq_ok.mpr ⟨hash, hblockHash, guardNode_eq_ok.mpr hstored⟩
  · unfold validateWork
    split
    · refine bind_eq_ok.mpr ⟨(), validateDifficulty_maxTarget crates hblockHash rfl, ?_⟩
      have hretarget' : (minedBlock crates rt config r timestamp transactions).index %
        RETARGET_INTERVAL ≠ 0 := hretarget
      unfold validateTarget
      rw [if_neg hretarget']
      exact bind_eq_ok.mpr ⟨tip, okOr_eq_ok.mpr hlast, guardNode_eq_ok.mpr htipTarget.symm⟩
    · rfl

/-! ### Mined chains -/

/-- A run of mined blocks: timestamps and transactions. -/
def mineAll (steps : List (UInt64 × List Transaction)) (r : Replay) : Replay :=
  steps.foldl (fun r e => mineOn crates rt config r e.1 e.2) r

/-- Every template passes where it is reached. -/
def mineableAll : List (UInt64 × List Transaction) → Replay → Bool
  | [], _ => true
  | e :: steps, r =>
    mineable crates rt config now r e.1 e.2 &&
      mineableAll steps (mineOn crates rt config r e.1 e.2)

/-- A replay that has done its own chain. -/
def Replay.Complete (r : Replay) : Prop :=
  r.done.foldlM (replayBlock crates rt config now) Replay.start = .ok r

/-- **A mined chain is accepted.** -/
theorem complete_mineAll (hnz : ∀ x, crates.blake3 x ≠ zeroDigest)
    (hexec : HeaderBlind rt.exec) (steps : List (UInt64 × List Transaction)) (htip : r.HasTip)
    (hr : r.Complete crates rt config now)
    (h : mineableAll crates rt config now steps r = true) :
    (mineAll crates rt config steps r).Complete crates rt config now := by
  induction steps generalizing r with
  | nil => exact hr
  | cons e steps ih =>
    obtain ⟨hmine, hsteps⟩ := Bool.and_eq_true_iff.mp h
    refine ih (hasTip_mineOn crates rt config e.1 e.2 htip) ?_ hsteps
    exact foldlM_concat_ok.mpr
      ⟨r, hr, replayBlock_mineOn crates rt config now e.1 e.2 hnz hexec htip hmine⟩

/-- The replay of a chain that is only a genesis block. -/
def genesisReplay (genesis : Block) : Replay :=
  ⟨[genesis], stateAfter crates rt config Replay.start genesis,
    collectBlockCodes crates genesis config.chainId ∅⟩

theorem complete_genesisReplay {genesis : Block}
    (h : (replayBlock crates rt config now Replay.start genesis).isOk = true) :
    (genesisReplay crates rt config genesis).Complete crates rt config now := by
  obtain ⟨r, hr⟩ := isOk_iff.mp h
  obtain ⟨state, hvalid, rfl⟩ := (replayBlock_ok crates rt).mp hr
  obtain ⟨vm, happlied⟩ := (applyAndExecute_ok crates rt).mp hvalid.applied
  have hstate : stateAfter crates rt config Replay.start genesis = state := by
    change (match applyBlockWithVm crates rt.exec State.new genesis config.chainId
      (rt.seed (∅ : CodeRegistry)) with
      | .ok x => x.1
      | .error _ => State.new) = state
    have happlied' : applyBlockWithVm crates rt.exec State.new genesis config.chainId
      (rt.seed (∅ : CodeRegistry)) = .ok (state, vm) := happlied
    rw [happlied']
  refine foldlM_cons_ok.mpr ⟨_, hr, foldlM_nil_ok.mpr ?_⟩
  rw [genesisReplay, hstate]
  rfl

end

/-! ### Regtest -/

/-- An executor over the code registry: a frame without code at its address fails, any
other does nothing but take the value sent. -/
def registryVm : VmExecutor CodeRegistry where
  execute codes ctx :=
    match codes[ctx.callee]? with
    | none => .error (.hostFunctionError "execute"
        ("no contract code for address " ++ ctx.callee))
    | some _ => .ok ⟨0, [], .success, [], ∅,
        if ctx.value > 0 then [⟨ctx.caller, ctx.callee, ctx.value⟩] else []⟩
  executeConstructor codes ctx :=
    match codes[ctx.callee]? with
    | none => .error (.hostFunctionError "execute"
        ("no contract code for address " ++ ctx.callee))
    | some _ => .ok ⟨0, [], .success, [], ∅, []⟩
  registerCode codes address wasm := .ok (codes.insert address wasm)

theorem headerBlind_registryVm : HeaderBlind registryVm := fun _ _ _ => ⟨rfl, rfl⟩

def registryRuntime : Runtime CodeRegistry where
  exec := registryVm
  seed := id
  jsonSize tx := (serializeTransactionSigned tx).length

def regtestConfig : NodeConfig := (Blockchain.empty CHAIN_ID_REGTEST).toNodeConfig

def regtestTemplate : Block :=
  genesisTemplate nonzeroCrates 0
    (.coinbase "genesis" "regtest_initial_holder" 1000000000 CHAIN_ID_REGTEST)
    CURRENT_CONSENSUS_VERSION

/-- The genesis block of regtest. -/
def regtestGenesis : Block :=
  { regtestTemplate with hash := storedHash nonzeroCrates regtestTemplate }

def regtestReplay : Replay :=
  genesisReplay nonzeroCrates registryRuntime regtestConfig regtestGenesis

/-- That block, for evaluation. -/
def evalGenesis : Block :=
  let template := genesisTemplate evalCrates 0
    (.coinbase "genesis" "regtest_initial_holder" 1000000000 CHAIN_ID_REGTEST)
    CURRENT_CONSENSUS_VERSION
  { template with hash := storedHash evalCrates template }

theorem regtestGenesis_eq : regtestGenesis = evalGenesis := by
  unfold regtestGenesis regtestTemplate
  rw [nonzeroCrates_eq]
  rfl

theorem regtestReplay_eq :
    regtestReplay = genesisReplay evalCrates registryRuntime regtestConfig evalGenesis := by
  rw [regtestReplay, nonzeroCrates_eq, regtestGenesis_eq]

theorem hasTip_regtestReplay : regtestReplay.HasTip := by
  have hprevious : regtestTemplate.previousHash = hexEncode zeroDigest.toList := by decide
  obtain ⟨hash, -, hstored⟩ := storedHash_eq nonzeroCrates hprevious rfl
  exact ⟨regtestGenesis, hash, rfl, hstored, rfl⟩

theorem complete_regtestReplay {now : UInt64} (hrange : ClockInRange now) :
    regtestReplay.Complete nonzeroCrates registryRuntime regtestConfig now := by
  have hok : (replayBlock nonzeroCrates registryRuntime regtestConfig 0 Replay.start
      regtestGenesis).isOk = true := by
    rw [nonzeroCrates_eq, regtestGenesis_eq]
    decide +kernel
  exact replay_later _ _ UInt64.zero_le hrange (complete_genesisReplay _ _ _ _ hok)

/-- A chain mined on the regtest genesis. -/
def regtestChain (steps : List (UInt64 × List Transaction)) : Replay :=
  mineAll nonzeroCrates registryRuntime regtestConfig steps regtestReplay

theorem regtestChain_eq (steps : List (UInt64 × List Transaction)) : regtestChain steps =
    mineAll evalCrates registryRuntime regtestConfig steps
      (genesisReplay evalCrates registryRuntime regtestConfig evalGenesis) := by
  rw [regtestChain, nonzeroCrates_eq, regtestReplay_eq]

/-- Whether such a chain is accepted. -/
def regtestMineable (now : UInt64) (steps : List (UInt64 × List Transaction)) : Bool :=
  mineableAll nonzeroCrates registryRuntime regtestConfig now steps regtestReplay

theorem regtestMineable_eq (now : UInt64) (steps : List (UInt64 × List Transaction)) :
    regtestMineable now steps = mineableAll evalCrates registryRuntime regtestConfig now steps
      (genesisReplay evalCrates registryRuntime regtestConfig evalGenesis) := by
  rw [regtestMineable, nonzeroCrates_eq, regtestReplay_eq]

theorem complete_regtestChain {now : UInt64} {steps : List (UInt64 × List Transaction)}
    (hrange : ClockInRange now) (h : mineableAll evalCrates registryRuntime regtestConfig now steps
      (genesisReplay evalCrates registryRuntime regtestConfig evalGenesis) = true) :
    (regtestChain steps).Complete nonzeroCrates registryRuntime regtestConfig now := by
  rw [← regtestMineable_eq] at h
  exact complete_mineAll _ _ _ _ nonzeroCrates_ne headerBlind_registryVm steps hasTip_regtestReplay
    (complete_regtestReplay hrange) h

end Strangecoin
