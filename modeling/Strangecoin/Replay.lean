import Strangecoin.SealedBlocks

/-! # Incremental execution and replay

A node extends its chain block by block from its cache; a replay starts from nothing.
The two validate a block against states that differ in the records of earlier blocks, at
different clock readings.
-/
namespace Strangecoin
open Blockchain

section
variable {V : Type} (crates : Crates) (rt : Runtime V) {block : Block} {now now' : UInt64}

/-! ### Nodes in step with their replay -/

/-- Accounts, storage, receipts, codes and work are those of the chain, replayed at a
clock reading. -/
structure Synced (node : Blockchain) (now : UInt64) : Prop where
  rebuilt : rebuildFromChain crates rt node.toNodeConfig node.chain now =
    .ok (node.balances, node.receipts)
  codes : node.codes = codesFromChain crates node.chain node.chainId
  work : cumulativeWork node.chain = .ok node.totalWork

variable {node node' : Blockchain}

/-- What a committed block does to the node. -/
theorem commitBlock_ok :
    (commitBlock crates rt block now).run node = .ok () node' ↔
      ∃ state work, ValidBlock crates rt node.balances.toState block (node.viewFor block.index now)
          state ∧
        cumulativeWork (node.chain ++ [block]) = .ok work ∧
        node' = { node with
          receipts := state.receipts
          balances := .fromState state
          codes := collectBlockCodes crates block node.chainId node.codes
          mempool := confirmTransactions crates node.mempool block
          chain := node.chain ++ [block]
          totalWork := work } := by
  unfold commitBlock
  rw [run_get_bind, run_check_bind_ok]
  simp only [run_modify_bind, run_get_bind, run_check_bind_ok, validateAndApply_ok]
  constructor
  · rintro ⟨state, hvalid, work, hwork, ⟨⟩⟩
    exact ⟨state, work, hvalid, hwork, rfl⟩
  · rintro ⟨state, work, hvalid, hwork, rfl⟩
    exact ⟨state, hvalid, work, hwork, rfl⟩

theorem Synced.later (h : Synced crates rt node now) (hle : now ≤ now')
    (hrange : ClockInRange now') : Synced crates rt node now' := by
  obtain ⟨r, hr, hcache, hreceipts⟩ := (rebuildFromChain_ok crates rt).mp h.rebuilt
  exact { h with
    rebuilt := (rebuildFromChain_ok crates rt).mpr
      ⟨r, replay_later crates rt hle hrange hr, hcache, hreceipts⟩ }

theorem Synced.commitBlock (h : Synced crates rt node now)
    (hrun : (commitBlock crates rt block now).run node = .ok () node') :
    Synced crates rt node' now := by
  obtain ⟨state, work, hvalid, hwork, rfl⟩ := (commitBlock_ok crates rt).mp hrun
  obtain ⟨r, hr, hcache, hreceipts⟩ := (rebuildFromChain_ok crates rt).mp h.rebuilt
  obtain ⟨hdone, hcodes⟩ := replay_done crates rt hr
  have hcodes' : r.codes = node.codes := hcodes.trans h.codes.symm
  -- the replay reaches the block in a state with other records, at the same height
  have hsame : node.balances.toState.Same r.state := by
    rw [hcache]
    exact State.Same.refl r.state
  obtain ⟨state', hvalid', hstate, hreceipts'⟩ := hvalid.same crates rt hsame
  have hindex : block.index = UInt64.ofNat node.chain.length := hvalid.index crates rt
  refine ⟨?_, ?_, hwork⟩
  · refine (rebuildFromChain_ok crates rt).mpr ⟨⟨r.done ++ [block], state',
      collectBlockCodes crates block node.chainId r.codes⟩, ?_, ?_, hreceipts'⟩
    · refine foldlM_concat_ok.mpr ⟨r, hr, (replayBlock_ok crates rt).mpr ⟨state', ?_, rfl⟩⟩
      rw [hdone, hcodes']
      change ValidBlock crates rt r.state block
        (node.viewAt node.chain now (UInt64.ofNat node.chain.length) node.codes) state'
      rw [← hindex]
      exact hvalid'
    · exact StateCache.ext hstate.1 hstate.2
  · change collectBlockCodes crates block node.chainId node.codes = _
    rw [h.codes, codesFromChain, codesFromChain, List.foldl_append]
    rfl

/-- Blocks committed one after the other, each at a clock reading. -/
def commitBlocks (commits : List (Block × UInt64)) : EStateM Failure Blockchain Unit :=
  commits.forM fun e => commitBlock crates rt e.1 e.2

theorem commitBlocks_cons_ok {e : Block × UInt64} {commits : List (Block × UInt64)} :
    (commitBlocks crates rt (e :: commits)).run node = .ok () node' ↔
      ∃ next, (commitBlock crates rt e.1 e.2).run node = .ok () next ∧
        (commitBlocks crates rt commits).run next = .ok () node' := by
  change (commitBlock crates rt e.1 e.2 >>= fun _ => commitBlocks crates rt commits).run
    node = _ ↔ _
  rw [run_seq_ok]
  constructor
  · rintro ⟨⟨⟩, next, hcommit, hrun⟩
    exact ⟨next, hcommit, hrun⟩
  · rintro ⟨next, hcommit, hrun⟩
    exact ⟨(), next, hcommit, hrun⟩

theorem commitBlocks_nil_ok :
    (commitBlocks crates rt []).run node = .ok () node' ↔ node = node' := by
  constructor
  · rintro ⟨⟩
    rfl
  · rintro rfl
    rfl

/-- **Incremental execution equals replay.**  A node in step with the replay of its chain
is so after every run of accepted blocks at non-decreasing clock readings, at every later
clock reading that leaves room for the future limit. -/
theorem incremental_eq_replay (node node' : Blockchain) (start later : UInt64)
    (commits : List (Block × UInt64)) (hsynced : Synced crates rt node start)
    (hrun : (commitBlocks crates rt commits).run node = .ok () node')
    (hclock : (start :: (commits.map Prod.snd ++ [later])).Pairwise (· ≤ ·))
    (hrange : ClockInRange later) :
    Synced crates rt node' later := by
  induction commits generalizing node start with
  | nil =>
    cases (commitBlocks_nil_ok crates rt).mp hrun
    exact hsynced.later crates rt (by simpa using hclock) hrange
  | cons e commits ih =>
    obtain ⟨block, now⟩ := e
    obtain ⟨next, hcommit, hrun⟩ := (commitBlocks_cons_ok crates rt).mp hrun
    obtain ⟨hstart, hclock⟩ := List.pairwise_cons.mp hclock
    have hnow : now ≤ later := (List.pairwise_cons.mp hclock).1 later (by simp)
    have hnowRange : ClockInRange now := by
      rw [UInt64.le_iff_toNat_le] at hnow
      unfold ClockInRange at hrange ⊢
      omega
    have hsynced' := hsynced.later crates rt (hstart now (by simp)) hnowRange
    exact ih next now (hsynced'.commitBlock crates rt hcommit) hrun hclock

/-! ### Validating the stored chain -/

/-- Every block of a replay has passed the size check. -/
theorem allM_withinBlockSize {config : NodeConfig} {chain : List Block} {r r' : Replay}
    (h : chain.foldlM (replayBlock crates rt config now) r = .ok r') :
    chain.allM withinBlockSize = .ok true := by
  induction chain generalizing r with
  | nil => rfl
  | cons block chain ih =>
    obtain ⟨r₁, hblock, hrest⟩ := foldlM_cons_ok.mp h
    obtain ⟨state, hvalid, -⟩ := (replayBlock_ok crates rt).mp hblock
    obtain ⟨bytes, hbytes, hsizes⟩ := bind_eq_ok.mp hvalid.sizes
    obtain ⟨⟨⟩, hlength, -⟩ := bind_eq_ok.mp hsizes
    have hsize : withinBlockSize block = .ok true := by
      rw [withinBlockSize, hbytes]
      exact congrArg _ (decide_eq_true (guardNode_eq_ok.mp hlength))
    rw [List.allM, hsize]
    exact ih hrest

/-- **The stored chain of a node in step with its replay validates**: the answer is whether the
pending transactions can be paid one after the other, in the order they are given. -/
theorem validateChain_of_synced (h : Synced crates rt node now)
    (hchain : node.chain ≠ []) (transactions : List Transaction) :
    node.validateChain crates rt now transactions =
      .ok (transactions.foldlM spendPending node.balances.toState).isSome := by
  obtain ⟨r, hr, -⟩ := (rebuildFromChain_ok crates rt).mp h.rebuilt
  have hreplay : replayCandidate crates rt node.toNodeConfig node.chain now =
      .ok (some (node.balances, node.receipts)) := by
    rw [replayCandidate, h.rebuilt]
  rw [validateChain, if_neg hchain, allM_withinBlockSize crates rt hr]
  dsimp only [bind, Except.bind]
  rw [if_pos rfl, hreplay]
  cases hwalk : transactions.foldlM spendPending node.balances.toState with
  | none =>
    dsimp only
    rw [hwalk]
    rfl
  | some state =>
    dsimp only
    rw [hwalk]
    exact congrArg _ (decide_eq_true rfl)

/-! ### The node of a replay -/

def workOf (chain : List Block) : U256 :=
  match cumulativeWork chain with
  | .ok work => work
  | .error _ => U256.zero

/-- The node in step with a replay, with some pending transactions. -/
def Blockchain.ofReplay (config : NodeConfig) (r : Replay) (pool : Mempool) : Blockchain :=
  { config with
    chain := r.done
    balances := .fromState r.state
    difficulty := 1
    mempool := pool
    totalWork := workOf r.done
    codes := r.codes
    receipts := r.state.receipts }

variable {config : NodeConfig} {r r' : Replay} {pool : Mempool}

theorem cumulativeWork_of_isOk {chain : List Block} (h : (cumulativeWork chain).isOk = true) :
    cumulativeWork chain = .ok (workOf chain) := by
  obtain ⟨work, hwork⟩ := isOk_iff.mp h
  rw [workOf, hwork]

theorem synced_ofReplay (h : r.Complete crates rt config now)
    (hwork : (cumulativeWork r.done).isOk = true) :
    Synced crates rt (.ofReplay config r pool) now where
  rebuilt := (rebuildFromChain_ok crates rt).mpr ⟨r, h, rfl, rfl⟩
  codes := (replay_done crates rt h).2
  work := cumulativeWork_of_isOk hwork

/-- **What a replay accepts, the node in step with it accepts.** -/
theorem commitBlock_ofReplay (h : replayBlock crates rt config now r block = .ok r')
    (hwork : (cumulativeWork r'.done).isOk = true) :
    (commitBlock crates rt block now).run (.ofReplay config r pool) =
      .ok () (.ofReplay config r' (confirmTransactions crates pool block)) := by
  obtain ⟨state, hvalid, rfl⟩ := (replayBlock_ok crates rt).mp h
  have hindex : block.index = UInt64.ofNat r.done.length := hvalid.index crates rt
  have hsame : r.state.Same (StateCache.fromState r.state).toState := State.Same.refl r.state
  obtain ⟨state', hvalid', hstate, hreceipts⟩ := hvalid.same crates rt hsame
  refine (commitBlock_ok crates rt).mpr ⟨state', _, ?_, cumulativeWork_of_isOk hwork, ?_⟩
  · change ValidBlock crates rt _ block (config.viewAt r.done now block.index r.codes) state'
    rw [hindex]
    exact hvalid'
  · have hcache : StateCache.fromState state = StateCache.fromState state' :=
      StateCache.ext hstate.1 hstate.2
    simp only [ofReplay, hcache, hreceipts]

end

/-- A block that pays its miner nothing, as on regtest. -/
def unpaid (miner : String) : Transaction := .transfer (.reward CHAIN_ID_REGTEST miner 0)

/-- A block two hours ahead of a clock at zero. -/
def aheadStep : UInt64 × List Transaction := (7200, [unpaid "miner"])

def aheadBlock : Block :=
  minedBlock nonzeroCrates registryRuntime regtestConfig regtestReplay aheadStep.1 aheadStep.2

def aheadReplay : Replay := regtestChain [aheadStep]

/-- The node with the regtest genesis only. -/
def regtestNode : Blockchain :=
  .ofReplay regtestConfig regtestReplay (Mempool.new CHAIN_ID_REGTEST)

theorem clockInRange_zero : ClockInRange 0 := by decide

theorem synced_regtestNode {now : UInt64} (hrange : ClockInRange now) :
    Synced nonzeroCrates registryRuntime regtestNode now :=
  synced_ofReplay _ _ (complete_regtestReplay hrange) (by decide)

theorem validateChain_regtest : regtestNode.validateChain nonzeroCrates registryRuntime 0
    [unpaid "miner"] = .ok true :=
  validateChain_of_synced _ _ (synced_regtestNode clockInRange_zero) (List.cons_ne_nil _ _) _

theorem aheadReplay_eq : aheadReplay = mineOn nonzeroCrates registryRuntime regtestConfig
    regtestReplay 7200 [unpaid "miner"] := rfl

theorem commit_ahead :
    (commitBlocks nonzeroCrates registryRuntime [(aheadBlock, 0)]).run regtestNode =
      .ok () (.ofReplay regtestConfig aheadReplay (Mempool.new CHAIN_ID_REGTEST)) := by
  have hmine : mineable nonzeroCrates registryRuntime regtestConfig 0 regtestReplay 7200
      [unpaid "miner"] = true := by decide
  have hreplay : replayBlock nonzeroCrates registryRuntime regtestConfig 0 regtestReplay
      aheadBlock = .ok aheadReplay := by
    rw [aheadReplay_eq]
    exact replayBlock_mineOn _ _ _ _ _ _ nonzeroCrates_ne headerBlind_registryVm
      hasTip_regtestReplay hmine
  have hwork : (cumulativeWork aheadReplay.done).isOk = true := by decide
  have hpool : confirmTransactions nonzeroCrates (Mempool.new CHAIN_ID_REGTEST)
      aheadBlock = Mempool.new CHAIN_ID_REGTEST := rfl
  have hcommit := @commitBlock_ofReplay _ _ _ _ _ _ _ _ (Mempool.new CHAIN_ID_REGTEST) hreplay hwork
  rw [hpool] at hcommit
  exact (commitBlocks_cons_ok _ _).mpr ⟨_, hcommit, (commitBlocks_nil_ok _ _).mpr rfl⟩

theorem incremental_eq_replay_ahead :
    Synced nonzeroCrates registryRuntime
      (.ofReplay regtestConfig aheadReplay (Mempool.new CHAIN_ID_REGTEST)) 100 :=
  incremental_eq_replay nonzeroCrates registryRuntime regtestNode _ 0 100 [(aheadBlock, 0)]
    (synced_regtestNode clockInRange_zero) commit_ahead (by decide) (by decide)

/-- **At the end of the clock's range the same chain is rejected**: the limit for
timestamps has wrapped to 7199. -/
theorem replay_rejects_at_clock_end :
    ¬ ∀ (node node' : Blockchain) (start later : UInt64) (commits : List (Block × UInt64)),
      Synced nonzeroCrates registryRuntime node start →
      (commitBlocks nonzeroCrates registryRuntime commits).run node = .ok () node' →
      (start :: (commits.map Prod.snd ++ [later])).Pairwise (· ≤ ·) →
      Synced nonzeroCrates registryRuntime node' later := by
  intro h
  have hsynced := h regtestNode _ 0 0xffffffffffffffff [(aheadBlock, 0)]
    (synced_regtestNode clockInRange_zero) commit_ahead (by decide)
  obtain ⟨r, hr, -⟩ := (rebuildFromChain_ok _ _).mp hsynced.rebuilt
  change ([regtestGenesis] ++ [aheadBlock]).foldlM _ _ = _ at hr
  obtain ⟨u, hu, hv⟩ := foldlM_concat_ok.mp hr
  have hdone : u.done = [regtestGenesis] := (replay_done _ _ hu).1
  obtain ⟨state, hvalid, -⟩ := (replayBlock_ok _ _).mp hv
  have htime : validateTimestamp aheadBlock u.done 0xffffffffffffffff = .ok () := hvalid.timestamp
  rw [hdone] at htime
  have hrejected : (validateTimestamp aheadBlock [regtestGenesis] 0xffffffffffffffff).isOk =
      false := by decide
  rw [isOk_iff.mpr ⟨_, htime⟩] at hrejected
  cases hrejected

end Strangecoin
