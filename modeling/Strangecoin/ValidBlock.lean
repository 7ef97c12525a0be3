import Strangecoin.Node
import Strangecoin.RecordFree

/-! # Valid blocks

`ValidBlock` says what the gate requires of a block, and what state it returns.  It does
not depend on the records of the parent state, and a later clock only allows more, unless
`now + MAX_FUTURE_TIME` wraps.
-/
namespace Strangecoin

section
variable {V : Type} (crates : Crates) (rt : Runtime V)

/-! ### What the gate requires -/

/-- Everything `validate_and_apply` checks, with the state it returns. -/
structure ValidBlock (parent : State) (block : Block) (view : BlockView) (state : State) :
    Prop where
  sizes : validateSizes block = .ok ()
  position : validatePosition block view.chain = .ok ()
  hash : validateHash crates block = .ok ()
  version : validateVersion block view = .ok ()
  txRoot : validateTxRoot crates block = .ok ()
  timestamp : validateTimestamp block view.chain view.now = .ok ()
  work : validateWork crates block view.chain = .ok ()
  transactions : validateTransactions crates block view = .ok ()
  gasLimit : enforceBlockGasLimit block.transactions = .ok ()
  applied : applyAndExecute crates rt parent block view = .ok state
  receiptGas : enforceReceiptGasLimit state.receipts = .ok ()
  stateRoot : validateStateRoot crates block view state = .ok ()
  receiptsRoot : validateReceiptsRoot crates block state = .ok ()

variable {parent state : State} {block : Block} {view : BlockView}

theorem validateAndApply_ok : validateAndApply crates rt parent block view = .ok state ↔
    ValidBlock crates rt parent block view state := by
  unfold validateAndApply
  constructor
  · intro h
    obtain ⟨⟨⟩, sizes, h⟩ := bind_eq_ok.mp h
    obtain ⟨⟨⟩, position, h⟩ := bind_eq_ok.mp h
    obtain ⟨⟨⟩, hash, h⟩ := bind_eq_ok.mp h
    obtain ⟨⟨⟩, version, h⟩ := bind_eq_ok.mp h
    obtain ⟨⟨⟩, txRoot, h⟩ := bind_eq_ok.mp h
    obtain ⟨⟨⟩, timestamp, h⟩ := bind_eq_ok.mp h
    obtain ⟨⟨⟩, work, h⟩ := bind_eq_ok.mp h
    obtain ⟨⟨⟩, transactions, h⟩ := bind_eq_ok.mp h
    obtain ⟨⟨⟩, gasLimit, h⟩ := bind_eq_ok.mp h
    obtain ⟨newState, applied, h⟩ := bind_eq_ok.mp h
    obtain ⟨⟨⟩, receiptGas, h⟩ := bind_eq_ok.mp h
    obtain ⟨⟨⟩, stateRoot, h⟩ := bind_eq_ok.mp h
    obtain ⟨⟨⟩, receiptsRoot, h⟩ := bind_eq_ok.mp h
    cases h
    exact ⟨sizes, position, hash, version, liftCore_eq_ok.mp txRoot, timestamp, work, transactions,
      gasLimit, applied, receiptGas, stateRoot, receiptsRoot⟩
  · intro h
    rw [h.sizes, h.position, h.hash, h.version, h.txRoot, h.timestamp, h.work, h.transactions,
      h.gasLimit, h.applied]
    change (enforceReceiptGasLimit state.receipts >>= _) = _
    rw [h.receiptGas]
    change (validateStateRoot crates block view state >>= _) = _
    rw [h.stateRoot]
    change (validateReceiptsRoot crates block state >>= _) = _
    rw [h.receiptsRoot]
    rfl

theorem applyAndExecute_ok : applyAndExecute crates rt parent block view = .ok state ↔
    ∃ vm, applyBlockWithVm crates rt.exec parent block view.chainId (rt.seed view.codes) =
      .ok (state, vm) := by
  unfold applyAndExecute
  rw [bind_eq_ok]
  constructor
  · rintro ⟨⟨_, vm⟩, h, ⟨⟩⟩
    exact ⟨vm, liftCore_eq_ok.mp h⟩
  · rintro ⟨vm, h⟩
    exact ⟨_, liftCore_eq_ok.mpr h, rfl⟩

/-- The state of a valid block is that of the block's transition. -/
theorem ValidBlock.applyBlockInner (h : ValidBlock crates rt parent block view state) :
    ∃ vm, Strangecoin.applyBlockInner crates rt.exec parent block view.chainId
      (some (rt.seed view.codes)) = .ok (state, vm) := by
  obtain ⟨vm, happly⟩ := (applyAndExecute_ok crates rt).mp h.applied
  obtain ⟨⟨_, vm'⟩, hinner, ⟨⟩⟩ := bind_eq_ok.mp happly
  exact ⟨vm', hinner⟩

/-- The records of the parent state do not matter. -/
theorem ValidBlock.same {parent' : State} (h : ValidBlock crates rt parent block view state)
    (hsame : parent.Same parent') :
    ∃ state', ValidBlock crates rt parent' block view state' ∧ state.Same state' ∧
      state.receipts = state'.receipts := by
  obtain ⟨vm, hinner⟩ := h.applyBlockInner
  obtain ⟨⟨state', vm'⟩, hinner', hstate, hreceipts, -⟩ :=
    (hsame.applyBlockInner crates rt.exec block view.chainId _).of_ok hinner
  refine ⟨state', { h with
    applied := (applyAndExecute_ok crates rt).mpr ⟨_, bind_eq_ok.mpr ⟨_, hinner', rfl⟩⟩
    receiptGas := ?_
    stateRoot := ?_
    receiptsRoot := ?_ }, hstate, hreceipts⟩
  · rw [← hreceipts]
    exact h.receiptGas
  · unfold validateStateRoot
    rw [← hstate.1]
    exact h.stateRoot
  · unfold validateReceiptsRoot
    rw [← hreceipts]
    exact h.receiptsRoot

/-- A clock reading at which the future limit does not wrap. -/
def ClockInRange (now : UInt64) : Prop := now.toNat + MAX_FUTURE_TIME.toNat < 2 ^ 64

instance ClockInRange.decidable (now : UInt64) : Decidable (ClockInRange now) :=
  inferInstanceAs (Decidable (_ < _))

variable {chain : List Block}

theorem validateTimestamp_later {now later : UInt64} (hle : now ≤ later)
    (hrange : ClockInRange later) (h : validateTimestamp block chain now = .ok ()) :
    validateTimestamp block chain later = .ok () := by
  unfold validateTimestamp at h ⊢
  split
  · rfl
  · rename_i hindex
    rw [if_neg hindex] at h
    obtain ⟨mtp, hmtp, h⟩ := bind_eq_ok.mp h
    obtain ⟨⟨⟩, hold, h⟩ := bind_eq_ok.mp h
    refine bind_eq_ok.mpr ⟨mtp, hmtp, bind_eq_ok.mpr ⟨(), hold, ?_⟩⟩
    rw [liftCore_eq_ok, guardWith_eq_ok] at h ⊢
    -- neither sum wraps: `later` is in range, and `now` is not above it
    rw [UInt64.le_iff_toNat_le] at hle
    have hlimit : ∀ t : UInt64, t.toNat ≤ later.toNat →
        (t + MAX_FUTURE_TIME).toNat = t.toNat + MAX_FUTURE_TIME.toNat := by
      intro t ht
      unfold ClockInRange at hrange
      rw [UInt64.toNat_add, Nat.mod_eq_of_lt (by omega)]
    rw [UInt64.le_iff_toNat_le, hlimit now hle] at h
    rw [UInt64.le_iff_toNat_le, hlimit later le_rfl]
    omega

/-- A later clock allows what an earlier one did. -/
theorem ValidBlock.later {later : UInt64} (h : ValidBlock crates rt parent block view state)
    (hle : view.now ≤ later) (hrange : ClockInRange later) :
    ValidBlock crates rt parent block { view with now := later } state :=
  { h with timestamp := validateTimestamp_later hle hrange h.timestamp }

/-- A valid block stands at the height of its chain. -/
theorem ValidBlock.index (h : ValidBlock crates rt parent block view state) :
    block.index = UInt64.ofNat view.chain.length := by
  have hposition := h.position
  unfold validatePosition at hposition
  by_cases hindex : block.index = 0
  · rw [if_pos hindex] at hposition
    obtain ⟨⟨⟩, hempty, -⟩ := bind_eq_ok.mp hposition
    rw [guardNode_eq_ok] at hempty
    rw [hindex, hempty]
    rfl
  · rw [if_neg hindex] at hposition
    obtain ⟨parent, -, hposition⟩ := bind_eq_ok.mp hposition
    obtain ⟨⟨⟩, hlength, -⟩ := bind_eq_ok.mp hposition
    rw [guardNode_eq_ok] at hlength
    rw [← hlength, UInt64.ofNat_toNat]

/-! ### Replay -/

variable {config : NodeConfig} {now now' : UInt64} {r r' : Replay}

theorem replayBlock_ok : replayBlock crates rt config now r block = .ok r' ↔
    ∃ state, ValidBlock crates rt r.state block
        (config.viewAt r.done now (UInt64.ofNat r.done.length) r.codes) state ∧
      r' = ⟨r.done ++ [block], state, collectBlockCodes crates block config.chainId r.codes⟩ := by
  unfold replayBlock
  rw [bind_eq_ok]
  constructor
  · rintro ⟨state, h, ⟨⟩⟩
    exact ⟨state, (validateAndApply_ok crates rt).mp h, rfl⟩
  · rintro ⟨state, h, rfl⟩
    exact ⟨state, (validateAndApply_ok crates rt).mpr h, rfl⟩

/-- The blocks done and the codes of a replay, from any point on. -/
theorem replay_done (h : chain.foldlM (replayBlock crates rt config now) r = .ok r') :
    r'.done = r.done ++ chain ∧
      r'.codes = chain.foldl (fun codes b => collectBlockCodes crates b config.chainId codes)
        r.codes := by
  induction chain generalizing r with
  | nil =>
    cases foldlM_nil_ok.mp h
    exact ⟨(List.append_nil _).symm, rfl⟩
  | cons b chain ih =>
    obtain ⟨u, hu, h⟩ := foldlM_cons_ok.mp h
    obtain ⟨state, -, rfl⟩ := (replayBlock_ok crates rt).mp hu
    obtain ⟨hdone, hcodes⟩ := ih h
    refine ⟨?_, hcodes⟩
    rw [hdone, List.append_assoc, List.singleton_append]

theorem replay_later (hle : now ≤ now') (hrange : ClockInRange now')
    (h : chain.foldlM (replayBlock crates rt config now) r = .ok r') :
    chain.foldlM (replayBlock crates rt config now') r = .ok r' := by
  induction chain generalizing r with
  | nil => exact foldlM_nil_ok.mpr (foldlM_nil_ok.mp h)
  | cons b chain ih =>
    obtain ⟨u, hu, h⟩ := foldlM_cons_ok.mp h
    obtain ⟨state, hvalid, rfl⟩ := (replayBlock_ok crates rt).mp hu
    have hlater : ValidBlock crates rt r.state b
        (config.viewAt r.done now' (UInt64.ofNat r.done.length) r.codes) state :=
      hvalid.later crates rt hle hrange
    exact foldlM_cons_ok.mpr ⟨_, (replayBlock_ok crates rt).mpr ⟨state, hlater, rfl⟩, ih h⟩

theorem rebuildFromChain_ok {cache : StateCache} {receipts : List Receipt} :
    rebuildFromChain crates rt config chain now = .ok (cache, receipts) ↔
      ∃ r, chain.foldlM (replayBlock crates rt config now) Replay.start = .ok r ∧
        cache = .fromState r.state ∧ receipts = r.state.receipts := by
  unfold rebuildFromChain
  rw [bind_eq_ok]
  constructor
  · rintro ⟨r, h, ⟨⟩⟩
    exact ⟨r, h, rfl, rfl⟩
  · rintro ⟨r, h, rfl, rfl⟩
    exact ⟨r, h, rfl⟩

end

end Strangecoin
