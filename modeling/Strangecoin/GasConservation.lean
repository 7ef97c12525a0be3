import Strangecoin.BlockGas
import Strangecoin.WasmRuns

/-! # Gas along call trees

Within one frame the fuel that is left and what was spent add up to the frame's gas limit,
whatever the scripts do (`Store.Metered`).  A nested call takes from its parent what the child
has spent: nothing for an address without code, its declared gas for a precompile, what was
spent in the child's own frame for code, and the child's whole budget when it failed.
-/
namespace Strangecoin

/-! ### What a frame spends -/

/-- The gas of a precompile that does not fail exceptionally. -/
def precompileGas (engine : WasmEngine) (ctx : ExecutionContext) : Nat :=
  match engine.dispatchPrecompile ctx.callee ctx.input with
  | .ok out => out.gasUsed.toNat
  | .error (.notImplemented _ gasUsed) => min gasUsed.toNat ctx.gasLimit.toNat
  | .error (.invalidInput _) => ctx.gasLimit.toNat

/-- What a nested call consumes, if `inside` was spent in the child's frame. -/
def CallRecord.consumed (engine : WasmEngine) (record : CallRecord) (inside : Nat) : Nat :=
  if record.status = .failed then record.child.gasLimit.toNat
  else match record.callee with
    | .nothing => 0
    | .precompile => precompileGas engine record.child
    | .code => inside

namespace History

/-- The gas spent in a frame: its own charges and what its nested calls consumed. -/
def spent (engine : WasmEngine) : History → Nat
  | start => 0
  | charged before gas => before.spent engine + gas.toNat
  | effect before _ => before.spent engine
  | refused before _ => before.spent engine
  | called before record inside =>
    before.spent engine + record.consumed engine (inside.spent engine)
  | aborted before _ _ => before.spent engine

/-- At every depth: no child starts with more than its parent has left, and a call that came
back has lowered the parent's fuel by exactly what it consumed. -/
def Conserved (engine : WasmEngine) : History → Prop
  | start => True
  | charged before _ => before.Conserved engine
  | effect before _ => before.Conserved engine
  | refused before _ => before.Conserved engine
  | called before record inside =>
    before.Conserved engine ∧ inside.Conserved engine ∧
      record.child.gasLimit ≤ record.parentFuel ∧
      record.fuelAfter.toNat + record.consumed engine (inside.spent engine) =
        record.parentFuel.toNat
  | aborted before started inside =>
    before.Conserved engine ∧ inside.Conserved engine ∧
      started.child.gasLimit ≤ started.parentFuel

end History

/-! ### One step -/

/-- The fuel that is left and what was spent are the gas limit. -/
structure Store.Metered (engine : WasmEngine) (gasLimit : UInt64) (store : Store) : Prop where
  total : store.fuel.toNat + store.history.spent engine = gasLimit.toNat
  conserved : store.history.Conserved engine

/-- A frame that keeps to its gas limit. -/
structure FrameRun.Metered (engine : WasmEngine) (gasLimit : UInt64) (run : FrameRun) : Prop where
  conserved : run.history.Conserved engine
  spent_le : run.history.spent engine ≤ gasLimit.toNat
  /-- A frame that returns has used what was spent, or fails with its whole budget. -/
  gasUsed : ∀ frame, run.outcome = .ok frame →
    (frame.result.status = .success ∧ frame.result.gasUsed.toNat = run.history.spent engine) ∨
      (frame.result.status = .failed ∧ frame.result.gasUsed = gasLimit)

section
variable {engine : WasmEngine} {registry : WasmRegistry}
  {enter : List UInt8 → ExecutionContext → List String → FrameRun} {store store' : Store}
  {gasLimit : UInt64}

/-- What a child reports is what it consumed, and within its budget. -/
structure NestedOutcome.Metered (engine : WasmEngine) (child : ExecutionContext)
    (outcome : NestedOutcome) (inside : History) : Prop where
  le : outcome.gasUsed ≤ child.gasLimit
  consumed : ∀ record : CallRecord, record.child = child → record.callee = outcome.callee →
    record.status = outcome.status →
      record.consumed engine (inside.spent engine) = outcome.gasUsed.toNat

theorem metered_burnt (child : ExecutionContext) (callee : Callee) (inside : History) :
    (NestedOutcome.burnt callee child.gasLimit).Metered engine child inside where
  le := UInt64.le_refl _
  consumed record hchild _ hstatus := by
    rw [CallRecord.consumed, hstatus, hchild]
    rfl

theorem metered_plain (child : ExecutionContext) (accounts : HashMap String Account)
    (inside : History) : (NestedOutcome.plain accounts).Metered engine child inside where
  le := UInt64.zero_le
  consumed record _ hcallee hstatus := by
    rw [CallRecord.consumed, hstatus, hcallee]
    rfl

theorem toNat_min (a b : UInt64) : (min a b).toNat = min a.toNat b.toNat := by
  change (if a ≤ b then a else b).toNat = _
  split
  · rename_i hle
    exact (min_eq_left (UInt64.le_iff_toNat_le.mp hle)).symm
  · rename_i hlt
    exact (min_eq_right (UInt64.le_iff_toNat_le.mp (UInt64.le_of_lt (UInt64.not_le.mp hlt)))).symm

theorem metered_nestedPrecompile (child : ExecutionContext) (accounts : HashMap String Account)
    (inside : History) :
    (nestedPrecompile engine child.callee child.input child.gasLimit accounts).Metered engine child
      inside := by
  unfold nestedPrecompile runPrecompileNested
  cases hdispatch : engine.dispatchPrecompile child.callee child.input with
  | ok out =>
    dsimp only
    split
    · refine ⟨UInt64.le_refl _, fun record hchild _ hstatus => ?_⟩
      rw [CallRecord.consumed, hstatus, hchild]
      rfl
    · rename_i hgas
      refine ⟨UInt64.not_lt.mp hgas, fun record hchild hcallee hstatus => ?_⟩
      rw [CallRecord.consumed, hstatus, hcallee, hchild, precompileGas, hdispatch]
      rfl
  | error err =>
    cases err with
    | invalidInput message =>
      refine ⟨UInt64.le_refl _, fun record hchild hcallee hstatus => ?_⟩
      rw [CallRecord.consumed, hstatus, hcallee, hchild, precompileGas, hdispatch]
      rfl
    | notImplemented feature gasUsed =>
      have hmin := toNat_min gasUsed child.gasLimit
      refine ⟨UInt64.le_iff_toNat_le.mpr ?_, fun record hchild hcallee hstatus => ?_⟩
      · exact hmin.trans_le (min_le_right _ _)
      · rw [CallRecord.consumed, hstatus, hcallee, hchild, precompileGas, hdispatch]
        exact hmin.symm

theorem FrameRun.Metered.ofFrame {run : FrameRun} {child : ExecutionContext} {frame : FrameOutcome}
    (h : run.Metered engine child.gasLimit) (hframe : run.outcome = .ok frame) :
    (NestedOutcome.ofFrame frame).Metered engine child run.history := by
  rcases h.gasUsed frame hframe with ⟨hsuccess, hgas⟩ | ⟨hfailed, hgas⟩
  · refine ⟨UInt64.le_iff_toNat_le.mpr (hgas.trans_le h.spent_le), ?_⟩
    intro record _ hcallee hstatus
    have hok : (NestedOutcome.ofFrame frame).status = .ok := by rw [NestedOutcome.ofFrame, hsuccess]
    rw [CallRecord.consumed, hstatus, hok, hcallee]
    exact hgas.symm
  · refine ⟨UInt64.le_of_eq hgas, fun record hchild _ hstatus => ?_⟩
    have hfail : (NestedOutcome.ofFrame frame).status = .failed := by
      rw [NestedOutcome.ofFrame, hfailed]
    rw [CallRecord.consumed, hstatus, hfail, hchild]
    exact congrArg UInt64.toNat hgas.symm

variable (henter : ∀ wasm ctx callStack, (enter wasm ctx callStack).Metered engine ctx.gasLimit)
include henter

/-- **A nested call**: what happens inside conserves gas, and the outcome is metered. -/
theorem runChild_metered
    {host : HostState} {fuel : UInt64} {call : NestedCall} {run : NestedRun}
    (hrun : runChild engine registry enter host fuel call = run) :
    run.history.Conserved engine ∧ ∀ outcome, run.outcome = .ok outcome →
      outcome.Metered engine (childContext host fuel call) run.history := by
  have hburnt : ∀ callee inside, (NestedOutcome.burnt callee fuel).Metered engine
      (childContext host fuel call) inside := by
    intro callee inside
    have h := @metered_burnt engine (childContext host fuel call) callee inside
    rwa [childContext_gasLimit] at h
  have hends := @runChild_ends engine registry enter host fuel call
  rw [hrun] at hends
  cases hends with
  | unpaid =>
    refine ⟨trivial, ?_⟩
    rintro outcome ⟨⟩
    exact hburnt _ _
  | @precompile accounts hpaid haddress =>
    refine ⟨trivial, ?_⟩
    rintro outcome ⟨⟩
    have h := @metered_nestedPrecompile engine (childContext host fuel call) accounts .start
    rwa [childContext_gasLimit, childContext_callee, childContext_input] at h
  | plain hpaid =>
    refine ⟨trivial, ?_⟩
    rintro outcome ⟨⟩
    exact metered_plain _ _ _
  | @code accounts wasm run hpaid hcode hframe =>
    have hmetered : run.Metered engine (childContext host fuel call).gasLimit := by
      rw [← hframe]
      exact henter wasm ((childContext host fuel call).withAccounts accounts) _
    refine ⟨hmetered.conserved, fun outcome hout => ?_⟩
    rcases nestedFrame_ok hout with ⟨frame, hok, rfl⟩ | ⟨address, -, rfl⟩ | rfl
    · exact hmetered.ofFrame hok
    · exact metered_plain _ _ _
    · exact hburnt _ _

/-- **One step** keeps the account of the fuel. -/
theorem HostStep.metered
    (hstep : HostStep engine registry enter store store') (h : store.Metered engine gasLimit) :
    store'.Metered engine gasLimit := by
  cases hstep with
  | charge hfuel =>
    refine ⟨?_, h.conserved⟩
    have hle := UInt64.le_iff_toNat_le.mp hfuel
    have htotal := h.total
    simp only [Store.charged, History.spent, UInt64.toNat_sub_of_le _ _ hfuel]
    omega
  | write hopen hcap => exact ⟨h.total, h.conserved⟩
  | log hopen => exact ⟨h.total, h.conserved⟩
  | refuse hwhy => exact ⟨h.total, h.conserved⟩
  | abort hdepth hentry hrun =>
    have hchild := runChild_metered henter hrun
    exact ⟨h.total, h.conserved, hchild.1, UInt64.le_of_eq (childContext_gasLimit _ _ _)⟩
  | @call call outcome inside hdepth hentry hrun =>
    obtain ⟨hinside, hchild⟩ := runChild_metered henter hrun
    have hmetered := hchild outcome rfl
    have hle : outcome.gasUsed.toNat ≤ store.fuel.toNat := by
      have hle := UInt64.le_iff_toNat_le.mp hmetered.le
      rwa [childContext_gasLimit] at hle
    have hconsumed := hmetered.consumed
      { store.startOf call with
        callee := outcome.callee
        status := outcome.status
        fuelAfter := saturatingSub store.fuel outcome.gasUsed } rfl rfl rfl
    have hafter : (saturatingSub store.fuel outcome.gasUsed).toNat + outcome.gasUsed.toNat =
        store.fuel.toNat := by
      rw [toNat_saturatingSub]
      omega
    have htotal := h.total
    refine ⟨?_, h.conserved, hinside, UInt64.le_of_eq (childContext_gasLimit _ _ _), ?_⟩
    · simp only [Store.called, History.spent, hconsumed]
      omega
    · rw [hconsumed]
      exact hafter

theorem metered_of_steps
    (hsteps : Relation.ReflTransGen (HostStep engine registry enter) store store')
    (h : store.Metered engine gasLimit) : store'.Metered engine gasLimit := by
  induction hsteps with
  | refl => exact h
  | tail _ hstep ih => exact hstep.metered henter ih

end

/-! ### Whole frames -/

variable {ctx : ExecutionContext}

section
variable {engine : WasmEngine} {registry : WasmRegistry}

theorem metered_freshStore (ctx : ExecutionContext) (callStack : List String)
    (moves : List ValueTransfer) :
    (freshStore ctx callStack moves).Metered engine ctx.gasLimit where
  total := rfl
  conserved := trivial

theorem metered_of_start {gasLimit : UInt64} {outcome : Except WasmiError FrameOutcome}
    (h : ∀ frame, outcome = .ok frame →
      (frame.result.status = .success ∧ frame.result.gasUsed = 0) ∨
        (frame.result.status = .failed ∧ frame.result.gasUsed = gasLimit)) :
    (FrameRun.mk outcome .start).Metered engine gasLimit where
  conserved := trivial
  spent_le := Nat.zero_le _
  gasUsed frame hframe :=
    (h frame hframe).imp_left fun hidle => ⟨hidle.1, congrArg UInt64.toNat hidle.2⟩

theorem FrameEnds.metered {enter : List UInt8 → ExecutionContext → List String → FrameRun}
    {callStack : List String} {entry : FrameEntry} {run : FrameRun}
    (henter : ∀ wasm ctx callStack, (enter wasm ctx callStack).Metered engine ctx.gasLimit)
    (hends : FrameEnds engine registry enter ctx callStack entry run) :
    run.Metered engine ctx.gasLimit := by
  cases hends with
  | rejected err hcode => exact metered_of_start nofun
  | unpaid hunpaid =>
    refine metered_of_start ?_
    rintro frame ⟨⟩
    exact .inr ⟨rfl, rfl⟩
  | skipped hpaid hentry =>
    refine metered_of_start ?_
    rintro frame ⟨⟩
    exact .inl ⟨rfl, rfl⟩
  | stopped err hcode hpaid hsteps =>
    have h := metered_of_steps henter hsteps (metered_freshStore _ _ _)
    exact ⟨h.conserved, h.total ▸ Nat.le_add_left _ _, nofun⟩
  | @finished accounts store returnData hpaid hsteps =>
    have h := metered_of_steps henter hsteps (metered_freshStore _ _ _)
    have htotal : store.fuel.toNat + store.history.spent engine = ctx.gasLimit.toNat := h.total
    refine ⟨h.conserved, htotal ▸ Nat.le_add_left _ _, ?_⟩
    rintro frame ⟨⟩
    refine .inl ⟨rfl, ?_⟩
    simp only [finishedOutcome, toNat_saturatingSub]
    omega

/-- **Every frame**, by induction on the levels. -/
theorem runFrame_metered (levels : Nat) (wasm : List UInt8) (ctx : ExecutionContext)
    (callStack : List String) (entry : FrameEntry) :
    (runFrame engine registry levels wasm ctx callStack entry).Metered engine ctx.gasLimit := by
  induction levels generalizing wasm ctx callStack entry with
  | zero => exact metered_of_start nofun
  | succ levels ih =>
    exact (runFrame_ends levels wasm ctx callStack entry).metered
      fun wasm ctx callStack => ih wasm ctx callStack .selector

end

/-! ### Receipts -/

/-- No result claims more gas than its frame was given. -/
structure GasBounded {V : Type} (exec : VmExecutor V) : Prop where
  execute : ∀ vm ctx result, exec.execute vm ctx = .ok result → result.gasUsed ≤ ctx.gasLimit
  executeConstructor : ∀ vm ctx result, exec.executeConstructor vm ctx = .ok result →
    result.gasUsed ≤ ctx.gasLimit

variable {engine : WasmEngine} {result : ExecutionResult}

theorem executeFrame_gasUsed_le {registry : WasmRegistry} {entry : FrameEntry}
    (h : executeFrame engine registry ctx entry = .ok result) : result.gasUsed ≤ ctx.gasLimit := by
  unfold executeFrame at h
  split at h
  · cases h
  · rename_i wasm hcode
    obtain ⟨frame, hframe, rfl⟩ := map_eq_ok.mp h
    have hmetered : (runTopFrame engine registry wasm ctx entry).Metered engine ctx.gasLimit :=
      runFrame_metered _ _ _ _ _
    rcases hmetered.gasUsed frame hframe with ⟨-, hgas⟩ | ⟨-, hgas⟩
    · exact UInt64.le_iff_toNat_le.mpr (hgas.trans_le hmetered.spent_le)
    · exact UInt64.le_of_eq hgas

theorem executePrecompile_gasUsed_le (h : executePrecompile engine ctx = .ok result) :
    result.gasUsed ≤ ctx.gasLimit := by
  unfold executePrecompile at h
  dsimp only at h
  split at h
  · split at h
    · cases h
    · rename_i hgas
      cases h
      exact UInt64.not_lt.mp hgas
  · split at h
    · cases h
    · rename_i hgas
      cases h
      exact UInt64.not_lt.mp hgas
  · cases h
    exact UInt64.le_refl _

theorem gasBounded_wasmiExecutor (engine : WasmEngine) : GasBounded (wasmiExecutor engine) where
  execute registry ctx result h := by
    have hrun := mapError_eq_ok.mp h
    split at hrun
    · exact executePrecompile_gasUsed_le hrun
    · exact executeFrame_gasUsed_le hrun
  executeConstructor registry ctx result h :=
    executeFrame_gasUsed_le (mapError_eq_ok.mp h)

/-- A receipt within the gas limit of its transaction. -/
def Receipt.WithinGas (receipt : Receipt) (e : Transaction × Nat) : Prop :=
  receipt.gasUsed ≤ e.1.gasLimit

theorem frameGas_le {gasLimit : UInt64} {outcome : Except VmError ExecutionResult}
    (h : ∀ result, outcome = .ok result → result.gasUsed ≤ gasLimit) :
    frameGas gasLimit outcome ≤ gasLimit := by
  cases outcome with
  | ok result => exact h result rfl
  | error err => exact UInt64.le_refl _

section
variable {V : Type} {crates : Crates} {exec : VmExecutor V} {chainId : UInt32} {block : Block}

theorem leavesReceipts_withinGas (hexec : GasBounded exec) :
    LeavesReceipts crates exec chainId block Receipt.WithinGas where
  transfer _ _ _ := UInt64.le_refl _
  create s create vm s' vm' receipt i h := by
    obtain ⟨-, ctx, hlimit, hgas⟩ := applyCreate_receipt h
    rw [Receipt.WithinGas, hgas]
    exact frameGas_le fun result hrun => hlimit ▸ hexec.executeConstructor vm' ctx result hrun
  call s call vm s' receipt i h := by
    obtain ⟨-, hgas | ⟨ctx, hlimit, hgas⟩⟩ := applyCall_receipt h
    · rw [Receipt.WithinGas, hgas]
      exact UInt64.zero_le
    · rw [Receipt.WithinGas, hgas]
      exact frameGas_le fun result hrun => hlimit ▸ hexec.execute vm ctx result hrun

end

/-- The transactions that leave a receipt; at genesis, all of them. -/
def Block.receiptPositions (block : Block) : List (Transaction × Nat) :=
  if block.index = 0 then block.transactions.zipIdx else block.receiptEntries

theorem Transaction.gasLimit_of_isCoinbase {tx : Transaction} (h : tx.isCoinbase = true) :
    tx.gasLimit = 0 := by
  cases tx with
  | transfer tx => rfl
  | create create => cases h
  | call call => cases h

/-- The gas reserved at some positions. -/
def positionsGas (entries : List (Transaction × Nat)) : Nat :=
  (entries.map fun e => e.1.gasLimit.toNat).sum

theorem positionsGas_zipIdx (txs : List Transaction) :
    positionsGas txs.zipIdx = reservedGas txs := by
  rw [positionsGas, reservedGas]
  nth_rewrite 2 [← List.zipIdx_map_fst 0 txs]
  rw [List.map_map]
  rfl

theorem positionsGas_receiptPositions_le (block : Block) :
    positionsGas block.receiptPositions ≤ reservedGas block.transactions := by
  rw [← positionsGas_zipIdx, Block.receiptPositions]
  split
  · exact le_rfl
  · have hcoinbase : positionsGas (coinbaseOf block).toList = 0 := by
      cases hcb : coinbaseOf block with
      | none => rfl
      | some first =>
        have hflag : first.1.isCoinbase = true := by
          have hfound := List.find?_some hcb
          exact hfound
        have hgas := Transaction.gasLimit_of_isCoinbase hflag
        simp [positionsGas, hgas]
    have hsub : (block.transactions.zipIdx.filter fun e => !e.1.isCoinbase).Sublist
        block.transactions.zipIdx := List.filter_sublist
    have hle : positionsGas (block.transactions.zipIdx.filter fun e => !e.1.isCoinbase) ≤
        positionsGas block.transactions.zipIdx := (hsub.map _).sum_le_sum fun _ _ => Nat.zero_le _
    have hsplit : positionsGas block.receiptEntries = positionsGas (coinbaseOf block).toList +
        positionsGas (block.transactions.zipIdx.filter fun e => !e.1.isCoinbase) := by
      simp [positionsGas, Block.receiptEntries]
    omega

variable {entries : List (Transaction × Nat)}

variable {receipts : List Receipt}

theorem sum_gasUsed_le (h : List.Forall₂ Receipt.WithinGas receipts entries) :
    ((receipts.map Receipt.gasUsed).map UInt64.toNat).sum ≤ positionsGas entries := by
  induction h with
  | nil => exact le_rfl
  | cons hgas _ ih =>
    have hle := UInt64.le_iff_toNat_le.mp hgas
    simp only [positionsGas, List.map_cons, List.sum_cons] at ih ⊢
    omega

theorem enforceReceiptGasLimit_ok (h : List.Forall₂ Receipt.WithinGas receipts entries)
    (hentries : positionsGas entries ≤ BLOCK_GAS_LIMIT.toNat) :
    enforceReceiptGasLimit receipts = .ok () := by
  have hsum := (sum_gasUsed_le h).trans hentries
  rw [enforceReceiptGasLimit, guardNode_eq_ok, UInt64.le_iff_toNat_le, toNat_wrappingSum]
  exact (Nat.mod_le _ _).trans hsum

theorem applyAndExecute_withinGas {V : Type} {crates : Crates} {rt : Runtime V}
    {parent state : State} {block : Block} {view : BlockView} (hexec : GasBounded rt.exec)
    (h : applyAndExecute crates rt parent block view = .ok state) :
    List.Forall₂ Receipt.WithinGas state.receipts block.receiptPositions := by
  rw [Block.receiptPositions]
  split
  · rename_i hzero
    exact applyAndExecute_genesis_receipts (leavesReceipts_withinGas hexec) hzero h
  · rename_i hne
    have hpos := UInt64.pos_iff_ne_zero.mpr hne
    exact applyAndExecute_receipts (leavesReceipts_withinGas hexec) hpos h

/-! ### The result -/

/-- **Gas is conserved along call trees.**  Whatever the scripts of a frame do, gas is conserved
at every depth below it (a call consumes the whole budget of a child that failed), and a frame
that succeeds reports exactly what was spent in it.  Hence no receipt of a
block is above the gas limit of its transaction, and the check of the receipts passes for every
block whose transactions reserve no more than the block gas limit. -/
theorem gas_conserved (engine : WasmEngine) :
    (∀ registry levels wasm ctx callStack entry,
      let run := runFrame engine registry levels wasm ctx callStack entry
      run.history.Conserved engine ∧ run.history.spent engine ≤ ctx.gasLimit.toNat ∧
      ∀ frame, run.outcome = .ok frame → frame.result.status = .success →
        frame.result.gasUsed.toNat = run.history.spent engine) ∧
    ∀ crates (rt : Runtime WasmRegistry) parent block view state,
      rt.exec = wasmiExecutor engine → applyAndExecute crates rt parent block view = .ok state →
        List.Forall₂ Receipt.WithinGas state.receipts block.receiptPositions ∧
        (reservedGas block.transactions ≤ BLOCK_GAS_LIMIT.toNat →
          enforceReceiptGasLimit state.receipts = .ok ()) := by
  refine ⟨fun registry levels wasm ctx callStack entry => ?_, ?_⟩
  · have hmetered := @runFrame_metered engine registry levels wasm ctx callStack entry
    refine ⟨hmetered.conserved, hmetered.spent_le, ?_⟩
    intro frame hframe hsuccess
    rcases hmetered.gasUsed frame hframe with ⟨-, hgas⟩ | ⟨hfailed, -⟩
    · exact hgas
    · rw [hsuccess] at hfailed
      cases hfailed
  · intro crates rt parent block view state hrt happly
    have hwithin := applyAndExecute_withinGas (hrt ▸ gasBounded_wasmiExecutor engine) happly
    refine ⟨hwithin, fun hreserved => enforceReceiptGasLimit_ok hwithin ?_⟩
    exact (positionsGas_receiptPositions_le block).trans hreserved

/-! ### A contract that forwards what it receives -/

/-- A contract that keeps a slot and sends three coins on. -/
def forwardScript : Script :=
  .metered 5 (.host (.storageWrite zeroDigest [1]) fun _ =>
    .host (.call "vault" 3 []) fun _ => .returned [])

/-- A contract that emits a log. -/
def vaultScript : Script := .metered 7 (.host (.emitLog [] [2]) fun _ => .returned [])

/-- An engine for these two. -/
def forwardEngine : WasmEngine where
  decode _ := .ok ()
  exportsFunc _ _ := false
  start _ := .returned []
  invoke wasm _ _ _ := .ok (if wasm = [1] then forwardScript else vaultScript)
  describe _ := ""
  dispatchPrecompile _ _ := .error (.invalidInput "")

def forwardCodes : CodeRegistry :=
  (∅ : CodeRegistry).insert "forward" [1] |>.insert "vault" [2]

def forwardRuntime : Runtime WasmRegistry := ⟨wasmiExecutor forwardEngine, (⟨·, ∅⟩), fun _ => 0⟩

/-- A funded caller and the two contracts. -/
def forwardState : State :=
  { State.new with
    balances := (∅ : HashMap _ _).insert "caller" (.eoa ⟨10, 0⟩)
      |>.insert "forward" (.contract ⟨zeroDigest, zeroDigest, 1, 0⟩)
      |>.insert "vault" (.contract ⟨zeroDigest, zeroDigest, 1, 0⟩) }

def forwardBlock : Block :=
  .ofTransactions 1 [unpaid "miner",
    .call ⟨"caller", "forward", [], 5, 20000, 0, 1, CHAIN_ID_REGTEST, []⟩]

def forwardView : BlockView := ⟨[], 0, false, true, 1, .pow, CHAIN_ID_REGTEST, forwardCodes⟩

theorem gas_conserved_forward : ∃ state,
    applyAndExecute nonzeroCrates forwardRuntime forwardState forwardBlock forwardView = .ok state ∧
      (state.receipts.map fun r => (r.status, r.gasUsed)) = [(.success, 0), (.success, 6087)] ∧
      List.Forall₂ Receipt.WithinGas state.receipts forwardBlock.receiptPositions ∧
      enforceReceiptGasLimit state.receipts = .ok () := by
  have hok : ((applyAndExecute nonzeroCrates forwardRuntime forwardState forwardBlock
      forwardView).map fun state => state.receipts.map fun r => (r.status, r.gasUsed)).toOption =
        some [(.success, 0), (.success, 6087)] := by
    decide
  cases hrun : applyAndExecute nonzeroCrates forwardRuntime forwardState forwardBlock
      forwardView with
  | error err =>
    rw [hrun] at hok
    cases hok
  | ok state =>
    rw [hrun] at hok
    have hgas := (gas_conserved forwardEngine).2 nonzeroCrates forwardRuntime forwardState
      forwardBlock forwardView state rfl hrun
    exact ⟨state, rfl, Option.some.inj hok, hgas.1, hgas.2 (by decide)⟩

end Strangecoin
