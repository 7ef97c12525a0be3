import Strangecoin.WasmVm

/-! # Runs of contract frames

All that can happen in a frame is one of six steps (`HostStep`).  However a script ends, its
store got there by such steps (`followsFrom_runScript`), and a frame starts in a fresh store
and ends in one of the ways of `FrameEnds`.  So what holds along call trees is proved for one
step, and for the frames below by induction on the levels.
-/
namespace Strangecoin

section
variable (engine : WasmEngine) (registry : WasmRegistry)
  (enter : List UInt8 → ExecutionContext → List String → FrameRun)

/-- Why a nested call is refused. -/
def Refuses (host : HostState) (call : NestedCall) (err : VmError) : Prop :=
  (err = .maxCallDepth ∧ MAX_CALL_DEPTH < saturatingSucc host.ctx.depth) ∨
    (err = .reentrancyDetected ∧ refusesReentry registry host call = true)

/-- **What can happen in a frame.** -/
inductive HostStep : Store → Store → Prop where
  | charge {store : Store} {gas : UInt64} (hfuel : gas ≤ store.fuel) :
    HostStep store (store.charged gas)
  | write {store : Store} {key : Digest} {value : List UInt8}
    (hopen : store.host.ctx.readOnly = false)
    (hcap : store.host.ctx.bytesWith key value ≤ MAX_STORAGE_PER_CONTRACT) :
    HostStep store (store.wrote key value)
  | log {store : Store} {topics : List Digest} {data : List UInt8}
    (hopen : store.host.ctx.readOnly = false) : HostStep store (store.logged topics data)
  | refuse {store : Store} {call : NestedCall} {err : VmError}
    (hwhy : Refuses registry store.host call err) : HostStep store (store.refused err)
  | abort {store : Store} {call : NestedCall} {err : VmError} {inside : History}
    (hdepth : saturatingSucc store.host.ctx.depth ≤ MAX_CALL_DEPTH)
    (hentry : refusesReentry registry store.host call = false)
    (hrun : runChild engine registry enter store.host store.fuel call = ⟨.error err, inside⟩) :
    HostStep store (store.aborted call inside)
  | call {store : Store} {call : NestedCall} {outcome : NestedOutcome} {inside : History}
    (hdepth : saturatingSucc store.host.ctx.depth ≤ MAX_CALL_DEPTH)
    (hentry : refusesReentry registry store.host call = false)
    (hrun : runChild engine registry enter store.host store.fuel call = ⟨.ok outcome, inside⟩) :
    HostStep store (store.called call outcome inside)

end

section
variable {engine : WasmEngine} {registry : WasmRegistry}
  {enter : List UInt8 → ExecutionContext → List String → FrameRun} {store : Store}

/-! ### Host functions -/

theorem followsFrom_charge (gas : UInt64) :
    FollowsFrom (HostStep engine registry enter) store (charge gas) := by
  refine .get_bind (.check_bind fun _ hfuel => ?_)
  exact followsFrom_modify (.charge (guardWith_eq_ok.mp hfuel))

/-- A host call: its weight first. -/
theorem FollowsFrom.charge_bind {α : Type} {gas : UInt64} {f : Unit → Host α}
    (h : ∀ store, FollowsFrom (HostStep engine registry enter) store (f ())) :
    FollowsFrom (HostStep engine registry enter) store (charge gas >>= f) :=
  (followsFrom_charge gas).bind fun _ store' _ => h store'

theorem followsFrom_storageRead (key : Digest) :
    FollowsFrom (HostStep engine registry enter) store (storageRead key) := by
  refine .charge_bind fun store => .get_bind ?_
  split
  · exact followsFrom_pure _
  · exact followsFrom_pure _

theorem followsFrom_storageWrite (key : Digest) (value : List UInt8) :
    FollowsFrom (HostStep engine registry enter) store (storageWrite key value) := by
  refine .charge_bind fun store => .get_bind ?_
  refine .check_bind fun _ hopen => .check_bind fun _ hcap => ?_
  refine .modify_bind ?_ (followsFrom_pure _)
  exact .write (guardWith_eq_ok.mp hopen) (guardWith_eq_ok.mp hcap)

theorem followsFrom_emitLog (topics : List Digest) (data : List UInt8) :
    FollowsFrom (HostStep engine registry enter) store (emitLog topics data) := by
  refine .check_bind fun _ _ => .charge_bind fun store => .get_bind ?_
  refine .check_bind fun _ hopen => ?_
  exact .modify_bind (.log (guardWith_eq_ok.mp hopen)) (followsFrom_pure _)

theorem followsFrom_refuse {call : NestedCall} {err : VmError}
    (hwhy : Refuses registry store.host call err) :
    FollowsFrom (HostStep engine registry enter) store (refuse err) :=
  .modify_bind (.refuse hwhy) (followsFrom_throw _)

theorem followsFrom_nestedCall (kind : CallKind) (target : String) (value : Int64)
    (data : List UInt8) : FollowsFrom (HostStep engine registry enter) store
      (nestedCall engine registry enter kind target value data) := by
  refine .charge_bind fun store => .check_bind fun _ _ => .check_bind fun _ _ => .get_bind ?_
  let call : NestedCall := ⟨kind, target, value.toUInt64, data⟩
  dsimp only
  split
  · rename_i hdeep
    have hwhy : Refuses registry store.host call .maxCallDepth := .inl ⟨rfl, hdeep⟩
    exact followsFrom_refuse hwhy
  · rename_i hdepth
    split
    · rename_i hentry
      exact followsFrom_refuse (.inr ⟨rfl, hentry⟩)
    · rename_i hentry
      have hdepth := UInt32.not_lt.mp hdepth
      have hentry := Bool.eq_false_iff.mpr hentry
      rcases hrun : runChild engine registry enter store.host store.fuel call with
        ⟨err | outcome, inside⟩
      · exact .modify_bind (.abort hdepth hentry hrun) (followsFrom_throw _)
      · exact .modify_bind (.call hdepth hentry hrun) (followsFrom_pure _)

theorem followsFrom_serve (request : HostRequest) :
    FollowsFrom (HostStep engine registry enter) store (serve engine registry enter request) := by
  cases request with
  | work weight => exact .charge_bind fun store => followsFrom_pure _
  | gasLeft => exact .charge_bind fun store => .get_bind (followsFrom_pure _)
  | inputRead => exact .charge_bind fun store => .get_bind (followsFrom_pure _)
  | storageRead key => exact followsFrom_storageRead key
  | storageWrite key value => exact followsFrom_storageWrite key value
  | emitLog topics data => exact followsFrom_emitLog topics data
  | call target value data => exact followsFrom_nestedCall .call target value data
  | delegatecall target data => exact followsFrom_nestedCall .delegateCall target 0 data
  | staticcall target data => exact followsFrom_nestedCall .staticCall target 0 data

/-- **Scripts go by steps.** -/
theorem followsFrom_runScript (script : Script) : FollowsFrom (HostStep engine registry enter) store
    (runScript engine registry enter script) := by
  induction script generalizing store with
  | returned data => exact followsFrom_pure _
  | trapped trap => exact followsFrom_throw _
  | metered gas next ih => exact .charge_bind fun store => ih
  | host request next ih => exact (followsFrom_serve request).bind fun reply store' _ => ih reply

end

/-! ### Nested calls -/

section
variable (engine : WasmEngine) (registry : WasmRegistry)
  (enter : List UInt8 → ExecutionContext → List String → FrameRun)

/-- **How a nested call ends.** -/
inductive ChildEnds (host : HostState) (fuel : UInt64) (call : NestedCall) : NestedRun → Prop where
  | unpaid : ChildEnds host fuel call ⟨.ok (.burnt .nothing fuel), .start⟩
  | precompile {accounts : HashMap String Account} (hpaid : childAccounts host call = some accounts)
    (haddress : isPrecompileAddress call.target = true) : ChildEnds host fuel call
      ⟨.ok (nestedPrecompile engine call.target call.data fuel accounts), .start⟩
  | plain {accounts : HashMap String Account} (hpaid : childAccounts host call = some accounts) :
    ChildEnds host fuel call ⟨.ok (.plain accounts), .start⟩
  | code {accounts : HashMap String Account} {wasm : List UInt8} {run : FrameRun}
    (hpaid : childAccounts host call = some accounts)
    (hcode : registry.code[call.target]? = some wasm)
    (hrun : enter wasm ((childContext host fuel call).withAccounts accounts)
      (host.callStack ++ [call.target]) = run) :
    ChildEnds host fuel call ⟨nestedFrame fuel accounts run.outcome, run.history⟩

end

theorem runChild_ends {engine : WasmEngine} {registry : WasmRegistry}
    {enter : List UInt8 → ExecutionContext → List String → FrameRun} (host : HostState)
    (fuel : UInt64) (call : NestedCall) : ChildEnds engine registry enter host fuel call
      (runChild engine registry enter host fuel call) := by
  unfold runChild
  dsimp only
  split
  · exact .unpaid
  · rename_i accounts hpaid
    split
    · exact .unpaid
    · split
      · rename_i haddress
        exact .precompile hpaid haddress
      · split
        · exact .plain hpaid
        · rename_i wasm hcode
          exact .code hpaid hcode rfl

/-- An outcome that the parent goes on with. -/
theorem nestedFrame_ok {budget : UInt64} {accounts : HashMap String Account}
    {result : Except WasmiError FrameOutcome} {outcome : NestedOutcome}
    (h : nestedFrame budget accounts result = .ok outcome) :
    (∃ frame, result = .ok frame ∧ outcome = .ofFrame frame) ∨
      (∃ address, result = .error (.noCode address) ∧ outcome = .plain accounts) ∨
      outcome = .burnt .code budget := by
  unfold nestedFrame at h
  split at h
  · rename_i frame
    exact .inl ⟨frame, rfl, (Except.ok.inj h).symm⟩
  · rename_i address
    exact .inr (.inl ⟨address, rfl, (Except.ok.inj h).symm⟩)
  · cases h
  · cases h
  · exact .inr (.inr (Except.ok.inj h).symm)

@[simp] theorem childContext_gasLimit (host : HostState) (fuel : UInt64) (call : NestedCall) :
    (childContext host fuel call).gasLimit = fuel := by
  unfold childContext
  cases call.kind <;> rfl

@[simp] theorem childContext_callee (host : HostState) (fuel : UInt64) (call : NestedCall) :
    (childContext host fuel call).callee = call.target := by
  unfold childContext
  cases call.kind <;> rfl

@[simp] theorem childContext_input (host : HostState) (fuel : UInt64) (call : NestedCall) :
    (childContext host fuel call).input = call.data := by
  unfold childContext
  cases call.kind <;> rfl

/-! ### Frames -/

theorem WasmiError.ofEngine_ne_noCode (describe : EngineError → String) (err : EngineError)
    (address : String) : WasmiError.ofEngine describe err ≠ .noCode address := by
  cases err <;> nofun

theorem EntryFailure.toWasmi_ne_noCode (name : String) (failure : EntryFailure)
    (address : String) : failure.toWasmi name ≠ .noCode address := by
  cases failure <;> nofun

section
variable (engine : WasmEngine) (registry : WasmRegistry)
  (enter : List UInt8 → ExecutionContext → List String → FrameRun)

/-- **How a frame ends**, if `enter` runs the frames below it. -/
inductive FrameEnds (ctx : ExecutionContext) (callStack : List String) (entry : FrameEntry) :
    FrameRun → Prop where
  /-- Too deep, or no module. -/
  | rejected (err : WasmiError) (hcode : ∀ address, err ≠ .noCode address) :
    FrameEnds ctx callStack entry ⟨.error err, .start⟩
  | unpaid (hunpaid : enteredAccounts ctx entry = none) :
    FrameEnds ctx callStack entry ⟨.ok (idleOutcome .failed ctx.gasLimit ctx.accounts), .start⟩
  | skipped {accounts : HashMap String Account} (hpaid : enteredAccounts ctx entry = some accounts)
    (hentry : entry = .constructor) :
    FrameEnds ctx callStack entry ⟨.ok (idleOutcome .success 0 accounts), .start⟩
  | stopped {accounts : HashMap String Account} {store : Store} (err : WasmiError)
    (hcode : ∀ address, err ≠ .noCode address)
    (hpaid : enteredAccounts ctx entry = some accounts)
    (hsteps : Relation.ReflTransGen (HostStep engine registry enter)
      (freshStore (ctx.withAccounts accounts) callStack (seededMoves ctx entry)) store) :
    FrameEnds ctx callStack entry ⟨.error err, store.history⟩
  | finished {accounts : HashMap String Account} {store : Store} (returnData : List UInt8)
    (hpaid : enteredAccounts ctx entry = some accounts)
    (hsteps : Relation.ReflTransGen (HostStep engine registry enter)
      (freshStore (ctx.withAccounts accounts) callStack (seededMoves ctx entry)) store) :
    FrameEnds ctx callStack entry
      ⟨.ok (finishedOutcome ctx.gasLimit store returnData), store.history⟩

end

section
variable {engine : WasmEngine} {registry : WasmRegistry}

theorem runStore_ends {enter : List UInt8 → ExecutionContext → List String → FrameRun}
    {wasm : List UInt8} {ctx : ExecutionContext} {callStack : List String} {entry : FrameEntry}
    {accounts : HashMap String Account} (hpaid : enteredAccounts ctx entry = some accounts) :
    FrameEnds engine registry enter ctx callStack entry (runStore engine registry enter wasm entry
      (freshStore (ctx.withAccounts accounts) callStack (seededMoves ctx entry))) := by
  unfold runStore
  split
  · rename_i err failed hrun
    exact .stopped _ nofun hpaid ((followsFrom_runScript _).2 err failed hrun)
  · rename_i data started hrun
    have hstarted := (followsFrom_runScript _).1 data started hrun
    dsimp only
    split
    · exact .stopped _ (EntryFailure.toWasmi_ne_noCode _ _) hpaid hstarted
    · rename_i script hinvoke
      split
      · rename_i err failed hrun
        exact .stopped _ (WasmiError.ofEngine_ne_noCode _ _) hpaid
          (hstarted.trans ((followsFrom_runScript _).2 err failed hrun))
      · rename_i returnData finished hrun
        exact .finished _ hpaid
          (hstarted.trans ((followsFrom_runScript _).1 returnData finished hrun))

theorem runFrame_ends (levels : Nat) (wasm : List UInt8) (ctx : ExecutionContext)
    (callStack : List String) (entry : FrameEntry) :
    FrameEnds engine registry
      (fun wasm ctx callStack => runFrame engine registry levels wasm ctx callStack .selector)
      ctx callStack entry (runFrame engine registry (levels + 1) wasm ctx callStack entry) := by
  rw [runFrame]
  split
  · rename_i hunpaid
    exact .unpaid hunpaid
  · rename_i accounts hpaid
    split
    · exact .rejected _ nofun
    · split
      · rename_i hskip
        exact .skipped hpaid hskip.1
      · exact runStore_ends hpaid

end

end Strangecoin
