import Strangecoin.GasConservation

/-! # Static calls

A frame entered by `staticcall` is read-only, and so are the frames below it.  Such a frame
leaves the overlay of staged writes as it was and emits no log, whatever it does and calls.
Value is another matter: nothing looks at the flag when a call below it sends coins.
-/
namespace Strangecoin
open List

/-- A read-only frame under way that has neither written nor logged. -/
structure Store.Untouched (overlay : ContractStorageMap) (store : Store) : Prop where
  readOnly : store.host.ctx.readOnly = true
  overlay : store.host.ctx.storageOverlay = overlay
  logs : store.host.logs = []

/-- A frame that leaves writes or logs only if it may. -/
def FrameRun.Respects (ctx : ExecutionContext) (run : FrameRun) : Prop :=
  ctx.readOnly = true → ∀ frame, run.outcome = .ok frame → frame.result.status = .success →
    frame.storageOverlay = ctx.storageOverlay ∧ frame.logs = []

theorem childContext_readOnly {host : HostState} {call : NestedCall}
    (h : host.ctx.readOnly = true ∨ call.kind = .staticCall) (fuel : UInt64) :
    (childContext host fuel call).readOnly = true ∧
      (childContext host fuel call).storageOverlay = host.ctx.storageOverlay := by
  unfold childContext
  rcases h with h | h
  · cases call.kind <;> simp [h]
  · simp [h]

section
variable {engine : WasmEngine} {registry : WasmRegistry}
  {enter : List UInt8 → ExecutionContext → List String → FrameRun} {store store' : Store}
  {overlay : ContractStorageMap}
  (henter : ∀ wasm ctx callStack, (enter wasm ctx callStack).Respects ctx)
include henter

/-- **A read-only call** leaves the overlay and the logs of its caller. -/
theorem called_readOnly {call : NestedCall} {outcome : NestedOutcome} {inside : History}
    (h : store.host.ctx.readOnly = true ∨ call.kind = .staticCall)
    (hrun : runChild engine registry enter store.host store.fuel call = ⟨.ok outcome, inside⟩) :
    (store.called call outcome inside).host.ctx.storageOverlay = store.host.ctx.storageOverlay ∧
      (store.called call outcome inside).host.logs = store.host.logs := by
  rw [Store.called, HostState.merge]
  split
  · rename_i hok
    have hends := @runChild_ends engine registry enter store.host store.fuel call
    rw [hrun] at hends
    generalize hres : NestedRun.mk (.ok outcome) inside = run at hends
    cases hends with
    | unpaid =>
      cases hres
      cases hok
    | precompile | plain =>
      cases hres
      exact ⟨rfl, append_nil _⟩
    | @code accounts wasm run hpaid hcode hframe =>
      have hout := (congrArg NestedRun.outcome hres).symm
      rcases nestedFrame_ok hout with ⟨frame, hframe', rfl⟩ | ⟨address, -, rfl⟩ | rfl
      · obtain ⟨hro, hoverlay⟩ := childContext_readOnly h store.fuel
        have hsuccess : frame.result.status = .success := by
          cases hstatus : frame.result.status <;> simp_all [NestedOutcome.ofFrame]
        have hrespects := henter wasm
          ((childContext store.host store.fuel call).withAccounts accounts)
          (store.host.callStack ++ [call.target])
        rw [hframe] at hrespects
        obtain ⟨hkept, hlogs⟩ := hrespects hro frame hframe' hsuccess
        exact ⟨hkept.trans hoverlay, by rw [NestedOutcome.ofFrame, hlogs]; exact append_nil _⟩
      · exact ⟨rfl, append_nil _⟩
      · cases hok
  · exact ⟨rfl, rfl⟩

/-- **One step** of a read-only frame. -/
theorem HostStep.untouched (hstep : HostStep engine registry enter store store')
    (h : store.Untouched overlay) : store'.Untouched overlay := by
  obtain ⟨hro, hoverlay, hlogs⟩ := h
  cases hstep with
  | charge | refuse | abort => exact ⟨hro, hoverlay, hlogs⟩
  | write hopen hcap => exact absurd (hopen.symm.trans hro) Bool.false_ne_true
  | log hopen => exact absurd (hopen.symm.trans hro) Bool.false_ne_true
  | call hdepth hentry hrun =>
    obtain ⟨hkept, hsame⟩ := called_readOnly henter (.inl hro) hrun
    refine ⟨?_, hkept.trans hoverlay, hsame.trans hlogs⟩
    rw [Store.called, HostState.merge]
    split <;> exact hro

theorem untouched_of_steps
    (hsteps : Relation.ReflTransGen (HostStep engine registry enter) store store')
    (h : store.Untouched overlay) : store'.Untouched overlay := by
  induction hsteps with
  | refl => exact h
  | tail _ hstep ih => exact hstep.untouched henter ih

end

variable {engine : WasmEngine} {registry : WasmRegistry}

/-- **Every frame**, by induction on the levels. -/
theorem runFrame_respects (levels : Nat) (wasm : List UInt8) (ctx : ExecutionContext)
    (callStack : List String) :
    (runFrame engine registry levels wasm ctx callStack .selector).Respects ctx := by
  induction levels generalizing wasm ctx callStack with
  | zero => rintro _ frame ⟨⟩
  | succ levels ih =>
    have hends := @runFrame_ends engine registry levels wasm ctx callStack .selector
    generalize runFrame engine registry (levels + 1) wasm ctx callStack .selector = run at hends
    cases hends with
    | rejected | stopped => rintro _ frame ⟨⟩
    | unpaid hunpaid => rintro _ frame ⟨⟩ ⟨⟩
    | skipped hpaid hentry => cases hentry
    | finished returnData hpaid hsteps =>
      rintro hro frame ⟨⟩ -
      have h := untouched_of_steps ih hsteps ⟨hro, rfl, rfl⟩
      exact ⟨h.overlay, h.logs⟩

/-- **Static calls stage nothing.**  Whatever the callee does and calls, a `staticcall` that
comes back leaves the staged writes and the logs of its caller as they were. -/
theorem staticcall_stages_nothing {levels : Nat} {store : Store} {call : NestedCall}
    {outcome : NestedOutcome} {inside : History} (hstatic : call.kind = .staticCall)
    (hrun : runChild engine registry
      (fun wasm ctx callStack => runFrame engine registry levels wasm ctx callStack .selector)
      store.host store.fuel call = ⟨.ok outcome, inside⟩) :
    (store.called call outcome inside).host.ctx.storageOverlay = store.host.ctx.storageOverlay ∧
      (store.called call outcome inside).host.logs = store.host.logs :=
  called_readOnly (runFrame_respects levels) (.inr hstatic) hrun

/-- The contract that forwards, before a call. -/
def forwardStore : Store :=
  freshStore (executionContext forwardState forwardBlock "caller" "forward" 5 20000 [])
    ["forward"] []

/-- A static call of the contract that emits a log. -/
def staticRun : NestedRun :=
  runChild forwardEngine ⟨forwardCodes, ∅⟩ (fun wasm ctx callStack =>
    runFrame forwardEngine ⟨forwardCodes, ∅⟩ 1 wasm ctx callStack .selector)
    forwardStore.host forwardStore.fuel ⟨.staticCall, "vault", 0, []⟩

theorem staticcall_stages_nothing_vault : ∃ outcome, staticRun.outcome = .ok outcome ∧
    outcome.callee = .code ∧
    (forwardStore.called ⟨.staticCall, "vault", 0, []⟩ outcome staticRun.history).host.logs = [] :=
  ⟨_, rfl, rfl, (@staticcall_stages_nothing forwardEngine ⟨forwardCodes, ∅⟩ 1 forwardStore _ _ _
    rfl rfl).2⟩

end Strangecoin
