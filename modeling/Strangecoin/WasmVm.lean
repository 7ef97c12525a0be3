import Strangecoin.Consensus
import Strangecoin.Operations

/-! # The contract executor

Contracts run in the `wasmi` engine; all they can do to the outside is done by the host
functions of this module.  What the engine runs is a parameter: a module is a **script**, which
executes metered operators and calls host functions, and may look at everything a host function
answers.  One frame is run in a store of its own (`runFrame`).

The store also has a `history`, which is not in the source: what happened in the frame and, as
far as they were run, in the frames below it, those that failed included.  Nothing reads it.
-/
namespace Strangecoin

def MAX_CALL_DEPTH : UInt32 := 1024
def MAX_STORAGE_PER_CONTRACT : Nat := 1024 * 1024
def MAX_TARGET_LEN : Nat := 128
def MAX_TOPICS : Nat := 4

def isPrecompileAddress (addr : String) : Bool :=
  addr ∈ ["0x01", "0x02", "0x03", "0x04", "0x05", "0x06", "0x07"]

/-! ### Gas -/

def u64DivCeil (a b : UInt64) : UInt64 := a / b + if a % b > 0 then 1 else 0

inductive HostCallWeight where
  | secp256k1Verify
  | blsVerify
  | blake3 (bytes : UInt64)
  | keccak (bytes : UInt64)
  | sha256 (bytes : UInt64)
  | storageRead
  | storageWrite
  | call
  | delegateCall
  | staticCall
  | blockContext
  | gasLeft
  | inputRead
  | emitLog (topics : UInt64)
  | memoryGrow

def HostCallWeight.gas : HostCallWeight → UInt64
  | secp256k1Verify => 3000
  | blsVerify => 12000
  | blake3 bytes => 50 + 6 * u64DivCeil bytes 64
  | keccak bytes => 30 + 6 * u64DivCeil bytes 32
  | sha256 bytes => 50 + 12 * u64DivCeil bytes 32
  | storageRead => 200
  | storageWrite => 5000
  | call => 700
  | delegateCall => 700
  | staticCall => 700
  | blockContext => 3
  | gasLeft => 3
  | inputRead => 3
  | emitLog topics => 375 + 375 * topics
  | memoryGrow => 3

/-! ### Errors -/

/-- What ends a script on its own account. -/
inductive Trap where
  /-- Stack overflow, or memory grown past the limit. -/
  | outOfMemory
  | other (message : String)

/-- `wasmi::Error`, as far as the executor tells its causes apart. -/
inductive EngineError where
  /-- Raised by a host function, with the exact error inside. -/
  | host (err : VmError)
  | outOfFuel
  | outOfMemory
  | other (message : String)
deriving DecidableEq

def Trap.toEngine : Trap → EngineError
  | outOfMemory => .outOfMemory
  | other message => .other message

inductive WasmiError where
  | noCode (address : String)
  | outOfFuel
  | engine (message : String)
  | instantiate (message : String)
  | missingExport (name : String)
  | typeMismatch (message : String)
  | core (err : VmError)
deriving DecidableEq

/-- `From<wasmi::Error> for WasmiError`; `describe` is the text of an engine error. -/
def WasmiError.ofEngine (describe : EngineError → String) : EngineError → WasmiError
  | .host err => .core err
  | .outOfFuel => .outOfFuel
  | .outOfMemory => .core .outOfMemory
  | err => .engine (describe err)

def WasmiError.toVmError : WasmiError → VmError
  | .outOfFuel => .outOfGas
  | .core err => err
  | .noCode address =>
    .hostFunctionError "execute" ("no contract code for address `" ++ address ++ "`")
  | .engine message => .hostFunctionError "wasmi" ("wasmi engine error: " ++ message)
  | .instantiate message =>
    .hostFunctionError "wasmi" ("module instantiation failed: " ++ message)
  | .missingExport name => .hostFunctionError "wasmi" ("missing export `" ++ name ++ "`")
  | .typeMismatch message => .hostFunctionError "wasmi" ("type mismatch: " ++ message)

/-! ### Scripts -/

/-- A call of a host function, once its arguments are read.  Reading them can only end the
script, after the weight is charged. -/
inductive HostRequest where
  /-- The hash functions, the signature checks and what else leaves the host state alone. -/
  | work (weight : HostCallWeight)
  | gasLeft
  | inputRead
  | storageRead (key : Digest)
  | storageWrite (key : Digest) (value : List UInt8)
  | emitLog (topics : List Digest) (data : List UInt8)
  | call (target : String) (value : Int64) (data : List UInt8)
  | delegatecall (target : String) (data : List UInt8)
  | staticcall (target : String) (data : List UInt8)

/-- What a script gets to see of a host call. -/
structure Reply where
  code : Int
  data : List UInt8

/-- What a module does in one invocation. -/
inductive Script where
  | returned (data : List UInt8)
  | trapped (trap : Trap)
  | metered (gas : UInt64) (next : Script)
  | host (request : HostRequest) (next : Reply → Script)

/-- Why an export is not invoked. -/
inductive EntryFailure where
  | missingExport
  | unsupportedSignature
  | noMemory
  | outOfMemory
  | staging (message : String)

def EntryFailure.toWasmi (name : String) : EntryFailure → WasmiError
  | missingExport => .missingExport name
  | unsupportedSignature => .typeMismatch ("export `" ++ name ++ "` has no supported signature")
  | noMemory => .engine "host ABI: module does not export `memory`"
  | outOfMemory => .core .outOfMemory
  | staging message => .engine ("calldata staging: " ++ message)

structure PrecompileOutput where
  output : List UInt8
  gasUsed : UInt64

inductive PrecompileError where
  | invalidInput (message : String)
  | notImplemented (feature : String) (gasUsed : UInt64)

/-- What the executor takes from `wasmi` and from the precompiles. -/
structure WasmEngine where
  /-- `Module::new`. -/
  decode : List UInt8 → Except String Unit
  /-- Whether a module exports a function of this name. -/
  exportsFunc : List UInt8 → String → Bool
  /-- Instantiation with the start function of the module. -/
  start : List UInt8 → Script
  /-- The invocation of an export, with or without the calldata as arguments. -/
  invoke : List UInt8 → String → Bool → List UInt8 → Except EntryFailure Script
  describe : EngineError → String
  dispatchPrecompile : String → List UInt8 → Except PrecompileError PrecompileOutput

structure AbiEntry where
  name : String
  selector : List UInt8
  nonReentrant : Bool

/-- The entries of a contract's ABI. -/
abbrev ContractAbi := List AbiEntry

/-- The registered codes and ABIs. -/
structure WasmRegistry where
  code : HashMap String (List UInt8)
  abis : HashMap String ContractAbi

/-- The ABI entry that calldata selects. -/
def WasmRegistry.selected (registry : WasmRegistry) (address : String) (data : List UInt8) :
    Option AbiEntry :=
  if data.length < 4 then none
  else registry.abis[address]?.bind fun abi => abi.find? fun entry => entry.selector = data.take 4

/-! ### The store of a frame -/

inductive CallKind where
  | call
  | delegateCall
  | staticCall
deriving DecidableEq

def CallKind.baseWeight : CallKind → HostCallWeight
  | call => .call
  | delegateCall => .delegateCall
  | staticCall => .staticCall

/-- The status codes a calling contract sees. -/
inductive CallStatus where
  | ok
  | reverted
  | failed
deriving DecidableEq

def CallStatus.code : CallStatus → Int
  | ok => 0
  | reverted => 1
  | failed => 2

/-- What was run for a nested call. -/
inductive Callee where
  | nothing
  | precompile
  | code
deriving DecidableEq

/-- The arguments of a nested call. -/
structure NestedCall where
  kind : CallKind
  target : String
  amount : UInt64
  data : List UInt8

/-- `HostState`; the code and the ABIs are constant and left out. -/
structure HostState where
  ctx : ExecutionContext
  callStack : List String
  lastReturnData : List UInt8
  logs : List Log
  valueTransfers : List ValueTransfer

/-- A change that a frame makes to what it shares with the others. -/
inductive Effect where
  | write (address : String) (key : Digest) (value : List UInt8)
  | log (log : Log)
  | move (transfer : ValueTransfer)

/-- The start of a nested call: the parent at that moment, and the child's context. -/
structure CallStart where
  call : NestedCall
  parent : HostState
  parentFuel : UInt64
  child : ExecutionContext

/-- A nested call and how it ended. -/
structure CallRecord extends CallStart where
  callee : Callee
  status : CallStatus
  fuelAfter : UInt64

/-- What happened in a frame, latest last. -/
inductive History where
  | start
  | charged (before : History) (gas : UInt64)
  | effect (before : History) (effect : Effect)
  | refused (before : History) (err : VmError)
  | called (before : History) (record : CallRecord) (inside : History)
  /-- A frame below was refused a call, which ends this frame too. -/
  | aborted (before : History) (started : CallStart) (inside : History)

structure Store where
  host : HostState
  fuel : UInt64
  history : History

structure FrameOutcome where
  result : ExecutionResult
  storageOverlay : ContractStorageMap
  accounts : HashMap String Account
  logs : List Log
  returnData : List UInt8

/-- A frame that was run. -/
structure FrameRun where
  outcome : Except WasmiError FrameOutcome
  history : History

abbrev Host := EStateM EngineError Store

/-! ### Host functions -/

def Store.charged (store : Store) (gas : UInt64) : Store :=
  { store with
    fuel := store.fuel - gas
    history := store.history.charged gas }

/-- Fuel for operators and host calls alike; what does not suffice traps. -/
def charge (gas : UInt64) : Host Unit := do
  let store ← get
  check (guardWith (gas ≤ store.fuel) EngineError.outOfFuel)
  modify (·.charged gas)

def gasLeft : Host Reply := do
  charge HostCallWeight.gasLeft.gas
  let store ← get
  return ⟨store.fuel.toNat, []⟩

def inputRead : Host Reply := do
  charge HostCallWeight.inputRead.gas
  let store ← get
  return ⟨store.host.ctx.input.length, store.host.ctx.input⟩

/-- The staged value of a slot, or else the persisted one. -/
def ExecutionContext.slot (ctx : ExecutionContext) (key : Digest) : Option (List UInt8) :=
  (ctx.storageOverlay[ctx.storageAddress]?.bind fun overlay => overlay[key]?).or
    (ctx.storage[ctx.storageAddress]?.bind fun storage => storage[key]?)

def storageRead (key : Digest) : Host Reply := do
  charge HostCallWeight.storageRead.gas
  let store ← get
  match store.host.ctx.slot key with
  | some value => return ⟨value.length, value⟩
  | none => return ⟨0, []⟩

/-- The bytes of the values in a contract's storage. -/
def valueBytes (storage : ContractStorage) : Nat := (storage.toList.map fun e => e.2.length).sum

/-- The bytes that count against the cap when a value is written to a slot. -/
def ExecutionContext.bytesWith (ctx : ExecutionContext) (key : Digest) (value : List UInt8) :
    Nat :=
  let persisted := valueBytes (ctx.storage[ctx.storageAddress]?.getD ∅)
  let overlay := ctx.storageOverlay[ctx.storageAddress]?.getD ∅
  let replaced := (overlay[key]?.map List.length).getD 0
  persisted + (valueBytes overlay - replaced) + value.length

/-- The overlay with one more staged write. -/
def stageWrite (overlay : ContractStorageMap) (address : String) (key : Digest)
    (value : List UInt8) : ContractStorageMap :=
  overlay.insert address ((overlay[address]?.getD ∅).insert key value)

def Store.wrote (store : Store) (key : Digest) (value : List UInt8) : Store :=
  let ctx := store.host.ctx
  { store with
    host.ctx.storageOverlay := stageWrite ctx.storageOverlay ctx.storageAddress key value
    history := store.history.effect (.write ctx.storageAddress key value) }

def storageWrite (key : Digest) (value : List UInt8) : Host Reply := do
  charge HostCallWeight.storageWrite.gas
  let store ← get
  check (guardWith (store.host.ctx.readOnly = false)
    (EngineError.other "storage_write: called from a read-only (staticcall) frame"))
  check (guardWith (store.host.ctx.bytesWith key value ≤ MAX_STORAGE_PER_CONTRACT)
    (EngineError.host .maxStoragePerContract))
  modify (·.wrote key value)
  return ⟨1, []⟩

def Store.logged (store : Store) (topics : List Digest) (data : List UInt8) : Store :=
  let log : Log := ⟨store.host.ctx.callee, topics, data⟩
  { store with
    host.logs := store.host.logs ++ [log]
    history := store.history.effect (.log log) }

def emitLog (topics : List Digest) (data : List UInt8) : Host Reply := do
  check (guardWith (topics.length ≤ MAX_TOPICS)
    (EngineError.other ("emit_log: at most 4 topics, got " ++ toString topics.length)))
  charge (HostCallWeight.emitLog (UInt64.ofNat topics.length)).gas
  let store ← get
  check (guardWith (store.host.ctx.readOnly = false)
    (EngineError.other "emit_log: called from a read-only (staticcall) frame"))
  modify (·.logged topics data)
  return ⟨1, []⟩

/-! ### Nested calls -/

def viewBalance (accounts : HashMap String Account) (a : String) : UInt64 :=
  (accounts[a]?.map Account.balance).getD 0

/-- Set the balance of an account that is there. -/
def setViewBalance (accounts : HashMap String Account) (a : String) (balance : UInt64) :
    HashMap String Account :=
  match accounts[a]? with
  | some account => accounts.insert a (account.setBalance balance)
  | none => accounts

/-- Move `value` between two accounts of a view; nothing if the payer cannot cover it. -/
def transferValue (accounts : HashMap String Account) (payer payee : String) (value : UInt64) :
    Option (HashMap String Account) :=
  let payerBalance := viewBalance accounts payer
  if payerBalance < value then none
  else
    let accounts := setViewBalance accounts payer (payerBalance - value)
    let recipient := accounts[payee]?.getD Account.default
    some (accounts.insert payee
      (recipient.setBalance (saturatingAdd recipient.balance value)))

def saturatingSucc (depth : UInt32) : UInt32 :=
  if depth.toNat + 1 < 2 ^ 32 then depth + 1 else depth

/-- Whether the target is a contract on the call stack and the selected entry must not be
entered again. -/
def refusesReentry (registry : WasmRegistry) (host : HostState) (call : NestedCall) : Bool :=
  call.target ∈ host.callStack &&
    (registry.selected call.target call.data).any fun entry => entry.nonReentrant

/-- The move of a call with value, from the owner of the frame's storage. -/
def entryMoves (host : HostState) (call : NestedCall) : List ValueTransfer :=
  if call.kind = .call ∧ call.amount > 0 then
    [⟨host.ctx.storageAddress, call.target, call.amount⟩]
  else []

/-- The accounts of the child, after the move; nothing if it is not covered. -/
def childAccounts (host : HostState) (call : NestedCall) : Option (HashMap String Account) :=
  if call.kind = .call ∧ call.amount > 0 then
    transferValue host.ctx.accounts host.ctx.storageAddress call.target call.amount
  else some host.ctx.accounts

/-- The context of a child frame. -/
def childContext (host : HostState) (fuel : UInt64) (call : NestedCall) : ExecutionContext :=
  let ctx := host.ctx
  let child := { ctx with
    gasLimit := fuel
    gasUsed := 0
    depth := saturatingSucc ctx.depth
    reentrant := decide (call.target ∈ host.callStack)
    input := call.data
    readOnly := ctx.readOnly || call.kind = .staticCall
    callee := call.target }
  match call.kind with
  | .call =>
    { child with caller := ctx.callee, value := call.amount, storageAddress := call.target }
  -- the outer caller, the parent's value and the parent's storage
  | .delegateCall => child
  | .staticCall => { child with caller := ctx.callee, value := 0, storageAddress := call.target }

/-- The same context with another account view. -/
def ExecutionContext.withAccounts (ctx : ExecutionContext) (accounts : HashMap String Account) :
    ExecutionContext :=
  { ctx with accounts := accounts }

/-- How a nested call ended, and what it leaves to be merged. -/
structure NestedOutcome where
  status : CallStatus
  callee : Callee
  gasUsed : UInt64
  returnData : List UInt8
  storageOverlay : Option ContractStorageMap
  accounts : Option (HashMap String Account)
  logs : List Log
  valueTransfers : List ValueTransfer

/-- An exceptional failure: the whole budget is burnt. -/
def NestedOutcome.burnt (callee : Callee) (budget : UInt64) : NestedOutcome :=
  ⟨.failed, callee, budget, [], none, none, [], []⟩

/-- A call of an address without code: a plain transfer. -/
def NestedOutcome.plain (accounts : HashMap String Account) : NestedOutcome :=
  ⟨.ok, .nothing, 0, [], none, some accounts, [], []⟩

/-- What a child frame leaves. -/
def NestedOutcome.ofFrame (frame : FrameOutcome) : NestedOutcome where
  status := match frame.result.status with
    | .success => .ok
    | .reverted => .reverted
    | .outOfGas => .failed
    | .failed => .failed
  callee := .code
  gasUsed := frame.result.gasUsed
  returnData := frame.returnData
  storageOverlay := some frame.storageOverlay
  accounts := some frame.accounts
  logs := frame.logs
  valueTransfers := frame.result.valueTransfers

/-- A child that was run, or not; a security violation inside has no outcome. -/
structure NestedRun where
  outcome : Except VmError NestedOutcome
  history : History

/-- The host state after a nested call: what the child did counts if it succeeded. -/
def HostState.merge (host : HostState) (call : NestedCall) (outcome : NestedOutcome) :
    HostState :=
  if outcome.status = .ok then
    { host with
      ctx.storageOverlay := outcome.storageOverlay.getD host.ctx.storageOverlay
      ctx.accounts := outcome.accounts.getD host.ctx.accounts
      logs := host.logs ++ outcome.logs
      valueTransfers := host.valueTransfers ++ entryMoves host call ++ outcome.valueTransfers
      lastReturnData := outcome.returnData }
  else { host with lastReturnData := outcome.returnData }

def Store.refused (store : Store) (err : VmError) : Store :=
  { store with history := store.history.refused err }

def Store.startOf (store : Store) (call : NestedCall) : CallStart :=
  ⟨call, store.host, store.fuel, childContext store.host store.fuel call⟩

def Store.aborted (store : Store) (call : NestedCall) (inside : History) : Store :=
  { store with history := store.history.aborted (store.startOf call) inside }

/-- The child's gas is charged and its effects are merged. -/
def Store.called (store : Store) (call : NestedCall) (outcome : NestedOutcome)
    (inside : History) : Store where
  host := store.host.merge call outcome
  fuel := saturatingSub store.fuel outcome.gasUsed
  history := store.history.called {
    store.startOf call with
    callee := outcome.callee
    status := outcome.status
    fuelAfter := saturatingSub store.fuel outcome.gasUsed } inside

section
variable (engine : WasmEngine)

def runPrecompileNested (target : String) (data : List UInt8) (budget : UInt64) :
    CallStatus × UInt64 × List UInt8 :=
  match engine.dispatchPrecompile target data with
  | .ok out =>
    if out.gasUsed > budget then (.failed, budget, []) else (.ok, out.gasUsed, out.output)
  | .error (.notImplemented _ gasUsed) => (.reverted, min gasUsed budget, [])
  | .error (.invalidInput _) => (.reverted, budget, [])

def nestedPrecompile (target : String) (data : List UInt8) (budget : UInt64)
    (accounts : HashMap String Account) : NestedOutcome :=
  let (status, gasUsed, returnData) := runPrecompileNested engine target data budget
  { status := status
    callee := .precompile
    gasUsed := gasUsed
    returnData := returnData
    storageOverlay := none
    accounts := if status = .ok then some accounts else none
    logs := []
    valueTransfers := [] }

/-- What the parent makes of a child frame. -/
def nestedFrame (budget : UInt64) (accounts : HashMap String Account) :
    Except WasmiError FrameOutcome → Except VmError NestedOutcome
  | .ok frame => .ok (.ofFrame frame)
  | .error (.noCode _) => .ok (.plain accounts)
  | .error (.core .reentrancyDetected) => .error .reentrancyDetected
  | .error (.core .maxCallDepth) => .error .maxCallDepth
  | .error _ => .ok (.burnt .code budget)

variable (registry : WasmRegistry)
  (enter : List UInt8 → ExecutionContext → List String → FrameRun)

/-- The child of a nested call: a precompile, a frame, or nothing to run. -/
def runChild (host : HostState) (fuel : UInt64) (call : NestedCall) : NestedRun :=
  let child := childContext host fuel call
  match childAccounts host call with
  | none => ⟨.ok (.burnt .nothing fuel), .start⟩
  | some accounts =>
    if call.kind ≠ .call ∧ call.amount > 0 then ⟨.ok (.burnt .nothing fuel), .start⟩
    else if isPrecompileAddress call.target then
      ⟨.ok (nestedPrecompile engine call.target call.data fuel accounts), .start⟩
    else
      match registry.code[call.target]? with
      | none => ⟨.ok (.plain accounts), .start⟩
      | some wasm =>
        let run := enter wasm (child.withAccounts accounts) (host.callStack ++ [call.target])
        ⟨nestedFrame fuel accounts run.outcome, run.history⟩

/-- A call that violates the limits on nested calls. -/
def refuse (err : VmError) : Host Reply := do
  modify (·.refused err)
  throw (.host err)

def nestedCall (kind : CallKind) (target : String) (value : Int64) (data : List UInt8) :
    Host Reply := do
  charge kind.baseWeight.gas
  check (guardWith ((asBytes target).length ≤ MAX_TARGET_LEN)
    (EngineError.other "call: target address too long"))
  check (guardWith (0 ≤ value) (EngineError.other "call: negative value"))
  let store ← get
  let call : NestedCall := ⟨kind, target, value.toUInt64, data⟩
  if saturatingSucc store.host.ctx.depth > MAX_CALL_DEPTH then refuse .maxCallDepth
  else if refusesReentry registry store.host call then refuse .reentrancyDetected
  else
    let run := runChild engine registry enter store.host store.fuel call
    match run.outcome with
    | .error err => do
      modify (·.aborted call run.history)
      throw (.host err)
    | .ok outcome => do
      modify (·.called call outcome run.history)
      return ⟨outcome.status.code, outcome.returnData⟩

/-! ### Frames -/

def serve : HostRequest → Host Reply
  | .work weight => do
    charge weight.gas
    return ⟨1, []⟩
  | .gasLeft => gasLeft
  | .inputRead => inputRead
  | .storageRead key => storageRead key
  | .storageWrite key value => storageWrite key value
  | .emitLog topics data => emitLog topics data
  | .call target value data => nestedCall engine registry enter .call target value data
  | .delegatecall target data => nestedCall engine registry enter .delegateCall target 0 data
  | .staticcall target data => nestedCall engine registry enter .staticCall target 0 data

def runScript : Script → Host (List UInt8)
  | .returned data => return data
  | .trapped trap => throw trap.toEngine
  | .metered gas next => do
    charge gas
    runScript next
  | .host request next => do
    let reply ← serve engine registry enter request
    runScript (next reply)

end

inductive FrameEntry where
  | selector
  | constructor
deriving DecidableEq

def resolveDispatchEntry (registry : WasmRegistry) (ctx : ExecutionContext) : Option String :=
  (registry.selected ctx.callee ctx.input).map AbiEntry.name

/-- The export of a frame, and whether it gets the calldata. -/
def frameExport (registry : WasmRegistry) (ctx : ExecutionContext) : FrameEntry → String × Bool
  | .selector =>
    match resolveDispatchEntry registry ctx with
    | some name => (name, true)
    | none => ("main", false)
  | .constructor => ("constructor", true)

/-- The top-level move of a frame: it is made before the code runs. -/
def seededMoves (ctx : ExecutionContext) (entry : FrameEntry) : List ValueTransfer :=
  if entry = .selector ∧ ctx.depth = 0 ∧ ctx.value > 0 then [⟨ctx.caller, ctx.callee, ctx.value⟩]
  else []

/-- The accounts after the top-level move, if the caller can pay. -/
def enteredAccounts (ctx : ExecutionContext) (entry : FrameEntry) :
    Option (HashMap String Account) :=
  if seededMoves ctx entry = [] then some ctx.accounts
  else transferValue ctx.accounts ctx.caller ctx.callee ctx.value

/-- The store in which a frame starts. -/
def freshStore (ctx : ExecutionContext) (callStack : List String)
    (valueTransfers : List ValueTransfer) : Store where
  host := ⟨ctx, callStack, [], [], valueTransfers⟩
  fuel := ctx.gasLimit
  history := .start

/-- The outcome of a frame that does not run. -/
def idleOutcome (status : TxStatus) (gasUsed : UInt64) (accounts : HashMap String Account) :
    FrameOutcome where
  result := {
    gasUsed := gasUsed
    logs := []
    status := status
    returnData := []
    storageOverlay := ∅
    valueTransfers := [] }
  storageOverlay := ∅
  accounts := accounts
  logs := []
  returnData := []

def finishedOutcome (gasLimit : UInt64) (store : Store) (returnData : List UInt8) :
    FrameOutcome where
  result := {
    gasUsed := saturatingSub gasLimit store.fuel
    logs := store.host.logs
    status := .success
    returnData := returnData
    storageOverlay := store.host.ctx.storageOverlay
    valueTransfers := store.host.valueTransfers }
  storageOverlay := store.host.ctx.storageOverlay
  accounts := store.host.ctx.accounts
  logs := store.host.logs
  returnData := returnData

section
variable (engine : WasmEngine) (registry : WasmRegistry)

/-- Instantiation, then the export; `enter` runs the frames of nested calls. -/
def runStore (enter : List UInt8 → ExecutionContext → List String → FrameRun) (wasm : List UInt8)
    (entry : FrameEntry) (store : Store) : FrameRun :=
  match (runScript engine registry enter (engine.start wasm)).run store with
  | .error err failed => ⟨.error (.instantiate (engine.describe err)), failed.history⟩
  | .ok _ started =>
    let (name, withCalldata) := frameExport registry store.host.ctx entry
    match engine.invoke wasm name withCalldata store.host.ctx.input with
    | .error failure => ⟨.error (failure.toWasmi name), started.history⟩
    | .ok script =>
      match (runScript engine registry enter script).run started with
      | .error err failed => ⟨.error (.ofEngine engine.describe err), failed.history⟩
      | .ok returnData finished =>
        ⟨.ok (finishedOutcome store.host.ctx.gasLimit finished returnData), finished.history⟩

/-- **One call frame.**  `levels` bounds the frames below each other; `MAX_CALL_DEPTH` does so
before it. -/
def runFrame : Nat → List UInt8 → ExecutionContext → List String → FrameEntry → FrameRun
  | 0, _, _, _, _ => ⟨.error (.core .maxCallDepth), .start⟩
  | levels + 1, wasm, ctx, callStack, entry =>
    match enteredAccounts ctx entry with
    | none => ⟨.ok (idleOutcome .failed ctx.gasLimit ctx.accounts), .start⟩
    | some accounts =>
      match engine.decode wasm with
      | .error message => ⟨.error (.engine ("module decode: " ++ message)), .start⟩
      | .ok _ =>
        if entry = .constructor ∧ engine.exportsFunc wasm "constructor" = false then
          ⟨.ok (idleOutcome .success 0 accounts), .start⟩
        else
          runStore engine registry
            (fun wasm ctx callStack => runFrame levels wasm ctx callStack .selector) wasm entry
            (freshStore (ctx.withAccounts accounts) callStack (seededMoves ctx entry))

/-! ### The executor -/

def executePrecompile (ctx : ExecutionContext) : Except WasmiError ExecutionResult :=
  let result (status : TxStatus) (gasUsed : UInt64) (output : List UInt8)
      (moves : List ValueTransfer) : ExecutionResult :=
    ⟨gasUsed, [], status, output, ∅, moves⟩
  match engine.dispatchPrecompile ctx.callee ctx.input with
  | .ok out =>
    if out.gasUsed > ctx.gasLimit then .error .outOfFuel
    else .ok (result .success out.gasUsed out.output
      (if ctx.value > 0 then [⟨ctx.caller, ctx.callee, ctx.value⟩] else []))
  | .error (.notImplemented _ gasUsed) =>
    if gasUsed > ctx.gasLimit then .error .outOfFuel else .ok (result .reverted gasUsed [] [])
  | .error (.invalidInput _) => .ok (result .reverted ctx.gasLimit [] [])

/-- Enough levels for every frame within `MAX_CALL_DEPTH`. -/
def topLevels : Nat := MAX_CALL_DEPTH.toNat + 1

/-- The frame of a top-level call or constructor. -/
def runTopFrame (wasm : List UInt8) (ctx : ExecutionContext) (entry : FrameEntry) : FrameRun :=
  runFrame engine registry topLevels wasm ctx [ctx.callee] entry

def executeFrame (ctx : ExecutionContext) (entry : FrameEntry) :
    Except WasmiError ExecutionResult :=
  match registry.code[ctx.callee]? with
  | none => .error (.noCode ctx.callee)
  | some wasm => (runTopFrame engine registry wasm ctx entry).outcome.map FrameOutcome.result

end

/-- `WasmiExecutor`. -/
def wasmiExecutor (engine : WasmEngine) : VmExecutor WasmRegistry where
  execute registry ctx :=
    (if isPrecompileAddress ctx.callee then executePrecompile engine ctx
      else executeFrame engine registry ctx .selector).mapError WasmiError.toVmError
  executeConstructor registry ctx :=
    (executeFrame engine registry ctx .constructor).mapError WasmiError.toVmError
  registerCode registry address wasm :=
    match engine.decode wasm with
    | .error message => .error (.hostFunctionError "register_code"
        ("invalid wasm for `" ++ address ++ "`: " ++ message))
    | .ok _ => .ok { registry with code := registry.code.insert address wasm }

end Strangecoin
