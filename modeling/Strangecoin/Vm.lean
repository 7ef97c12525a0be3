import Strangecoin.Types

/-! # The contract executor's interface

The core depends on an executor trait and never on a concrete runtime: what a
contract does is a parameter of the state transition (`VmExecutor`).

An executor's **value trail** (`ExecutionResult.valueTransfers`) and its **staged
storage writes** (`ExecutionResult.storageOverlay`) are only proposals; the state
transition commits them when the status is `success`.
-/
namespace Strangecoin

/-- Persisted storage of one contract: slot key to value. -/
abbrev ContractStorage := HashMap Digest (List UInt8)

/-- Chain-wide contract storage: contract address to slot map. -/
abbrev ContractStorageMap := HashMap String ContractStorage

/-! ### Results and receipts -/

inductive TxStatus where
  | success
  | reverted
  | outOfGas
  | failed
deriving DecidableEq, Repr

def TxStatus.canonicalByte : TxStatus → UInt8
  | success => 0
  | reverted => 1
  | outOfGas => 2
  | failed => 3

structure Log where
  address : String
  topics : List Digest
  data : List UInt8
deriving DecidableEq, Repr

/-- One balance move. -/
structure ValueTransfer where
  payer : String
  payee : String
  amount : UInt64
deriving DecidableEq, Repr

structure ExecutionResult where
  gasUsed : UInt64
  logs : List Log
  status : TxStatus
  returnData : List UInt8
  storageOverlay : ContractStorageMap
  valueTransfers : List ValueTransfer

inductive VmError where
  | outOfGas
  | outOfMemory
  | reverted
  | hostFunctionError (name reason : String)
  | reentrancyDetected
  | maxCallDepth
  | maxCodeSize
  | maxStoragePerContract
  | gasMeteringBug
  | notImplemented (feature : String)
deriving DecidableEq, Repr

structure Receipt where
  txid : Digest
  gasUsed : UInt64
  logs : List Log
  status : TxStatus
  blockHeight : UInt64
  txIndex : UInt32
  valueTransfers : List ValueTransfer
deriving DecidableEq, Repr

namespace Receipt

def fromExecution (txid : Digest) (blockHeight : UInt64) (txIndex : UInt32)
    (result : ExecutionResult) : Receipt where
  txid := txid
  gasUsed := result.gasUsed
  logs := result.logs
  status := result.status
  blockHeight := blockHeight
  txIndex := txIndex
  valueTransfers := result.valueTransfers

/-- The receipt of an exceptional failure: the whole gas budget is burnt. -/
def fromVmError (txid : Digest) (blockHeight : UInt64) (txIndex : UInt32) (err : VmError)
    (gasLimit : UInt64) : Receipt where
  txid := txid
  gasUsed := gasLimit
  logs := []
  status := match err with
    | .outOfGas => .outOfGas
    | _ => .failed
  blockHeight := blockHeight
  txIndex := txIndex
  valueTransfers := []

theorem fromVmError_status (txid : Digest) (h : UInt64) (i : UInt32) (err : VmError) (g : UInt64) :
    (fromVmError txid h i err g).status ≠ .success := by
  cases err <;> simp [fromVmError]

end Receipt

/-! ### The executor -/

structure BlockContext where
  height : UInt64
  timestamp : UInt64
  coinbase : String
  blockGasLimit : UInt64

/-- Everything one call frame sees.  The storage handle is shared in the source;
it is read-only while the executor runs. -/
structure ExecutionContext where
  block : BlockHeader
  accounts : HashMap String Account
  caller : String
  callee : String
  value : UInt64
  gasLimit : UInt64
  gasUsed : UInt64
  depth : UInt32
  reentrant : Bool
  readOnly : Bool
  blockContext : BlockContext
  storage : ContractStorageMap
  storageOverlay : ContractStorageMap
  storageAddress : String
  input : List UInt8

/-- The executor trait, over the executor's own state `V`: registered code is the
only thing that changes it. -/
structure VmExecutor (V : Type) where
  execute : V → ExecutionContext → Except VmError ExecutionResult
  executeConstructor : V → ExecutionContext → Except VmError ExecutionResult
  registerCode : V → String → List UInt8 → Except VmError V

/-- `NoVm`: the stand-in of the transfer-only path. -/
def noVm : VmExecutor Unit where
  execute _ _ := .error (.hostFunctionError "apply_block" "no VM executor available")
  executeConstructor _ _ := .error (.hostFunctionError "apply_block" "no VM executor available")
  registerCode _ _ _ := .error (.hostFunctionError "apply_block" "no VM executor available")

def BLOCK_GAS_LIMIT : UInt64 := 1000000
def MAX_CODE_SIZE : Nat := 24 * 1024

/-! ### Errors of the core -/

inductive CoreError where
  | invalidSignature
  | invalidNonce (expected got : UInt64)
  | invalidChainId (expected got : UInt32)
  | invalidDifficulty
  | timestampTooOld
  | timestampInFuture
  | genesisMismatch (expected got : Digest)
  | secp256k1Error (message : String)
  | invalidCoinbaseAmount (expected got : UInt64)
  | insufficientBalance (sender : String) (available required : UInt64)
  | stateOverflow
  | stateRootMismatch (expected got : Digest)
  | postStateRootMismatch (expected got : Digest)
  | txRootMismatch (expected got : Digest)
  | witnessVerificationFailed
  | proofAccountMismatch
  | invalidAddressChecksum
  | invalidAddressFormat (reason : String)
  | unknownAddressHrp (hrp : String)
  | unknownNetworkId (networkId : UInt32)
  | bech32EncodeError (message : String)
  | headerHashMismatch (expected got : String)
  | unsupportedTxType (reason : String)
  | invalidContractDeploy (reason : String)
  | invalidGasLimit (reason : String)
  | vmExecution (err : VmError)
deriving DecidableEq, Repr

end Strangecoin
