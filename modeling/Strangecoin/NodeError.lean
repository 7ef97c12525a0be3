import Strangecoin.Vm
import Strangecoin.Hex

/-! # Errors of the node

The node's own error type, how an error of the core becomes one, and the two ways a
node operation can stop: it returns an error, or it panics (`Failure`).  A panic is
what `expect`, `assert!` and an index out of bounds do; it is never turned into an
`Err`.
-/
namespace Strangecoin

/-- The errors the modelled operations of the node return. -/
inductive StrangecoinError where
  | invalidSignature
  | invalidNonce (expected got : UInt64)
  | invalidChainId (expected got : UInt32)
  | invalidDifficulty
  | sizeLimitExceeded (what : String)
  | timestampTooOld
  | timestampInFuture
  | genesisMismatch (expected got : Digest)
  | hexError (e : FromHexError)
  | secp256k1Error (message : String)
  | invalidCoinbaseAmount (expected got : UInt64)
  | mempoolFull (limit : Nat)
  | duplicateTx
  | insufficientBalance (available required : UInt64)
  | configError (message : String)
  | invalidBlock (message : String)
  | genesisNetworkMismatch (networkId chainId : UInt32)
  | rbfFeerateTooLow (needed got : UInt64)
  | rbfReplacementLimit (limit : UInt32)
  | blockGasLimitExceeded (total limit : UInt64)
deriving DecidableEq, Repr

/-! ### Texts -/

/-- The `Display` text of an executor's error. -/
def VmError.display : VmError → String
  | .outOfGas => "out of gas"
  | .outOfMemory => "out of memory"
  | .reverted => "execution reverted"
  | .hostFunctionError name reason => "host function `" ++ name ++ "` failed: " ++ reason
  | .reentrancyDetected => "reentrancy detected"
  | .maxCallDepth => "max call depth exceeded"
  | .maxCodeSize => "contract code exceeds max code size"
  | .maxStoragePerContract => "contract storage exceeds max size per contract"
  | .gasMeteringBug => "gas metering inconsistency detected"
  | .notImplemented feature => "feature `" ++ feature ++ "` is not implemented yet"

/-- A byte array in the format `{:?}`. -/
def debugBytes (d : Digest) : String :=
  "[" ++ ", ".intercalate (d.toList.map fun b => toString b.toNat) ++ "]"

/-- A byte array in the format `{:x?}`: hexadecimal without padding. -/
def hexDebugBytes (d : Digest) : String :=
  "[" ++ ", ".intercalate (d.toList.map fun b =>
    String.ofList (if b < 16 then [hexDigit b] else hexOfByte b)) ++ "]"

/-- `From<CoreError>`: most errors keep their name, the others become a text. -/
def StrangecoinError.ofCore : CoreError → StrangecoinError
  | .invalidSignature => .invalidSignature
  | .invalidNonce expected got => .invalidNonce expected got
  | .invalidChainId expected got => .invalidChainId expected got
  | .invalidDifficulty => .invalidDifficulty
  | .timestampTooOld => .timestampTooOld
  | .timestampInFuture => .timestampInFuture
  | .genesisMismatch expected got => .genesisMismatch expected got
  | .secp256k1Error message => .secp256k1Error message
  | .invalidCoinbaseAmount expected got => .invalidCoinbaseAmount expected got
  | .insufficientBalance _ available required => .insufficientBalance available required
  | .stateOverflow => .configError "arithmetic overflow in state transition"
  | .stateRootMismatch expected got => .configError
      ("state root mismatch: expected " ++ debugBytes expected ++ ", got " ++ debugBytes got)
  | .postStateRootMismatch expected got => .configError
      ("post-state root mismatch: block commits to " ++ debugBytes expected ++ ", recomputed " ++
        debugBytes got)
  | .txRootMismatch expected got => .configError
      ("tx root mismatch: expected " ++ debugBytes expected ++ ", got " ++ debugBytes got)
  | .witnessVerificationFailed => .configError "witness verification failed"
  | .proofAccountMismatch => .configError
      "proof account mismatch: claimed account not found in trie state"
  | .invalidAddressChecksum => .configError "invalid address checksum"
  | .invalidAddressFormat reason => .configError ("invalid address format: " ++ reason)
  | .unknownAddressHrp hrp => .configError ("unknown address HRP: " ++ hrp)
  | .unknownNetworkId networkId => .configError
      ("unknown network ID: " ++ toString networkId.toNat)
  | .bech32EncodeError message => .configError ("bech32 encode error: " ++ message)
  | .headerHashMismatch expected got => .invalidBlock
      ("header hash mismatch: expected " ++ expected ++ ", got " ++ got)
  | .unsupportedTxType reason => .invalidBlock ("unsupported tx type: " ++ reason)
  | .invalidContractDeploy reason => .invalidBlock ("invalid contract deploy: " ++ reason)
  | .invalidGasLimit reason => .invalidBlock ("invalid gas limit: " ++ reason)
  | .vmExecution err => .invalidBlock ("vm execution failed: " ++ err.display)

/-- The errors the modelled operations of the network crate return. -/
inductive NetError where
  | transport (message : String)
  | protocol (message : String)
deriving DecidableEq, Repr

/-! ### Failures -/

/-- How an operation stops without a result.  The message of a panic is the text of the
`expect` or `panic!`, without the error that is printed after it. -/
inductive Failure where
  | error (e : StrangecoinError)
  | panic (message : String)
deriving DecidableEq, Repr

/-- The `?` on a result of the core. -/
def liftCore {α : Type} : Except CoreError α → Except Failure α
  | .ok a => .ok a
  | .error e => .error (.error (.ofCore e))

@[simp] theorem liftCore_eq_ok {α : Type} {x : Except CoreError α} {a : α} :
    liftCore x = .ok a ↔ x = .ok a := by
  cases x <;> simp [liftCore]

theorem liftCore_eq_error {α : Type} {x : Except CoreError α} {f : Failure} :
    liftCore x = .error f ↔ ∃ e, x = .error e ∧ f = .error (.ofCore e) := by
  cases x <;> simp [liftCore, eq_comm]

/-- The `?` on a result of another crate, with its error wrapped. -/
def liftError {ε α : Type} (wrap : ε → StrangecoinError) : Except ε α → Except Failure α
  | .ok a => .ok a
  | .error e => .error (.error (wrap e))

/-- An early return of an error of the node. -/
def guardNode (c : Prop) [Decidable c] (e : StrangecoinError) : Except Failure Unit :=
  guardWith c (.error e)

@[simp] theorem guardNode_eq_ok {c : Prop} [Decidable c] {e : StrangecoinError} {u : Unit} :
    guardNode c e = .ok u ↔ c :=
  guardWith_eq_ok

theorem guardNode_eq_error {c : Prop} [Decidable c] {e : StrangecoinError} {f : Failure} :
    guardNode c e = .error f ↔ ¬ c ∧ f = .error e := by
  by_cases h : c <;> simp [guardNode, guardWith, h, eq_comm]

end Strangecoin
