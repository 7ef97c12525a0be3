import Strangecoin.BlockEncoding
import Strangecoin.ApplyBlock

/-! # Consensus rules

The checks of a block that need no state, and fork choice by cumulative work.  Which
version and phase apply at a height is decided by the `ConsensusManager`; the genesis block
is pinned by its hash on the public networks.
-/
namespace Strangecoin

def CURRENT_CONSENSUS_VERSION : UInt32 := 1
def MEDIAN_TIME_WINDOW : UInt64 := 11
def MAX_FUTURE_TIME : UInt64 := 2 * 60 * 60
def RETARGET_INTERVAL : UInt64 := 2016
def TARGET_BLOCK_TIME : UInt64 := 600
def MAX_TARGET_CHANGE_FACTOR : UInt64 := 4

/-! ### Timestamps -/

/-- `u64::saturating_sub`. -/
def saturatingSub (a b : UInt64) : UInt64 := if b ≤ a then a - b else 0

/-- `u64::saturating_add`. -/
def saturatingAdd (a b : UInt64) : UInt64 := if a.toNat + b.toNat < 2 ^ 64 then a + b else 0 - 1

/-- `u64::saturating_mul`. -/
def saturatingMul (a b : UInt64) : UInt64 := if a.toNat * b.toNat < 2 ^ 64 then a * b else 0 - 1

theorem toNat_saturatingSub (a b : UInt64) : (saturatingSub a b).toNat = a.toNat - b.toNat := by
  rw [saturatingSub]
  split
  · exact UInt64.toNat_sub_of_le _ _ ‹_›
  · rename_i hlt
    rw [UInt64.le_iff_toNat_le] at hlt
    rw [UInt64.toNat_zero]
    omega

theorem toNat_saturatingMul (a b : UInt64) :
    (saturatingMul a b).toNat = min (a.toNat * b.toNat) (2 ^ 64 - 1) := by
  rw [saturatingMul]
  split
  · rw [UInt64.toNat_mul, Nat.mod_eq_of_lt ‹_›]
    omega
  · rw [show (0 - 1 : UInt64).toNat = 2 ^ 64 - 1 from rfl]
    omega

/-- The median of the timestamps from the window's start to the end of `blocks`. -/
def medianTimePast (blocks : List Block) (currentHeight : UInt64) : Except Failure UInt64 :=
  if currentHeight = 0 then .ok 0
  else
    let start := saturatingSub currentHeight MEDIAN_TIME_WINDOW
    if blocks.length < start.toNat then .error (.panic "range start index out of range for slice")
    else
      let times := ((blocks.drop start.toNat).map Block.timestamp).insertionSort (· ≤ ·)
      match times[times.length / 2]? with
      | some time => .ok time
      | none => .error (.panic "index out of bounds")

/-- `now + MAX_FUTURE_TIME` wraps. -/
def validateTimestamp (block : Block) (prevBlocks : List Block) (now : UInt64) :
    Except Failure Unit :=
  if block.index = 0 then .ok ()
  else do
    let mtp ← medianTimePast prevBlocks block.index
    liftCore (guardWith (mtp < block.timestamp) CoreError.timestampTooOld)
    liftCore (guardWith (block.timestamp ≤ now + MAX_FUTURE_TIME) CoreError.timestampInFuture)

/-! ### Targets -/

/-- `copy_from_slice` into `[u8; 32]`. -/
def digestOfSlice (bytes : List UInt8) : Except Failure Digest :=
  if h : bytes.length = 32 then .ok ⟨bytes.toArray, by simpa using h⟩
  else .error (.panic "copy_from_slice: source slice length does not match destination slice length")

/-- `hex::decode(target).expect("valid target hex")`, copied into an array. -/
def targetBytes (target : String) : Except Failure Digest :=
  match hexDecode target with
  | .error _ => .error (.panic "valid target hex")
  | .ok bytes => digestOfSlice bytes

/-- The target after a full retarget window: the last target scaled by the time the
window took, clamped to a factor of four. -/
def retarget (prevTarget : Digest) (actualTime : UInt64) : Digest :=
  let expectedTime := TARGET_BLOCK_TIME * (RETARGET_INTERVAL - 1)
  let prev := u256FromBytes prevTarget
  let minTarget := u256Div prev (u256FromU64 MAX_TARGET_CHANGE_FACTOR)
  let maxTarget := u256MulSat prev (u256FromU64 MAX_TARGET_CHANGE_FACTOR)
  if actualTime ≥ saturatingMul expectedTime MAX_TARGET_CHANGE_FACTOR then u256ToBytes maxTarget
  else if saturatingMul actualTime MAX_TARGET_CHANGE_FACTOR ≤ expectedTime then
    u256ToBytes minTarget
  else
    let numerator := u256Mul prev (u256FromU64 actualTime)
    let newTarget := u256Div numerator (u256FromU64 expectedTime)
    u256ToBytes (u256Min (u256Max newTarget minTarget) maxTarget)

def computeTarget (prevBlocks : List Block) : Except Failure Digest :=
  match prevBlocks.getLast? with
  | none => .error (.panic "at least one block")
  | some last => do
    let prevTarget ← targetBytes last.target
    if prevBlocks.length < RETARGET_INTERVAL.toNat then return prevTarget
    else
      let window := prevBlocks.drop (prevBlocks.length - RETARGET_INTERVAL.toNat)
      let first := window.headD last
      return retarget prevTarget (saturatingSub last.timestamp first.timestamp)

def cumulativeWork (chain : List Block) : Except Failure U256 :=
  chain.foldlM (fun total block => do
    let target ← targetBytes block.target
    return u256Add total (workFromTarget target)) U256.zero

/-- The work of headers, by the same rule. -/
def cumulativeWorkHeaders (headers : List BlockHeader) : Except Failure U256 :=
  headers.foldlM (fun total header => do
    let target ← targetBytes header.target
    return u256Add total (workFromTarget target)) U256.zero

/-! ### Blocks and transactions -/

def validateNonce (txNonce accountNonce : UInt64) : Except CoreError Unit := do
  let expected ← okOr (checkedAdd accountNonce 1) CoreError.stateOverflow
  guardWith (txNonce = expected) (CoreError.invalidNonce expected txNonce)

/-- The static checks of a creation or a call. -/
def checkTransactionBody : Transaction → Except CoreError Unit
  | .create create => do
    guardWith (create.initCode ≠ []) (CoreError.invalidContractDeploy "init_code is empty")
    guardWith (create.initCode.length ≤ MAX_CODE_SIZE) (CoreError.invalidContractDeploy
      ("init_code exceeds max code size of " ++ toString MAX_CODE_SIZE ++ " bytes"))
    guardWith (create.gasLimit ≤ BLOCK_GAS_LIMIT) (CoreError.invalidGasLimit
      ("create gas_limit " ++ toString create.gasLimit.toNat ++ " exceeds block gas limit " ++
        toString BLOCK_GAS_LIMIT.toNat))
  | .call call => guardWith (call.gasLimit ≠ 0) (CoreError.invalidGasLimit "gas_limit must be > 0")
  | .transfer _ => .ok ()

section
variable (crates : Crates)

def validateDifficulty (block : Block) : Except Failure Unit := do
  let hash ← crates.blockHash block
  match hexDecode block.target with
  | .error _ => liftCore (.error .invalidDifficulty)
  | .ok bytes => do
    let target ← digestOfSlice bytes
    liftCore (guardWith (u256Gt (u256FromBytes hash) (u256FromBytes target) = false)
      CoreError.invalidDifficulty)

/-- The key that signed a message. -/
def recoverPubkeyFromSig (signature message : List UInt8) : Except CoreError (List UInt8) := do
  guardWith (signature.length = 65) CoreError.invalidSignature
  okOr (crates.recoverEcdsa (crates.blake3 message) signature) CoreError.invalidSignature

/-- A coinbase needs no signature; any other transaction is signed by its sender. -/
def verifyTransaction (tx : Transaction) : Except CoreError Unit :=
  if tx.isCoinbase then .ok ()
  else do
    checkTransactionBody tx
    let pk ← recoverPubkeyFromSig crates tx.signature (serializeTransaction tx)
    let sender ← crates.decodeAddress tx.sender
    guardWith (sender.1 = pk) CoreError.invalidSignature

def validateTxRoot (block : Block) : Except CoreError Unit :=
  let computed := crates.computeTxRoot block.transactions
  guardWith (computed = block.txRoot) (CoreError.txRootMismatch computed block.txRoot)

end

/-! ### Fork choice -/

structure ChainInfo where
  tipHeight : UInt64
  tipHash : String
  totalWork : U256
  tipTimestamp : UInt64

/-- More work, then the earlier tip, then the lower hash. -/
def isBetter (a b : ChainInfo) : Bool :=
  if u256Gt a.totalWork b.totalWork then true
  else if u256Gt b.totalWork a.totalWork then false
  else if a.tipTimestamp < b.tipTimestamp then true
  else if b.tipTimestamp < a.tipTimestamp then false
  else decide (asBytes a.tipHash < asBytes b.tipHash)

/-- The best of several chains; of equal ones the first. -/
def selectBest : List ChainInfo → Option ChainInfo
  | [] => none
  | first :: rest => some (rest.foldl
      (fun best candidate => if isBetter candidate best then candidate else best) first)

def chainInfo (chain : List Block) : Except Failure (Option ChainInfo) :=
  match chain.getLast? with
  | none => .ok none
  | some tip => do
    let totalWork ← cumulativeWork chain
    return some ⟨tip.index, tip.hash, totalWork, tip.timestamp⟩

/-! ### Versions and phases -/

inductive ConsensusPhase where
  | pow
  | pos
deriving DecidableEq, Repr

/-- The base version and the versions activated at heights, in ascending order. -/
structure ConsensusRules where
  consensusVersion : UInt32
  activations : HashMap UInt64 UInt32

def currentConsensusRules (height : UInt64) (rules : ConsensusRules) : UInt32 :=
  rules.activations.toList.foldl
    (fun active e => if height ≥ e.1 then e.2 else active) rules.consensusVersion

structure ConsensusManager where
  rules : ConsensusRules
  posActivationHeight : Option UInt64

namespace ConsensusManager

/-- The rules of the current chain: one version, no activation, proof of work only. -/
def new : ConsensusManager := ⟨⟨CURRENT_CONSENSUS_VERSION, ∅⟩, none⟩

def expectedVersion (m : ConsensusManager) (height : UInt64) : UInt32 :=
  currentConsensusRules height m.rules

def phaseAt (m : ConsensusManager) (height : UInt64) : ConsensusPhase :=
  match m.posActivationHeight with
  | some h => if height ≥ h then .pos else .pow
  | none => .pow

end ConsensusManager

end Strangecoin
