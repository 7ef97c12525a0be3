import Strangecoin.BlockReceipts
import Strangecoin.CodeRegistry

/-! # The block gas limit

A block reserves the gas limits of its calls and creations.  The sum is taken in 64 bits and
wraps, and nothing bounds the gas limit of a call.
-/
namespace Strangecoin

theorem toNat_foldl_add (xs : List UInt64) (acc : UInt64) :
    (xs.foldl (fun acc x => acc + x) acc).toNat =
      (acc.toNat + (xs.map UInt64.toNat).sum) % 2 ^ 64 := by
  induction xs generalizing acc with
  | nil =>
    have hlt := acc.toNat_lt
    rw [List.foldl_nil, List.map_nil, List.sum_nil]
    omega
  | cons x xs ih =>
    rw [List.foldl_cons, ih, UInt64.toNat_add, List.map_cons, List.sum_cons]
    omega

theorem toNat_wrappingSum (xs : List UInt64) :
    (wrappingSum xs).toNat = (xs.map UInt64.toNat).sum % 2 ^ 64 := by
  rw [wrappingSum, toNat_foldl_add, UInt64.toNat_zero, Nat.zero_add]

/-- The gas that the transactions reserve, exactly. -/
def reservedGas (transactions : List Transaction) : Nat :=
  (transactions.map fun tx => tx.gasLimit.toNat).sum

theorem enforceBlockGasLimit_ok {transactions : List Transaction} :
    enforceBlockGasLimit transactions = .ok () ↔
      reservedGas transactions % 2 ^ 64 ≤ BLOCK_GAS_LIMIT.toNat := by
  rw [enforceBlockGasLimit, guardNode_eq_ok, UInt64.le_iff_toNat_le, toNat_wrappingSum,
    List.map_map]
  rfl

/-- **The block gas limit.**  An accepted block reserves no more gas than the limit exactly if
the sum of what it reserves does not wrap. -/
theorem block_gas_exact_iff {V : Type} {crates : Crates} {rt : Runtime V} {parent state : State}
    {block : Block} {view : BlockView}
    (haccept : validateAndApply crates rt parent block view = .ok state) :
    reservedGas block.transactions ≤ BLOCK_GAS_LIMIT.toNat ↔
      reservedGas block.transactions < 2 ^ 64 := by
  have hlimit := enforceBlockGasLimit_ok.mp ((validateAndApply_ok crates rt).mp haccept).gasLimit
  constructor
  · exact fun hle => hle.trans_lt BLOCK_GAS_LIMIT.toNat_lt
  · intro hlt
    rwa [Nat.mod_eq_of_lt hlt] at hlimit

theorem block_gas_ahead : ∃ parent view state,
    validateAndApply nonzeroCrates registryRuntime parent aheadBlock view = .ok state ∧
      reservedGas aheadBlock.transactions ≤ BLOCK_GAS_LIMIT.toNat := by
  obtain ⟨parent, view, state, haccept⟩ := @accepted_mined 7200 [unpaid "miner"] (by decide)
  exact ⟨parent, view, state, haccept, (block_gas_exact_iff haccept).mpr (by decide)⟩

/-! ### Two calls whose gas limits add up to nothing -/

/-- A call without value to an address without code. -/
def hungryCall (nonce : UInt64) (signature : List UInt8) : Transaction :=
  .call ⟨deployer, "recipient", [], 0, 0x8000000000000000, 0, nonce, CHAIN_ID_REGTEST, signature⟩

def hungryCalls : List Transaction :=
  [hungryCall 1
    [62, 38, 113, 57, 244, 156, 24, 66, 200, 81, 151, 104, 42, 99, 183, 183, 34, 147, 191, 55,
     230, 178, 155, 203, 132, 58, 241, 82, 35, 248, 219, 127, 57, 69, 21, 91, 48, 231, 15, 55,
     253, 46, 235, 82, 38, 183, 238, 42, 6, 250, 212, 14, 94, 166, 108, 224, 210, 29, 74, 108,
     93, 236, 71, 183, 1],
   hungryCall 2
    [243, 164, 130, 117, 37, 27, 102, 55, 219, 155, 81, 215, 177, 129, 239, 78, 186, 111, 62,
     239, 26, 183, 212, 60, 166, 14, 220, 165, 209, 52, 215, 125, 116, 61, 122, 137, 196, 31,
     205, 92, 197, 120, 226, 131, 236, 96, 3, 152, 217, 64, 130, 90, 79, 161, 163, 71, 94, 42,
     124, 198, 218, 65, 244, 63, 0]]

/-- A block with both calls, mined on the regtest genesis. -/
def hungryBlock : Block :=
  minedBlock nonzeroCrates registryRuntime regtestConfig regtestReplay 7200
    (unpaid "miner" :: hungryCalls)

/-- **Counterexample to the limit being enforced exactly.**  The accepted block reserves
`2 ^ 64` gas. -/
theorem gas_limits_wrap : ∃ parent view state,
    validateAndApply nonzeroCrates registryRuntime parent hungryBlock view = .ok state ∧
      reservedGas hungryBlock.transactions = 2 ^ 64 := by
  obtain ⟨parent, view, state, haccept⟩ :=
    @accepted_mined 7200 (unpaid "miner" :: hungryCalls) (by decide +kernel)
  exact ⟨parent, view, state, haccept, by decide⟩

end Strangecoin
