import Strangecoin.ApplyBlock

/-! # The emission schedule

The reward of a block as a number: the base reward, halved in every interval, or the tail
emission of the supply, whichever is more.  The tail emission is computed with a product
that wraps.
-/
namespace Strangecoin

/-- The schedule, over unbounded numbers. -/
def scheduledReward (height totalSupply : Nat) : Nat :=
  max (INITIAL_REWARD.toNat / 2 ^ (height / HALVING_INTERVAL.toNat))
    (totalSupply * TAIL_RATE_NUMERATOR.toNat /
      (TAIL_RATE_DENOMINATOR.toNat * BLOCKS_PER_YEAR.toNat))

theorem toNat_halvingSchedule (height : UInt64) :
    (halvingSchedule height).toNat =
      INITIAL_REWARD.toNat / 2 ^ (height.toNat / HALVING_INTERVAL.toNat) := by
  unfold halvingSchedule
  dsimp only
  rw [← UInt64.toNat_div]
  split
  · rename_i hlate
    have hpow : 2 ^ 64 ≤ 2 ^ (height / HALVING_INTERVAL).toNat :=
      Nat.pow_le_pow_right Nat.two_pos hlate
    exact (Nat.div_eq_of_lt (INITIAL_REWARD.toNat_lt.trans_le hpow)).symm
  · rename_i hearly
    have hlt : (height / HALVING_INTERVAL).toNat < 64 := Nat.not_le.mp hearly
    rw [UInt64.toNat_shiftRight, Nat.mod_eq_of_lt hlt, Nat.shiftRight_eq_div_pow]

theorem toNat_max (a b : UInt64) : (max a b).toNat = max a.toNat b.toNat := by
  change (if a ≤ b then b else a).toNat = _
  split
  · rename_i h
    exact (Nat.max_eq_right (UInt64.le_iff_toNat_le.mp h)).symm
  · rename_i h
    exact (Nat.max_eq_left (Nat.le_of_not_le h)).symm

section
variable {chainId : UInt32} (hregtest : chainId ≠ CHAIN_ID_REGTEST)
include hregtest

/-- The code's reward is the scheduled one for the wrapped product. -/
theorem toNat_blockReward (height totalSupply : UInt64) :
    (blockRewardAtHeightForChain height totalSupply chainId).toNat =
      max (INITIAL_REWARD.toNat / 2 ^ (height.toNat / HALVING_INTERVAL.toNat))
        (totalSupply.toNat * 6 % 2 ^ 64 / 52560000) := by
  rw [blockRewardAtHeightForChain, if_neg hregtest, toNat_max, toNat_halvingSchedule,
    calculateTailReward, UInt64.toNat_div, UInt64.toNat_mul]
  rfl

/-- The reward grows with the supply while the tail emission does not overflow. -/
theorem blockReward_mono {height supply supply' : UInt64}
    (hwrap : supply'.toNat * 6 < 2 ^ 64) (hle : supply.toNat ≤ supply'.toNat) :
    blockRewardAtHeightForChain height supply chainId ≤
      blockRewardAtHeightForChain height supply' chainId := by
  rw [UInt64.le_iff_toNat_le, toNat_blockReward hregtest, toNat_blockReward hregtest,
    Nat.mod_eq_of_lt hwrap, Nat.mod_eq_of_lt (by omega)]
  exact max_le_max_left _ (Nat.div_le_div_right (Nat.mul_le_mul_right 6 hle))

/-- **Which rewards follow the schedule.**  Those for a supply of less than a sixth of the
range; up to there they grow with the supply.  No reward grows with the height. -/
theorem reward_follows_schedule_iff (height totalSupply : UInt64) :
    ((blockRewardAtHeightForChain height totalSupply chainId).toNat =
        scheduledReward height.toNat totalSupply.toNat ↔ totalSupply.toNat * 6 < 2 ^ 64) ∧
    (totalSupply.toNat * 6 < 2 ^ 64 → ∀ less ≤ totalSupply,
      blockRewardAtHeightForChain height less chainId ≤
        blockRewardAtHeightForChain height totalSupply chainId) ∧
    ∀ later ≥ height, blockRewardAtHeightForChain later totalSupply chainId ≤
      blockRewardAtHeightForChain height totalSupply chainId := by
  refine ⟨?_, fun hwrap less hless => blockReward_mono hregtest hwrap hless, fun later hlater => ?_⟩
  · rw [toNat_blockReward hregtest]
    have hbase : INITIAL_REWARD.toNat / 2 ^ (height.toNat / HALVING_INTERVAL.toNat) ≤ 5000000000 :=
      Nat.div_le_self _ _
    have hschedule : scheduledReward height.toNat totalSupply.toNat =
        max (INITIAL_REWARD.toNat / 2 ^ (height.toNat / HALVING_INTERVAL.toNat))
          (totalSupply.toNat * 6 / 52560000) := rfl
    rw [hschedule]
    constructor
    · -- past the range the tail emission alone is above every base reward
      intro h
      by_contra hwrap
      have hmod : totalSupply.toNat * 6 % 2 ^ 64 + 2 ^ 64 ≤ totalSupply.toNat * 6 := by
        omega
      generalize totalSupply.toNat * 6 % 2 ^ 64 = wrapped at h hmod
      omega
    · intro hwrap
      rw [Nat.mod_eq_of_lt hwrap]
  · rw [UInt64.le_iff_toNat_le, toNat_blockReward hregtest, toNat_blockReward hregtest]
    refine max_le_max_right _ (Nat.div_le_div_left ?_ (Nat.two_pow_pos _))
    exact Nat.pow_le_pow_right Nat.two_pos (Nat.div_le_div_right hlater)

end

theorem reward_follows_schedule_mainnet :
    (blockRewardAtHeightForChain 13440000 2100000000000000 CHAIN_ID_MAINNET).toNat =
      scheduledReward 13440000 2100000000000000 :=
  (reward_follows_schedule_iff (by decide) 13440000 2100000000000000).1.mpr (by decide)

/-- One unit of supply more, and the tail emission of 3509 coins is gone. -/
theorem tail_reward_wraps :
    blockRewardAtHeightForChain 13440000 3074457345618258602 CHAIN_ID_MAINNET = 350965450413 ∧
    blockRewardAtHeightForChain 13440000 3074457345618258603 CHAIN_ID_MAINNET = 0 ∧
    scheduledReward 13440000 3074457345618258603 = 350965450413 := by
  decide

end Strangecoin
