import Strangecoin.WideArithmetic
import Strangecoin.Genesis

/-! # The retarget computation

Every 2016 blocks the target is scaled by the time the window took and clamped to a
factor of four.  The code decides the two clamps from the time alone and computes what
lies between with a product that wraps at 256 bits.
-/
namespace Strangecoin

/-- The time a window is meant to take: 600 seconds for each of its 2015 intervals. -/
def expectedTime : Nat := 600 * 2015

/-- The interval the new target is clamped to. -/
def targetFloor (prev : Nat) : Nat := prev / 4
def targetCeiling (prev : Nat) : Nat := min (4 * prev) (2 ^ 256 - 1)

/-- The target the schedule calls for, in exact arithmetic. -/
def exactTarget (prev actual : Nat) : Nat :=
  max (targetFloor prev) (min (prev * actual / expectedTime) (targetCeiling prev))

variable {prev : Nat}

theorem targetFloor_le_targetCeiling (h : prev < 2 ^ 256) :
    targetFloor prev ≤ targetCeiling prev := by
  simp only [targetFloor, targetCeiling]
  omega

variable {t : Nat}

theorem exactTarget_mono (prev : Nat) {t' : Nat} (h : t ≤ t') :
    exactTarget prev t ≤ exactTarget prev t' := by
  have hprod : prev * t / expectedTime ≤ prev * t' / expectedTime :=
    Nat.div_le_div_right (Nat.mul_le_mul_left _ h)
  simp only [exactTarget]
  omega

/-- A window of four times the expected length or more is clamped from above. -/
theorem exactTarget_of_slow (hprev : prev < 2 ^ 256) (h : 4 * expectedTime ≤ t) :
    exactTarget prev t = targetCeiling prev := by
  have hge : 4 * prev ≤ prev * t / expectedTime := by
    rw [Nat.le_div_iff_mul_le (by decide)]
    calc 4 * prev * expectedTime = prev * (4 * expectedTime) := by ring
      _ ≤ prev * t := Nat.mul_le_mul_left _ h
  have hle := targetFloor_le_targetCeiling hprev
  have hceiling : targetCeiling prev ≤ 4 * prev := Nat.min_le_left _ _
  simp only [exactTarget]
  omega

/-- A window of a quarter of the expected length or less is clamped from below. -/
theorem exactTarget_of_fast (h : 4 * t ≤ expectedTime) : exactTarget prev t = targetFloor prev := by
  have hle : prev * t / expectedTime ≤ targetFloor prev := by
    rw [targetFloor, Nat.le_div_iff_mul_le (by decide)]
    calc prev * t / expectedTime * 4 ≤ prev * t * 4 / expectedTime := by
          rw [Nat.mul_comm, Nat.mul_comm _ 4]
          exact Nat.mul_div_le_mul_div_assoc ..
      _ = prev * (4 * t) / expectedTime := by ring_nf
      _ ≤ prev * expectedTime / expectedTime := Nat.div_le_div_right (Nat.mul_le_mul_left _ h)
      _ = prev := Nat.mul_div_cancel _ (by decide)
  simp only [exactTarget]
  omega

/-! ### The code's arithmetic -/

theorem toNat_u256FromU64 (v : UInt64) : (u256FromU64 v).toNat = v.toNat := by
  simp [u256FromU64, U256.toNat]

/-- What the code computes between the clamps: the product wraps. -/
def wrappedTarget (prev actual : Nat) : Nat :=
  min (max (prev * actual % 2 ^ 256 / expectedTime) (targetFloor prev)) (targetCeiling prev)

theorem toNat_retarget (prev : Digest) (t : UInt64) :
    beNat (retarget prev t).toList =
      if 4 * expectedTime ≤ t.toNat then targetCeiling (beNat prev.toList)
      else if 4 * t.toNat ≤ expectedTime then targetFloor (beNat prev.toList)
      else wrappedTarget (beNat prev.toList) t.toNat := by
  have hfactor : MAX_TARGET_CHANGE_FACTOR.toNat = 4 := rfl
  have hexpected : (TARGET_BLOCK_TIME * (RETARGET_INTERVAL - 1)).toNat = expectedTime := rfl
  have hslow : t ≥ saturatingMul (TARGET_BLOCK_TIME * (RETARGET_INTERVAL - 1))
      MAX_TARGET_CHANGE_FACTOR ↔ 4 * expectedTime ≤ t.toNat := by
    rw [ge_iff_le, UInt64.le_iff_toNat_le, toNat_saturatingMul, hfactor, hexpected,
      Nat.mul_comm, min_eq_left (by decide)]
  have hlt := t.toNat_lt
  have hfast : ¬ 4 * expectedTime ≤ t.toNat →
      (saturatingMul t MAX_TARGET_CHANGE_FACTOR ≤ TARGET_BLOCK_TIME * (RETARGET_INTERVAL - 1) ↔
        4 * t.toNat ≤ expectedTime) := by
    intro h
    have hsmall : 4 * expectedTime ≤ 2 ^ 60 := by decide
    rw [UInt64.le_iff_toNat_le, toNat_saturatingMul, hfactor, hexpected, Nat.mul_comm,
      min_eq_left (by omega)]
  have hbytes : ∀ v, beNat (u256ToBytes v).toList = v.toNat := by
    intro v
    rw [← toNat_u256FromBytes, u256FromBytes_u256ToBytes]
  unfold retarget
  simp only [hslow]
  split
  · rw [hbytes, toNat_u256MulSat, toNat_u256FromBytes, toNat_u256FromU64, hfactor, Nat.mul_comm,
      targetCeiling]
  · rename_i h
    simp only [hfast h]
    split
    · rw [hbytes, toNat_u256Div, toNat_u256FromBytes, toNat_u256FromU64, hfactor, targetFloor]
    · rw [hbytes, toNat_u256Min, toNat_u256Max, toNat_u256Div, toNat_u256Mul, toNat_u256Div,
        toNat_u256MulSat, toNat_u256FromBytes, toNat_u256FromU64, toNat_u256FromU64,
        toNat_u256FromU64, hfactor, hexpected, Nat.mul_comm _ 4, wrappedTarget, targetFloor,
        targetCeiling]

/-- The time a window took does not make the product wrap, or it does not matter. -/
def NumeratorFits (prev actual : Nat) : Prop :=
  4 * expectedTime ≤ actual ∨ 4 * actual ≤ expectedTime ∨ prev * actual < 2 ^ 256

instance (prev actual : Nat) : Decidable (NumeratorFits prev actual) := by
  unfold NumeratorFits
  infer_instance

theorem wrappedTarget_of_lt (hprev : prev < 2 ^ 256) (h : prev * t < 2 ^ 256) :
    wrappedTarget prev t = exactTarget prev t := by
  have hle := targetFloor_le_targetCeiling hprev
  rw [wrappedTarget, exactTarget, Nat.mod_eq_of_lt h]
  omega

/-- Once the product wraps the result is too small: the exact quotient lies above the
lower clamp, and what is left of it below the upper one. -/
theorem wrappedTarget_lt (hprev : prev < 2 ^ 256) (hslow : t < 4 * expectedTime)
    (hfast : expectedTime < 4 * t) (hwraps : 2 ^ 256 ≤ prev * t) :
    wrappedTarget prev t < exactTarget prev t := by
  have hE : expectedTime = 1209000 := rfl
  -- the last target is large
  have hlarge : 2 ^ 256 < 4 * prev * expectedTime := by
    calc 2 ^ 256 ≤ prev * t := hwraps
      _ < prev * (4 * expectedTime) := Nat.mul_lt_mul_of_pos_left hslow (by
          rcases Nat.eq_zero_or_pos prev with h | h
          · rw [h, Nat.zero_mul] at hwraps
            exact absurd hwraps (by decide)
          · exact h)
      _ = 4 * prev * expectedTime := by ring
  have hquarter : prev * expectedTime + prev ≤ prev * t * 4 := by
    calc prev * expectedTime + prev = prev * (expectedTime + 1) := by ring
      _ ≤ prev * (4 * t) := Nat.mul_le_mul_left _ hfast
      _ = prev * t * 4 := by ring
  have hmod : prev * t % 2 ^ 256 + 2 ^ 256 ≤ prev * t := by
    have hsplit := Nat.mod_add_div (prev * t) (2 ^ 256)
    have hpos : 1 ≤ prev * t / 2 ^ 256 := (Nat.le_div_iff_mul_le (by decide)).mpr (by omega)
    omega
  have hlt := Nat.mod_lt (prev * t) (show 0 < 2 ^ 256 by decide)
  rw [hE] at hlarge hquarter
  rw [wrappedTarget, exactTarget, targetFloor, targetCeiling, hE]
  generalize prev * t % 2 ^ 256 = rest at hmod hlt ⊢
  generalize prev * t = product at hwraps hquarter hmod ⊢
  omega

/-- **The interval, and when the target is exact.** -/
theorem retarget_spec (prev : Digest) (t : UInt64) :
    targetFloor (beNat prev.toList) ≤ beNat (retarget prev t).toList ∧
      beNat (retarget prev t).toList ≤ targetCeiling (beNat prev.toList) ∧
      (beNat (retarget prev t).toList = exactTarget (beNat prev.toList) t.toNat ↔
        NumeratorFits (beNat prev.toList) t.toNat) := by
  have hprev : beNat prev.toList < 2 ^ 256 := by
    rw [← toNat_u256FromBytes]
    exact U256.toNat_lt _
  have hle := targetFloor_le_targetCeiling hprev
  rw [toNat_retarget]
  split
  · rename_i hslow
    exact ⟨hle, Nat.le_refl _, iff_of_true (exactTarget_of_slow hprev hslow).symm (.inl hslow)⟩
  · rename_i hslow
    split
    · rename_i hfast
      exact ⟨Nat.le_refl _, hle, iff_of_true (exactTarget_of_fast hfast).symm (.inr (.inl hfast))⟩
    · rename_i hfast
      have hinterval : targetFloor (beNat prev.toList) ≤ wrappedTarget (beNat prev.toList) t.toNat ∧
          wrappedTarget (beNat prev.toList) t.toNat ≤ targetCeiling (beNat prev.toList) := by
        rw [wrappedTarget]
        omega
      refine ⟨hinterval.1, hinterval.2, fun hexact => ?_, fun hfits => ?_⟩
      · refine .inr (.inr (Nat.lt_of_not_le fun hwraps => ?_))
        exact Nat.ne_of_lt (wrappedTarget_lt hprev (by omega) (by omega) hwraps) hexact
      · rcases hfits with h | h | h
        · exact absurd h hslow
        · exact absurd h hfast
        · exact wrappedTarget_of_lt hprev h

/-! ### Chains -/

/-- Every block of the chain carries a target of 32 bytes in hex. -/
def HexTargets (chain : List Block) : Prop :=
  ∀ block ∈ chain, ∃ target, targetBytes block.target = .ok target

/-- The target of the chain's last block. -/
def lastTarget (chain : List Block) : Nat :=
  match chain.getLast? with
  | none => 0
  | some last =>
    match targetBytes last.target with
    | .error _ => 0
    | .ok target => beNat target.toList

/-- The time between the window's first and last block, zero if it is negative. -/
def actualTime (chain : List Block) : Nat :=
  match chain[chain.length - 2016]?, chain.getLast? with
  | some first, some last => last.timestamp.toNat - first.timestamp.toNat
  | _, _ => 0

theorem computeTarget_eq {chain : List Block} (hlength : 2016 ≤ chain.length)
    (htargets : HexTargets chain) :
    ∃ prev t, beNat prev.toList = lastTarget chain ∧ t.toNat = actualTime chain ∧
      computeTarget chain = .ok (retarget prev t) := by
  have hne : chain ≠ [] := by
    rintro rfl
    exact absurd hlength (by decide)
  obtain ⟨prev, hprev⟩ := htargets _ (List.getLast_mem hne)
  have hlast := List.getLast?_eq_some_getLast hne
  obtain ⟨first, hfirst⟩ : ∃ first, chain[chain.length - 2016]? = some first := by
    rw [← Option.isSome_iff_exists, isSome_getElem?]
    omega
  refine ⟨prev, saturatingSub (chain.getLast hne).timestamp first.timestamp, ?_, ?_, ?_⟩
  · simp only [lastTarget, hlast, hprev]
  · simp only [actualTime, hlast, hfirst, toNat_saturatingSub]
  · have hinterval : RETARGET_INTERVAL.toNat = 2016 := rfl
    have hwindow : (chain.drop (chain.length - 2016)).headD (chain.getLast hne) = first := by
      rw [List.headD_eq_head?_getD, List.head?_drop, hfirst, Option.getD_some]
    unfold computeTarget
    rw [hlast]
    dsimp only
    rw [hprev, hinterval, hwindow]
    exact if_neg (Nat.not_lt.mpr hlength)

/-- **Retargeting over every chain of a window or more.** The new target exists and lies
between a quarter and four times the last one; it is the exact one iff the product of the
last target and the window's time fits or a clamp applies; and among chains for which it
does, it grows with the time. -/
theorem computeTarget_exact_iff (chain : List Block) (hlength : 2016 ≤ chain.length)
    (htargets : HexTargets chain) :
    ∃ target, computeTarget chain = .ok target ∧
      targetFloor (lastTarget chain) ≤ beNat target.toList ∧
      beNat target.toList ≤ targetCeiling (lastTarget chain) ∧
      (beNat target.toList = exactTarget (lastTarget chain) (actualTime chain) ↔
        NumeratorFits (lastTarget chain) (actualTime chain)) ∧
      ∀ chain' target', 2016 ≤ chain'.length → HexTargets chain' →
        computeTarget chain' = .ok target' → lastTarget chain' = lastTarget chain →
        NumeratorFits (lastTarget chain) (actualTime chain) →
        NumeratorFits (lastTarget chain') (actualTime chain') →
        actualTime chain ≤ actualTime chain' → beNat target.toList ≤ beNat target'.toList := by
  obtain ⟨prev, t, hprev, ht, htarget⟩ := computeTarget_eq hlength htargets
  have hspec := retarget_spec prev t
  rw [hprev, ht] at hspec
  refine ⟨_, htarget, hspec.1, hspec.2.1, hspec.2.2, ?_⟩
  intro chain' target' hlength' htargets' htarget' hlast hfits hfits' htime
  obtain ⟨prev', t', hprev', ht', htarget''⟩ := computeTarget_eq hlength' htargets'
  have hspec' := (retarget_spec prev' t').2.2
  rw [hprev', ht'] at hspec'
  rw [htarget'] at htarget''
  cases htarget''
  rw [hspec.2.2.mpr hfits, hspec'.mpr hfits', hlast]
  exact exactTarget_mono _ htime

/-- A block with a target and a time.  Retargeting reads nothing else. -/
def timedBlock (target : String) (time : UInt64) : Block where
  index := 0
  timestamp := time
  transactions := []
  previousHash := zeroHash
  hash := zeroHash
  nonce := 0
  target := target
  consensusVersion := CURRENT_CONSENSUS_VERSION
  stateRoot := zeroDigest
  txRoot := zeroDigest
  receiptsRoot := zeroDigest

/-- A window of 2016 blocks that all carry one target, the last of them `time` seconds
after the others. -/
def timedWindow (target : String) (time : UInt64) : List Block :=
  List.replicate 2015 (timedBlock target 0) ++ [timedBlock target time]

theorem length_timedWindow (target : String) (time : UInt64) :
    (timedWindow target time).length = 2016 := by
  rw [timedWindow, List.length_append, List.length_replicate, List.length_singleton]

theorem getLast?_timedWindow (target : String) (time : UInt64) :
    (timedWindow target time).getLast? = some (timedBlock target time) :=
  List.getLast?_concat

variable {bytes : Digest} {target : String}

theorem hexTargets_timedWindow (time : UInt64) (h : targetBytes target = .ok bytes) :
    HexTargets (timedWindow target time) := by
  intro block hblock
  rcases List.mem_append.mp hblock with hmem | hmem
  · rw [List.eq_of_mem_replicate hmem]
    exact ⟨bytes, h⟩
  · rw [List.mem_singleton.mp hmem]
    exact ⟨bytes, h⟩

theorem lastTarget_timedWindow (time : UInt64) (h : targetBytes target = .ok bytes) :
    lastTarget (timedWindow target time) = beNat bytes.toList := by
  simp only [lastTarget, getLast?_timedWindow, timedBlock, h]

theorem actualTime_timedWindow (target : String) (time : UInt64) :
    actualTime (timedWindow target time) = time.toNat := by
  have hfirst : (timedWindow target time)[(timedWindow target time).length - 2016]? =
      some (timedBlock target 0) := by
    rw [length_timedWindow]
    rfl
  simp only [actualTime, hfirst, getLast?_timedWindow, timedBlock]
  exact Nat.sub_zero _

theorem computeTarget_timedWindow (time : UInt64) (h : targetBytes target = .ok bytes) :
    ∃ new, computeTarget (timedWindow target time) = .ok new ∧ beNat new.toList =
      if 4 * expectedTime ≤ time.toNat then targetCeiling (beNat bytes.toList)
      else if 4 * time.toNat ≤ expectedTime then targetFloor (beNat bytes.toList)
      else wrappedTarget (beNat bytes.toList) time.toNat := by
  obtain ⟨prev, t, hprev, ht, htarget⟩ := computeTarget_eq (length_timedWindow target time).ge
    (hexTargets_timedWindow time h)
  rw [lastTarget_timedWindow time h] at hprev
  rw [actualTime_timedWindow] at ht
  refine ⟨_, htarget, ?_⟩
  rw [toNat_retarget, hprev, ht]

theorem targetBytes_maxTarget : targetBytes maxTarget = .ok (Vector.replicate 32 255) := by
  have hencode : maxTarget = hexEncode (List.replicate 32 255) := by decide
  rw [targetBytes, hencode, hexDecode_hexEncode]
  rfl

/-- At the genesis target, a window of a quarter of the expected length. -/
theorem computeTarget_fast_window :
    ∃ target, computeTarget (timedWindow maxTarget 302250) = .ok target ∧
      beNat target.toList = (2 ^ 256 - 1) / 4 := by
  obtain ⟨target, htarget, -, -, hexact, -⟩ :=
    computeTarget_exact_iff (timedWindow maxTarget 302250) (length_timedWindow _ _).ge
      (hexTargets_timedWindow _ targetBytes_maxTarget)
  refine ⟨target, htarget, ?_⟩
  rw [lastTarget_timedWindow _ targetBytes_maxTarget, actualTime_timedWindow] at hexact
  rw [hexact.mpr (by decide)]
  decide

/-- `2 ^ 236`. -/
def roundTarget : String := String.ofList ("00001".toList ++ List.replicate 59 '0')

theorem targetBytes_roundTarget :
    targetBytes roundTarget = .ok ⟨#[0, 0, 16] ++ Array.replicate 29 0, by simp⟩ := by
  have hencode : roundTarget = hexEncode ([0, 0, 16] ++ List.replicate 29 0) := by decide
  rw [targetBytes, hencode, hexDecode_hexEncode]
  rfl

/-- At the genesis target a window of exactly the expected length divides the target by
four, where the exact target is the last one; and one more second can lower a target. -/
theorem computeTarget_wraps :
    (∃ target, computeTarget (timedWindow maxTarget 1209000) = .ok target ∧
      exactTarget (lastTarget (timedWindow maxTarget 1209000))
        (actualTime (timedWindow maxTarget 1209000)) = 2 ^ 256 - 1 ∧
      beNat target.toList = (2 ^ 256 - 1) / 4) ∧
    ∃ target target', computeTarget (timedWindow roundTarget 1048575) = .ok target ∧
      computeTarget (timedWindow roundTarget 1048576) = .ok target' ∧
      beNat target'.toList < beNat target.toList := by
  constructor
  · obtain ⟨target, htarget, hvalue⟩ := computeTarget_timedWindow 1209000 targetBytes_maxTarget
    refine ⟨target, htarget, ?_, ?_⟩
    · rw [lastTarget_timedWindow _ targetBytes_maxTarget, actualTime_timedWindow]
      decide
    · rw [hvalue]
      decide
  · obtain ⟨target, htarget, hvalue⟩ := computeTarget_timedWindow 1048575 targetBytes_roundTarget
    obtain ⟨target', htarget', hvalue'⟩ := computeTarget_timedWindow 1048576 targetBytes_roundTarget
    refine ⟨target, target', htarget, htarget', ?_⟩
    rw [hvalue, hvalue']
    decide

end Strangecoin
