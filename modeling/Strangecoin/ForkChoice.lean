import Strangecoin.Retarget

/-! # Fork choice

A chain is ranked by its work, then by the time of its tip, then by the hash of its tip;
`isBetter` is the strict order of that rank (`isBetter_iff`), which is a linear one.

The work of a block is `(2 ^ 256 - 1) / target`.  As long as the sum does not pass
`2 ^ 256` the code computes it exactly.
-/
namespace Strangecoin
open List

/-! ### The least element of a list -/

section
variable {α β : Type} [LinearOrder β] (key : α → β)

/-- Of two elements the one with the smaller key; of equal ones the first. -/
def keepLeast (best candidate : α) : α := if key candidate < key best then candidate else best

variable {key}

theorem key_keepLeast (a b : α) : key (keepLeast key a b) = min (key a) (key b) := by
  rw [keepLeast]
  split
  · rename_i h
    exact (min_eq_right h.le).symm
  · rename_i h
    exact (min_eq_left (not_lt.mp h)).symm

theorem foldl_keepLeast_mem (first : α) (rest : List α) :
    rest.foldl (keepLeast key) first ∈ first :: rest := by
  induction rest generalizing first with
  | nil => exact mem_singleton.mpr rfl
  | cons a rest ih =>
    have hnext : keepLeast key first a = first ∨ keepLeast key first a = a := by
      rw [keepLeast]
      split
      · exact .inr rfl
      · exact .inl rfl
    rcases mem_cons.mp (ih (keepLeast key first a)) with h | h
    · rw [foldl_cons, h]
      rcases hnext with h | h <;> simp [h]
    · exact mem_cons_of_mem _ (mem_cons_of_mem _ h)

theorem foldl_keepLeast_le (first : α) (rest : List α) {a : α} (ha : a ∈ first :: rest) :
    key (rest.foldl (keepLeast key) first) ≤ key a := by
  induction rest generalizing first a with
  | nil => exact (congrArg key (mem_singleton.mp ha)).ge
  | cons b rest ih =>
    have hnext := ih (keepLeast key first b) mem_cons_self
    have hmin : key (keepLeast key first b) = min (key first) (key b) := key_keepLeast first b
    rw [hmin] at hnext
    rw [foldl_cons]
    rcases mem_cons.mp ha with rfl | ha
    · exact hnext.trans (min_le_left _ _)
    · rcases mem_cons.mp ha with rfl | ha
      · exact hnext.trans (min_le_right _ _)
      · exact ih (keepLeast key first b) (mem_cons_of_mem _ ha)

end

/-! ### The order -/

theorem map_toNat_lt {xs ys : List UInt8} :
    xs.map UInt8.toNat < ys.map UInt8.toNat ↔ xs < ys := by
  induction xs generalizing ys with
  | nil => cases ys <;> simp
  | cons x xs ih =>
    cases ys with
    | nil => simp
    | cons y ys =>
      rw [map_cons, map_cons, cons_lt_cons_iff, cons_lt_cons_iff, ih,
        UInt8.toNat_inj, UInt8.lt_iff_toNat_lt]

variable {a b : ChainInfo}

namespace ChainInfo

/-- The rank of a chain; the smaller, the better. -/
def rank (info : ChainInfo) : ℕᵒᵈ ×ₗ ℕ ×ₗ List ℕ :=
  toLex (OrderDual.toDual info.totalWork.toNat,
    toLex (info.tipTimestamp.toNat, (asBytes info.tipHash).map UInt8.toNat))

/-- Chains of one rank agree in everything that is compared. -/
theorem rank_inj : a.rank = b.rank ↔
    a.totalWork = b.totalWork ∧ a.tipTimestamp = b.tipTimestamp ∧ a.tipHash = b.tipHash := by
  constructor
  · intro h
    obtain ⟨hwork, h⟩ := Prod.mk.inj h
    obtain ⟨htime, hhash⟩ := Prod.mk.inj h
    refine ⟨U256.toNat_inj hwork, UInt64.toNat_inj.mp htime, asBytes_injective ?_⟩
    exact map_injective_iff.mpr (fun _ _ => UInt8.toNat_inj.mp) hhash
  · rintro ⟨hwork, htime, hhash⟩
    rw [rank, rank, hwork, htime, hhash]

end ChainInfo

theorem isBetter_iff : isBetter a b = true ↔ a.rank < b.rank := by
  have hwork : ∀ x y : U256, u256Gt x y = true ↔ y.toNat < x.toNat := fun _ _ => u256Gt_iff
  rw [ChainInfo.rank, ChainInfo.rank, Prod.Lex.toLex_lt_toLex, Prod.Lex.toLex_lt_toLex,
    OrderDual.toDual_lt_toDual, OrderDual.toDual_inj, map_toNat_lt]
  unfold isBetter
  by_cases hmore : u256Gt a.totalWork b.totalWork = true
  · rw [if_pos hmore]
    exact iff_of_true rfl (.inl ((hwork _ _).mp hmore))
  rw [if_neg hmore]
  rw [hwork] at hmore
  by_cases hless : u256Gt b.totalWork a.totalWork = true
  · rw [if_pos hless]
    rw [hwork] at hless
    exact iff_of_false nofun (by omega)
  rw [if_neg hless]
  rw [hwork] at hless
  have hsame : a.totalWork.toNat = b.totalWork.toNat := by omega
  by_cases hearlier : a.tipTimestamp < b.tipTimestamp
  · rw [if_pos hearlier]
    exact iff_of_true rfl (.inr ⟨hsame, .inl (UInt64.lt_iff_toNat_lt.mp hearlier)⟩)
  rw [if_neg hearlier]
  rw [UInt64.lt_iff_toNat_lt] at hearlier
  by_cases hlater : b.tipTimestamp < a.tipTimestamp
  · rw [if_pos hlater]
    rw [UInt64.lt_iff_toNat_lt] at hlater
    refine iff_of_false nofun ?_
    rintro (h | ⟨-, h | ⟨h, -⟩⟩)
    · exact hmore h
    · exact hearlier h
    · exact hlater.ne' h
  rw [if_neg hlater, decide_eq_true_iff]
  rw [UInt64.lt_iff_toNat_lt] at hlater
  constructor
  · exact fun h => .inr ⟨hsame, .inr ⟨by dsimp only; omega, h⟩⟩
  · rintro (h | ⟨-, h | ⟨-, h⟩⟩)
    · exact absurd h hmore
    · exact absurd h hearlier
    · exact h

theorem isBetter_eq_false_iff : isBetter a b = false ↔ b.rank ≤ a.rank := by
  rw [← Bool.not_eq_true, isBetter_iff, not_lt]

theorem selectBest_cons (first : ChainInfo) (rest : List ChainInfo) :
    selectBest (first :: rest) = some (rest.foldl (keepLeast ChainInfo.rank) first) := by
  have hstep : (fun best candidate => if isBetter candidate best then candidate else best) =
      keepLeast ChainInfo.rank := by
    funext best candidate
    rw [keepLeast]
    exact if_congr isBetter_iff rfl rfl
  rw [selectBest, hstep]

/-- The best of a list is in it, and no other has a smaller rank. -/
theorem selectBest_spec {chains : List ChainInfo} (h : chains ≠ []) :
    ∃ best ∈ chains, selectBest chains = some best ∧ ∀ info ∈ chains, best.rank ≤ info.rank := by
  obtain ⟨first, rest, rfl⟩ := exists_cons_of_ne_nil h
  exact ⟨_, foldl_keepLeast_mem first rest, selectBest_cons first rest,
    fun info hinfo => foldl_keepLeast_le first rest hinfo⟩

/-- **The order of chains.**  `isBetter` is irreflexive, asymmetric and transitive, and of two
chains that differ in work, tip time or tip hash one is better.  The best of a list is the
same, in these three, for every order of the list, and no chain of the list is better. -/
theorem fork_choice_order :
    (∀ a, isBetter a a = false) ∧
    (∀ a b, isBetter a b = true → isBetter b a = false) ∧
    (∀ a b c, isBetter a b = true → isBetter b c = true → isBetter a c = true) ∧
    (∀ a b : ChainInfo, a.totalWork ≠ b.totalWork ∨ a.tipTimestamp ≠ b.tipTimestamp ∨
      a.tipHash ≠ b.tipHash → isBetter a b = true ∨ isBetter b a = true) ∧
    ∀ chains chains' : List ChainInfo, chains ≠ [] → chains.Perm chains' →
      ∃ best ∈ chains, ∃ best' ∈ chains', selectBest chains = some best ∧
        selectBest chains' = some best' ∧
        best.totalWork = best'.totalWork ∧ best.tipTimestamp = best'.tipTimestamp ∧
        best.tipHash = best'.tipHash ∧ ∀ info ∈ chains, isBetter info best = false := by
  refine ⟨fun a => ?_, fun a b h => ?_, fun a b c hab hbc => ?_, fun a b h => ?_, ?_⟩
  · exact isBetter_eq_false_iff.mpr le_rfl
  · exact isBetter_eq_false_iff.mpr (isBetter_iff.mp h).le
  · exact isBetter_iff.mpr ((isBetter_iff.mp hab).trans (isBetter_iff.mp hbc))
  · rw [isBetter_iff, isBetter_iff, ← ne_iff_lt_or_gt, Ne, ChainInfo.rank_inj]
    tauto
  · intro chains chains' hne hperm
    have hne' : chains' ≠ [] := by
      rintro rfl
      exact hne hperm.eq_nil
    obtain ⟨best, hbest, hselect, hleast⟩ := selectBest_spec hne
    obtain ⟨best', hbest', hselect', hleast'⟩ := selectBest_spec hne'
    have hrank : best.rank = best'.rank :=
      le_antisymm (hleast best' (hperm.mem_iff.mpr hbest')) (hleast' best (hperm.mem_iff.mp hbest))
    obtain ⟨hwork, htime, hhash⟩ := ChainInfo.rank_inj.mp hrank
    exact ⟨best, hbest, best', hbest', hselect, hselect', hwork, htime, hhash,
      fun info hinfo => isBetter_eq_false_iff.mpr (hleast info hinfo)⟩

/-! ### Work -/

/-- The number that a block's target stands for. -/
def Block.targetValue (block : Block) : Nat :=
  match targetBytes block.target with
  | .ok target => beNat target.toList
  | .error _ => 0

/-- The work of a block, zero for the target zero. -/
def Block.work (block : Block) : Nat := (2 ^ 256 - 1) / block.targetValue

/-- The work of a chain, without a bound. -/
def exactWork (chain : List Block) : Nat := (chain.map Block.work).sum

theorem exactWork_append (chain extension : List Block) :
    exactWork (chain ++ extension) = exactWork chain + exactWork extension := by
  rw [exactWork, map_append, sum_append]
  rfl

theorem toNat_workFromTarget (target : Digest) :
    (workFromTarget target).toNat = (2 ^ 256 - 1) / beNat target.toList := by
  rw [workFromTarget, ← toNat_u256FromBytes]
  split
  · rename_i hzero
    rw [hzero]
    rfl
  · rw [toNat_u256Div, U256.toNat_max256]

theorem Block.work_eq {block : Block} {target : Digest} (h : targetBytes block.target = .ok target) :
    block.work = (workFromTarget target).toNat := by
  rw [Block.work, Block.targetValue, h, toNat_workFromTarget]

theorem Block.work_pos {block : Block} (h : block.targetValue ≠ 0) : 0 < block.work := by
  refine Nat.div_pos ?_ (Nat.pos_of_ne_zero h)
  unfold Block.targetValue
  split
  · rename_i target htarget
    rw [← toNat_u256FromBytes]
    have hlt := (u256FromBytes target).toNat_lt
    omega
  · exact Nat.zero_le _

variable {chain : List Block}

/-- One more block, if the sum stays below `2 ^ 256`. -/
theorem cumulativeWork_from (htargets : HexTargets chain) (total : U256)
    (hwork : total.toNat + exactWork chain < 2 ^ 256) :
    ∃ w, chain.foldlM (fun total block => do
        let target ← targetBytes block.target
        return u256Add total (workFromTarget target)) total = (.ok w : Except Failure U256) ∧
      w.toNat = total.toNat + exactWork chain := by
  induction chain generalizing total with
  | nil => exact ⟨total, rfl, rfl⟩
  | cons block chain ih =>
    obtain ⟨⟨target, htarget⟩, hchain⟩ := forall_mem_cons.mp htargets
    have hsum : exactWork (block :: chain) = (workFromTarget target).toNat + exactWork chain := by
      rw [exactWork, map_cons, sum_cons, Block.work_eq htarget]
      rfl
    have hadd : (u256Add total (workFromTarget target)).toNat =
        total.toNat + (workFromTarget target).toNat := by
      rw [toNat_u256Add, Nat.mod_eq_of_lt (by omega)]
    obtain ⟨w, hw, hvalue⟩ := ih hchain (u256Add total (workFromTarget target)) (by omega)
    refine ⟨w, ?_, by omega⟩
    rw [foldlM_cons]
    refine bind_eq_ok.mpr ⟨_, ?_, hw⟩
    rw [htarget]
    rfl

theorem cumulativeWork_exact (htargets : HexTargets chain) (hwork : exactWork chain < 2 ^ 256) :
    ∃ w, cumulativeWork chain = .ok w ∧ w.toNat = exactWork chain := by
  have hzero : U256.zero.toNat = 0 := rfl
  obtain ⟨w, hw, hvalue⟩ := cumulativeWork_from htargets U256.zero (by omega)
  exact ⟨w, hw, by omega⟩

theorem cumulativeWorkHeaders_map (chain : List Block) :
    cumulativeWorkHeaders (chain.map Block.header) = cumulativeWork chain := by
  rw [cumulativeWorkHeaders, foldlM_map]
  rfl

theorem chainInfo_eq {last : Block} {work : U256} (hlast : chain.getLast? = some last)
    (hwork : cumulativeWork chain = .ok work) :
    chainInfo chain = .ok (some ⟨last.index, last.hash, work, last.timestamp⟩) := by
  rw [chainInfo, hlast]
  exact bind_eq_ok.mpr ⟨work, hwork, rfl⟩

/-- What fork choice reads of a chain whose work is below `2 ^ 256`. -/
theorem exists_chainInfo (hne : chain ≠ []) (htargets : HexTargets chain)
    (hwork : exactWork chain < 2 ^ 256) :
    ∃ last info, chain.getLast? = some last ∧ chainInfo chain = .ok (some info) ∧
      info.totalWork.toNat = exactWork chain ∧
      info.tipTimestamp = last.timestamp ∧ info.tipHash = last.hash := by
  obtain ⟨last, hlast⟩ := Option.isSome_iff_exists.mp (getLast?_isSome.mpr hne)
  obtain ⟨w, hw, hvalue⟩ := cumulativeWork_exact htargets hwork
  exact ⟨last, _, hlast, chainInfo_eq hlast hw, hvalue, rfl, rfl⟩

theorem isBetter_of_work (h : b.totalWork.toNat < a.totalWork.toNat) :
    isBetter a b = true ∧ isBetter b a = false := by
  have hrank : a.rank < b.rank := Prod.Lex.toLex_lt_toLex.mpr (.inl h)
  exact ⟨isBetter_iff.mpr hrank, isBetter_eq_false_iff.mpr hrank.le⟩

theorem exactWork_pos {extension : List Block} (h : ∃ block ∈ extension, block.targetValue ≠ 0) :
    0 < exactWork extension := by
  obtain ⟨block, hblock, htarget⟩ := h
  have hle : block.work ≤ exactWork extension :=
    le_sum_of_mem (mem_map_of_mem hblock)
  exact (Block.work_pos htarget).trans_le hle

/-- **Work accounting.**  A block adds `(2 ^ 256 - 1) / target`; headers are counted as
blocks are; below `2 ^ 256` the sum is exact, and then an extension with a non-zero target in
it is better than the chain, and the chain is not better than it. -/
theorem work_accounting {chain : List Block} (htargets : HexTargets chain) :
    (∀ block ∈ chain, ∃ target, targetBytes block.target = .ok target ∧
      (workFromTarget target).toNat =
        if beNat target.toList = 0 then 0 else (2 ^ 256 - 1) / beNat target.toList) ∧
    cumulativeWorkHeaders (chain.map Block.header) = cumulativeWork chain ∧
    (exactWork chain < 2 ^ 256 → ∃ work, cumulativeWork chain = .ok work ∧
      work.toNat = exactWork chain) ∧
    ∀ extension : List Block, HexTargets extension → chain ≠ [] →
      exactWork (chain ++ extension) < 2 ^ 256 →
      (∃ block ∈ extension, block.targetValue ≠ 0) →
      ∃ info info', chainInfo chain = .ok (some info) ∧
        chainInfo (chain ++ extension) = .ok (some info') ∧
        isBetter info' info = true ∧ isBetter info info' = false := by
  refine ⟨fun block hblock => ?_, cumulativeWorkHeaders_map chain,
    fun hwork => cumulativeWork_exact htargets hwork, ?_⟩
  · obtain ⟨target, htarget⟩ := htargets block hblock
    refine ⟨target, htarget, ?_⟩
    rw [toNat_workFromTarget]
    split
    · rename_i hzero
      rw [hzero, Nat.div_zero]
    · rfl
  · intro extension hextension hne hwork hadds
    have hsum := exactWork_append chain extension
    have hpos := exactWork_pos hadds
    obtain ⟨_, info, -, hinfo, hvalue, -⟩ := exists_chainInfo hne htargets (by omega)
    obtain ⟨_, info', -, hinfo', hvalue', -⟩ := exists_chainInfo
      (append_ne_nil_of_left_ne_nil hne extension)
      (forall_mem_append.mpr ⟨htargets, hextension⟩) hwork
    exact ⟨info, info', hinfo, hinfo', isBetter_of_work (by omega)⟩

/-- A chain of one block and its extension by one block, both at the highest target. -/
theorem work_accounting_max : exactWork [timedBlock maxTarget 0, timedBlock maxTarget 1] = 2 ∧
    ∃ info info', chainInfo [timedBlock maxTarget 0] = .ok (some info) ∧
      chainInfo [timedBlock maxTarget 0, timedBlock maxTarget 1] = .ok (some info') ∧
      isBetter info' info = true ∧ isBetter info info' = false := by
  have hvalue : ∀ time, (timedBlock maxTarget time).targetValue = 2 ^ 256 - 1 := by
    intro time
    have htarget : targetBytes (timedBlock maxTarget time).target = _ := targetBytes_maxTarget
    rw [Block.targetValue, htarget]
    decide
  have hwork : exactWork [timedBlock maxTarget 0, timedBlock maxTarget 1] = 2 := by
    rw [exactWork, map_cons, map_singleton, Block.work, Block.work, hvalue, hvalue]
    decide
  have htargets : ∀ time, HexTargets [timedBlock maxTarget time] := by
    intro time block hblock
    rw [mem_singleton.mp hblock]
    exact ⟨_, targetBytes_maxTarget⟩
  refine ⟨hwork, (work_accounting (htargets 0)).2.2.2 [timedBlock maxTarget 1] (htargets 1)
    (cons_ne_nil _ _) (by rw [singleton_append, hwork]; decide)
    ⟨_, mem_singleton.mpr rfl, ?_⟩⟩
  rw [hvalue]
  decide

/-- The target zero. -/
def zeroTarget : String := hexEncode (List.replicate 32 0)

theorem targetBytes_zeroTarget : targetBytes zeroTarget = .ok zeroDigest := by
  rw [targetBytes, zeroTarget, hexDecode_hexEncode]
  rfl

/-- **Counterexample to extensions without a condition.**  A block with the target zero adds
no work; if its time is later, the chain without it is the better one. -/
theorem zero_target_extension :
    HexTargets [timedBlock zeroTarget 0, timedBlock zeroTarget 1] ∧
    exactWork [timedBlock zeroTarget 0, timedBlock zeroTarget 1] < 2 ^ 256 ∧
    ∃ info info', chainInfo [timedBlock zeroTarget 0] = .ok (some info) ∧
      chainInfo [timedBlock zeroTarget 0, timedBlock zeroTarget 1] = .ok (some info') ∧
      isBetter info info' = true := by
  have hvalue : ∀ time, (timedBlock zeroTarget time).work = 0 := by
    intro time
    have htarget : targetBytes (timedBlock zeroTarget time).target = _ := targetBytes_zeroTarget
    rw [Block.work_eq htarget]
    decide
  have hsum : ∀ times : List UInt64, exactWork (times.map (timedBlock zeroTarget)) = 0 := by
    intro times
    rw [exactWork, map_map, List.sum_eq_zero_iff_forall_eq_nat]
    simp [hvalue]
  have htargets : ∀ times : List UInt64, HexTargets (times.map (timedBlock zeroTarget)) := by
    intro times block hblock
    obtain ⟨time, -, rfl⟩ := mem_map.mp hblock
    exact ⟨_, targetBytes_zeroTarget⟩
  have hbound : ∀ times : List UInt64, exactWork (times.map (timedBlock zeroTarget)) < 2 ^ 256 :=
    fun times => by rw [hsum]; decide
  obtain ⟨_, info, hlast, hinfo, hwork, htime, -⟩ :=
    exists_chainInfo (cons_ne_nil _ _) (htargets [0]) (hbound [0])
  obtain ⟨_, info', hlast', hinfo', hwork', htime', -⟩ :=
    exists_chainInfo (cons_ne_nil _ _) (htargets [0, 1]) (hbound [0, 1])
  obtain rfl := Option.some.inj hlast
  obtain rfl := Option.some.inj hlast'
  refine ⟨htargets [0, 1], hbound [0, 1], info, info', hinfo, hinfo', isBetter_iff.mpr ?_⟩
  refine Prod.Lex.toLex_lt_toLex.mpr (.inr ⟨?_, Prod.Lex.toLex_lt_toLex.mpr (.inl ?_)⟩)
  · exact congrArg OrderDual.toDual (hwork.trans ((hsum [0]).trans ((hsum [0, 1]).symm.trans
      hwork'.symm)))
  · dsimp only
    rw [htime, htime']
    decide

end Strangecoin
