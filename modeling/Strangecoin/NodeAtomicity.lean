import Strangecoin.Replay

/-! # Rejected input

Both operations check everything before their first write; the one computation
after it that can stop, the cumulative work of the new chain, stops by a panic and not
with an error.
-/
namespace Strangecoin
open Blockchain

/-! ### Fork choice is strict -/

theorem u256Gt_asymm {a b : U256} (h : u256Gt a b = true) : u256Gt b a = false := by
  rw [u256Gt_iff] at h
  rw [← Bool.not_eq_true, u256Gt_iff]
  omega

/-- Of two chains at most one is better. -/
theorem isBetter_asymm {a b : ChainInfo} (h : isBetter a b = true) : isBetter b a = false := by
  unfold isBetter at h ⊢
  by_cases hab : u256Gt a.totalWork b.totalWork = true
  · rw [if_neg (by rw [u256Gt_asymm hab]; decide), if_pos hab]
  · rw [if_neg hab] at h
    by_cases hba : u256Gt b.totalWork a.totalWork = true
    · rw [if_pos hba] at h
      cases h
    · rw [if_neg hba] at h ⊢
      rw [if_neg hab]
      by_cases hlt : a.tipTimestamp < b.tipTimestamp
      · rw [if_neg (UInt64.lt_asymm hlt), if_pos hlt]
      · rw [if_neg hlt] at h
        by_cases hgt : b.tipTimestamp < a.tipTimestamp
        · rw [if_pos hgt] at h
          cases h
        · rw [if_neg hgt] at h ⊢
          rw [if_neg hlt]
          have hhash := of_decide_eq_true h
          exact decide_eq_false (List.lt_asymm hhash)

theorem chainInfo_eq_none {chain : List Block} (h : chainInfo chain = .ok none) : chain = [] := by
  unfold chainInfo at h
  split at h
  · rename_i hlast
    exact List.getLast?_eq_none_iff.mp hlast
  · obtain ⟨work, -, ⟨⟩⟩ := bind_eq_ok.mp h

section
variable {V : Type} (crates : Crates) (rt : Runtime V)

/-- Adoption only when the candidate is better than a chain that is not empty. -/
theorem shouldAdopt_true {current candidate : List Block}
    (h : shouldAdopt current candidate = .ok true) :
    ∃ info, chainInfo candidate = .ok (some info) ∧
      (current ≠ [] → ∃ old, chainInfo current = .ok (some old) ∧ isBetter info old = true) := by
  unfold shouldAdopt at h
  split at h
  · cases h
  · obtain ⟨candidateInfo, hcandidate, h⟩ := bind_eq_ok.mp h
    cases candidateInfo with
    | none => cases h
    | some info =>
      refine ⟨info, hcandidate, fun hne => ?_⟩
      obtain ⟨currentInfo, hcurrent, h⟩ := bind_eq_ok.mp h
      cases currentInfo with
      | none => exact absurd (chainInfo_eq_none hcurrent) hne
      | some old => exact ⟨old, hcurrent, Except.ok.inj h⟩

/-! ### Errors change nothing -/

/-- A returned error, as opposed to a panic. -/
def Failure.Returned (f : Failure) : Prop := ∃ e, f = .error e

theorem targetBytes_panics {target : String} {f : Failure} (h : targetBytes target = .error f) :
    ¬ f.Returned := by
  rintro ⟨e, rfl⟩
  unfold targetBytes digestOfSlice at h
  split at h
  · cases h
  · split at h
    · cases h
    · cases h

/-- The only way the work of a chain is not computed. -/
theorem cumulativeWork_panics {chain : List Block} {f : Failure}
    (h : cumulativeWork chain = .error f) : ¬ f.Returned := by
  refine run_error (E := fun f => ¬ f.Returned) (fun total block f hstep => ?_) h
  rcases bind_eq_error.mp hstep with htarget | ⟨target, -, ⟨⟩⟩
  exact targetBytes_panics htarget

theorem commitBlock_atomic (block : Block) (now : UInt64) :
    Atomic Failure.Returned (commitBlock crates rt block now) := by
  refine readsOnly_get.bind_atomic fun self => (readsOnly_check _).bind_atomic fun newState => ?_
  apply NeverStops.atomic
  refine (neverStops_modify _).bind fun _ => (neverStops_modify _).bind fun _ =>
    (neverStops_modify _).bind fun _ => (neverStops_modify _).bind fun _ =>
    (neverStops_modify _).bind fun _ => neverStops_get.bind fun self => ?_
  exact (neverStops_check fun _ h => cumulativeWork_panics h).bind fun _ => neverStops_modify _

theorem installCandidate_neverStops (candidate : List Block) (rebuilt : StateCache)
    (receipts : List Receipt) (difficulty : UInt32) (merged : Mempool) :
    NeverStops Failure.Returned
      (installCandidate crates candidate rebuilt receipts difficulty merged) := by
  refine (neverStops_modify _).bind fun _ => (neverStops_modify _).bind fun _ =>
    (neverStops_modify _).bind fun _ => neverStops_get.bind fun self => ?_
  refine (neverStops_check fun _ h => cumulativeWork_panics h).bind fun _ => ?_
  exact (neverStops_modify _).bind fun _ => (neverStops_modify _).bind fun _ =>
    (neverStops_modify _).bind fun _ => (neverStops_modify _).bind fun _ => neverStops_pure true

theorem tryAdoptCandidate_atomic (candidate : List Block)
    (balances : Option (HashMap String Account)) (candidateTxs : List Transaction)
    (difficulty : UInt32) (now : UInt64) (localTxs : List Transaction) :
    Atomic Failure.Returned (tryAdoptCandidate crates rt candidate balances candidateTxs
      difficulty now localTxs) := by
  refine readsOnly_get.bind_atomic fun current => (readsOnly_check _).bind_atomic fun wins => ?_
  cases wins with
  | false => exact (readsOnly_pure false).atomic
  | true =>
    refine (readsOnly_check _).bind_atomic fun replayed => ?_
    cases replayed with
    | none => exact (readsOnly_pure false).atomic
    | some r =>
      dsimp only
      split
      · refine (readsOnly_check _).bind_atomic fun merged => ?_
        exact (installCandidate_neverStops crates _ _ _ _ _).atomic
      · exact (readsOnly_pure false).atomic

/-! ### What an adoption does -/

/-- The node after a candidate is adopted. -/
structure Adopted (node : Blockchain) (candidate : List Block)
    (balances : Option (HashMap String Account)) (txs : List Transaction)
    (difficulty : UInt32) (now : UInt64) (node' : Blockchain) : Prop where
  wins : shouldAdopt node.chain candidate = .ok true
  rebuilt : rebuildFromChain crates rt node.toNodeConfig candidate now =
    .ok (node'.balances, node'.receipts)
  agree : balancesAgree balances node'.balances = true
  merged : mergeMempool crates node.chainId candidate node'.balances txs =
    .ok node'.mempool
  work : cumulativeWork candidate = .ok node'.totalWork
  config : node'.toNodeConfig = node.toNodeConfig
  chain : node'.chain = candidate
  difficulty : node'.difficulty = difficulty
  codes : node'.codes = codesFromChain crates candidate node.chainId

variable {node node' : Blockchain} {candidate : List Block}
  {balances : Option (HashMap String Account)} {candidateTxs localTxs : List Transaction}
  {difficulty : UInt32} {now : UInt64}

theorem replayCandidate_some {config : NodeConfig} {r : StateCache × List Receipt}
    (h : replayCandidate crates rt config candidate now = .ok (some r)) :
    rebuildFromChain crates rt config candidate now = .ok r := by
  unfold replayCandidate at h
  split at h
  · rename_i hr
    rw [hr]
    exact congrArg _ (Option.some.inj (Except.ok.inj h))
  · cases h
  · cases h

theorem tryAdoptCandidate_ok {adopted : Bool}
    (h : (tryAdoptCandidate crates rt candidate balances candidateTxs difficulty now
      localTxs).run node = .ok adopted node') :
    (adopted = false ∧ node' = node) ∨
      (adopted = true ∧ Adopted crates rt node candidate balances (candidateTxs ++ localTxs)
        difficulty now node') := by
  unfold tryAdoptCandidate at h
  rw [run_get_bind, run_check_bind_ok] at h
  obtain ⟨wins, hwins, h⟩ := h
  cases wins with
  | false =>
    cases h
    exact .inl ⟨rfl, rfl⟩
  | true =>
    rw [if_pos rfl, run_check_bind_ok] at h
    obtain ⟨replayed, hreplayed, h⟩ := h
    cases replayed with
    | none =>
      cases h
      exact .inl ⟨rfl, rfl⟩
    | some r =>
      dsimp only at h
      split at h
      · rename_i hagree
        rw [run_check_bind_ok] at h
        obtain ⟨merged, hmerged, h⟩ := h
        unfold installCandidate at h
        simp only [run_modify_bind, run_get_bind, run_check_bind_ok] at h
        obtain ⟨work, hwork, ⟨⟩⟩ := h
        exact .inr ⟨rfl, hwins, replayCandidate_some crates rt hreplayed, hagree, hmerged, hwork,
          rfl, rfl, rfl, rfl⟩
      · cases h
        exact .inl ⟨rfl, rfl⟩

/-- A candidate that wins and is valid is adopted. -/
theorem tryAdoptCandidate_adopts {cache : StateCache} {receipts : List Receipt} {merged : Mempool}
    {work : U256} (hwins : shouldAdopt node.chain candidate = .ok true)
    (hrebuilt : rebuildFromChain crates rt node.toNodeConfig candidate now = .ok (cache, receipts))
    (hagree : balancesAgree balances cache = true)
    (hmerged : mergeMempool crates node.chainId candidate cache
      (candidateTxs ++ localTxs) = .ok merged)
    (hwork : cumulativeWork candidate = .ok work) :
    (tryAdoptCandidate crates rt candidate balances candidateTxs difficulty now
      localTxs).run node = .ok true { node with
        chain := candidate
        balances := cache
        difficulty := difficulty
        totalWork := work
        mempool := merged
        receipts := receipts
        codes := codesFromChain crates candidate node.chainId } := by
  have hreplayed : replayCandidate crates rt node.toNodeConfig candidate now =
      .ok (some (cache, receipts)) := by
    rw [replayCandidate, hrebuilt]
  unfold tryAdoptCandidate
  rw [run_get_bind, run_check_bind_ok]
  refine ⟨true, hwins, ?_⟩
  rw [if_pos rfl, run_check_bind_ok]
  refine ⟨_, hreplayed, ?_⟩
  dsimp only
  rw [if_pos hagree, run_check_bind_ok]
  refine ⟨merged, hmerged, ?_⟩
  unfold installCandidate
  simp only [run_modify_bind, run_get_bind, run_check_bind_ok]
  exact ⟨work, hwork, rfl⟩

/-- **Rejected input leaves the node untouched.**  A block that is refused with an error,
and a candidate that is refused with an error or not adopted, change nothing; an adopted
candidate is strictly better than the chain it replaces, if that is not empty, and the
total work is that of the new chain. -/
theorem rejected_input_untouched (node : Blockchain) :
    (∀ block now e node',
      (commitBlock crates rt block now).run node = .error (.error e) node' →
      node' = node) ∧
    ∀ candidate balances candidateTxs difficulty now localTxs node',
      (∀ e, (tryAdoptCandidate crates rt candidate balances candidateTxs difficulty now
          localTxs).run node = .error (.error e) node' → node' = node) ∧
      ((tryAdoptCandidate crates rt candidate balances candidateTxs difficulty now
          localTxs).run node = .ok false node' → node' = node) ∧
      ((tryAdoptCandidate crates rt candidate balances candidateTxs difficulty now
          localTxs).run node = .ok true node' →
        node'.chain = candidate ∧ cumulativeWork node'.chain = .ok node'.totalWork ∧
        (node.chain ≠ [] → ∃ info old, chainInfo node'.chain = .ok (some info) ∧
          chainInfo node.chain = .ok (some old) ∧ isBetter info old = true ∧
          isBetter old info = false)) := by
  refine ⟨fun block now e node' h => commitBlock_atomic crates rt block now _ _ _ h ⟨e, rfl⟩, ?_⟩
  intro candidate balances candidateTxs difficulty now localTxs node'
  refine ⟨fun e h => ?_, fun h => ?_, fun h => ?_⟩
  · exact tryAdoptCandidate_atomic crates rt _ _ _ _ _ _ _ _ _ h ⟨e, rfl⟩
  · rcases tryAdoptCandidate_ok crates rt h with ⟨-, hsame⟩ | ⟨hadopted, -⟩
    · exact hsame
    · cases hadopted
  · rcases tryAdoptCandidate_ok crates rt h with ⟨hadopted, -⟩ | ⟨-, hadopted⟩
    · cases hadopted
    · obtain ⟨info, hinfo, hbetter⟩ := shouldAdopt_true hadopted.wins
      refine ⟨hadopted.chain, hadopted.chain ▸ hadopted.work, fun hne => ?_⟩
      obtain ⟨old, hold, hlt⟩ := hbetter hne
      exact ⟨info, old, hadopted.chain ▸ hinfo, hold, hlt, isBetter_asymm hlt⟩

end

/-- An adoption of the chain one block ahead. -/
def adoptAhead : EStateM Failure Blockchain Bool :=
  tryAdoptCandidate nonzeroCrates registryRuntime aheadReplay.done none [] 1 0 []

theorem adoptAhead_ok : ∃ node', adoptAhead.run regtestNode = .ok true node' := by
  have hcomplete : aheadReplay.Complete nonzeroCrates registryRuntime regtestConfig 0 :=
    complete_regtestChain clockInRange_zero (by decide)
  refine ⟨_, tryAdoptCandidate_adopts _ _ ?_ ((rebuildFromChain_ok _ _).mpr
    ⟨aheadReplay, hcomplete, rfl, rfl⟩) rfl rfl (cumulativeWork_of_isOk ?_)⟩
  · decide +kernel
  · decide

/-- Whether an operation returned an error. -/
def returnedError {σ α : Type} : EStateM.Result Failure σ α → Bool
  | .error (.error _) _ => true
  | _ => false

theorem returnedError_iff {σ α : Type} {x : EStateM.Result Failure σ α} :
    returnedError x = true ↔ ∃ e s, x = .error (.error e) s := by
  constructor
  · intro h
    match x, h with
    | .error (.error e) s, _ => exact ⟨e, s, rfl⟩
  · rintro ⟨e, s, rfl⟩
    rfl

/-- A refused block, a candidate that is too short and an adopted one. -/
theorem rejected_input_untouched_regtest :
    (∃ e node', (commitBlock nonzeroCrates registryRuntime regtestGenesis 0).run
      regtestNode = .error (.error e) node' ∧ node' = regtestNode) ∧
    (∃ node', (tryAdoptCandidate nonzeroCrates registryRuntime [] none [] 1 0 []).run
      regtestNode = .ok false node' ∧ node' = regtestNode) ∧
    ∃ node', adoptAhead.run regtestNode = .ok true node' ∧ node'.chain = aheadReplay.done := by
  have huntouched := rejected_input_untouched nonzeroCrates registryRuntime regtestNode
  refine ⟨?_, ?_, ?_⟩
  · have hrefused : returnedError ((commitBlock nonzeroCrates registryRuntime
        regtestGenesis 0).run regtestNode) = true := by decide +kernel
    obtain ⟨e, node', h⟩ := returnedError_iff.mp hrefused
    exact ⟨e, node', h, huntouched.1 _ _ _ _ h⟩
  · exact ⟨regtestNode, rfl, (huntouched.2 [] none [] 1 0 [] regtestNode).2.1 rfl⟩
  · obtain ⟨node', h⟩ := adoptAhead_ok
    exact ⟨node', h, ((huntouched.2 _ _ _ _ _ _ node').2.2 h).1⟩

end Strangecoin
