import Strangecoin.ApplySteps
import Strangecoin.ReferenceCrates

/-! # Supply conservation

Transfers, calls and trails move coins by a checked debit and a checked credit of
the same amount, storage writes do not touch balances, and a creation credits the
endowment up front and debits it when the constructor succeeds.  But it installs
the contract account over whatever externally owned account is at the derived
address (only a contract there is refused), and a failed deployment then removes
that entry: in both cases the coins that were there are gone.
-/
namespace Strangecoin
open State
namespace State

/-! ### What each operation does to the supply -/

theorem exactSupply_credit {s s' : State} {a : String} {x : UInt64} (h : s.credit a x = .ok s') :
    s'.exactSupply = s.exactSupply + x.toNat := by
  obtain ⟨b, hb, rfl⟩ := credit_ok.mp h
  have := exactSupply_setBalance s a b
  omega

theorem exactSupply_debit {s s' : State} {a : String} {x : UInt64} (h : s.debit a x = .ok s') :
    s'.exactSupply + x.toNat = s.exactSupply := by
  obtain ⟨b, hb, rfl⟩ := debit_ok.mp h
  have := exactSupply_setBalance s a b
  omega

theorem exactSupply_moveValue {s s' : State} {t : ValueTransfer} (h : s.moveValue t = .ok s') :
    s'.exactSupply = s.exactSupply := by
  obtain ⟨m, hdebit, hcredit⟩ := moveValue_ok.mp h
  have hd := exactSupply_debit hdebit
  have hc := exactSupply_credit hcredit
  omega

theorem exactSupply_commitValueTransfers {s s' : State} {txid : Digest}
    {trail : List ValueTransfer} (h : s.commitValueTransfers txid trail = .ok s') :
    s'.exactSupply = s.exactSupply := by
  rcases commitValueTransfers_ok.mp h with ⟨-, rfl⟩ | ⟨-, m, hrun, rfl⟩
  · rfl
  · exact run_invariant (I := fun m => m.exactSupply = s.exactSupply)
      (fun m t m' hm hstep => (exactSupply_moveValue hstep).trans hm) rfl hrun

theorem exactSupply_setStorageRoot (s : State) (a : String) (root : Digest) :
    (s.setStorageRoot a root).exactSupply = s.exactSupply := by
  unfold setStorageRoot
  split
  · rename_i account hget
    have h := HashMap.weight_insert (fun a : Account => a.balance.toNat) s.balances a
      (.contract { account with storageRoot := root })
    simp only [HashMap.weightAt, hget, Option.elim_some, Account.balance] at h
    unfold exactSupply
    exact Nat.add_right_cancel h
  · rfl

theorem exactSupply_flushStorageWrites (blake3 : List UInt8 → Digest) (s : State)
    (result : ExecutionResult) (txid : Digest) :
    (s.flushStorageWrites blake3 result txid).exactSupply = s.exactSupply :=
  flushStorageWrites_invariant (I := fun t => t.exactSupply = s.exactSupply)
    (fun _ _ a root ht => (exactSupply_setStorageRoot _ a root).trans ht)
    (fun _ _ ht => ht) rfl blake3 result txid

end State

/-! ### What each transaction does to the supply -/

section
variable {crates : Crates} {chainId : UInt32}

theorem exactSupply_installCreate (s : State) (create : CreateTx) (address : String) :
    (installCreate crates s create address).exactSupply + (s.getBalance address).toNat =
      s.exactSupply + create.endowment.toNat := by
  unfold installCreate
  rw [exactSupply_setNonce]
  exact exactSupply_setAccount s address (deployedAccount crates create)

/-- The coins a transaction destroys: those at the address of a creation. -/
def coinsAtDeployAddress (crates : Crates) (chainId : UInt32) (s : State) : Transaction → Nat
  | .create create =>
    match crates.deriveContractAddress create.sender (s.getNonce create.sender) chainId with
    | .ok address => (s.getBalance address).toNat
    | .error _ => 0
  | _ => 0

/-- **A creation destroys the coins at its address**, whether it succeeds or
not; nothing else changes the supply. -/
theorem exactSupply_effect {s s' : State} {tx : Transaction} {frame : Frame}
    (h : TxEffect crates chainId s tx frame s') :
    s'.exactSupply + coinsAtDeployAddress crates chainId s tx = s.exactSupply := by
  cases h with
  | transfer hflag happly =>
    obtain ⟨s₁, s₂, hdebit, hcredit, rfl⟩ := applyTransfer_ok.mp happly
    have hd := exactSupply_debit hdebit
    have hc := exactSupply_credit hcredit
    rw [exactSupply_setNonce]
    simp only [coinsAtDeployAddress]
    omega
  | createOk haddress hvacant hfunds hstatus hdebit hcommit =>
    rename_i s₁ create address result
    have hinstall := @exactSupply_installCreate crates s create address
    have hd := exactSupply_debit hdebit
    rw [exactSupply_flushStorageWrites] at hd
    have hc := exactSupply_commitValueTransfers hcommit
    simp only [coinsAtDeployAddress, haddress]
    omega
  | createFailed haddress hvacant hfunds hfailed =>
    rename_i create address outcome
    have hinstall := @exactSupply_installCreate crates s create address
    have hremove := exactSupply_setAccount (installCreate crates s create address) address
      Account.default
    have hbalance : (installCreate crates s create address).getBalance address = create.endowment := by
      unfold installCreate
      rw [getBalance_setNonce, getBalance_setAccount, if_pos rfl]
      rfl
    rw [hbalance] at hremove
    simp only [coinsAtDeployAddress, haddress, Account.balance_default] at hremove ⊢
    simp only [UInt64.toNat_zero] at hremove
    omega
  | callPlain hfunds hplain hcommit =>
    have hc := exactSupply_commitValueTransfers hcommit
    simp only [coinsAtDeployAddress, enterCall, exactSupply_setNonce] at hc ⊢
    omega
  | callOk hfunds hcontract hstatus hcommit =>
    have hc := exactSupply_commitValueTransfers hcommit
    rw [exactSupply_flushStorageWrites]
    simp only [coinsAtDeployAddress, enterCall, exactSupply_setNonce] at hc ⊢
    omega
  | callFailed hfunds hcontract hfailed =>
    simp only [coinsAtDeployAddress, enterCall, exactSupply_setNonce]
    omega

end

/-! ### What a block does to the supply -/

section
variable {V : Type} {crates : Crates} {exec : VmExecutor V} {chainId : UInt32} {block : Block}

variable (crates chainId) in
/-- A creation that is processed finds no coins at the address it deploys to. -/
def NoCoinsAtDeploy (p : Progress V) (e : Transaction × Nat) : Prop :=
  coinsAtDeployAddress crates chainId p.state e.1 = 0

theorem exactSupply_applyTx {p p' : Progress V} {e : Transaction × Nat}
    (h : applyTx crates exec chainId block p e = .ok p') :
    p'.state.exactSupply + coinsAtDeployAddress crates chainId p.state e.1 =
      p.state.exactSupply := by
  rcases applyTx_ok h with ⟨hcb, rfl⟩ | ⟨-, receipt, -, -, -, heffect⟩
  · -- a coinbase is passed over, and only a transfer can be one
    obtain ⟨tx, i⟩ := e
    cases tx with
    | transfer tx => rfl
    | create create => cases hcb
    | call call => cases hcb
  · exact exactSupply_effect heffect

/-- The transactions of a block destroy some coins, and none exactly when every
creation finds its address without coins. -/
theorem exactSupply_run {p p' : Progress V} {es : List (Transaction × Nat)}
    (h : es.foldlM (applyTx crates exec chainId block) p = .ok p') :
    ∃ lost, p'.state.exactSupply + lost = p.state.exactSupply ∧
      (lost = 0 ↔ EachStep (applyTx crates exec chainId block) (NoCoinsAtDeploy crates chainId)
        p es) := by
  induction es generalizing p with
  | nil =>
    obtain rfl := foldlM_nil_ok.mp h
    exact ⟨0, rfl, by simp⟩
  | cons e es ih =>
    obtain ⟨m, hstep, hrest⟩ := foldlM_cons_ok.mp h
    obtain ⟨lost, hsum, hiff⟩ := ih hrest
    have hone := exactSupply_applyTx hstep
    refine ⟨lost + coinsAtDeployAddress crates chainId p.state e.1, by omega, ?_⟩
    rw [eachStep_cons hstep, ← hiff, NoCoinsAtDeploy]
    omega

/-- The amount of the coinbase that is credited. -/
def coinbaseAmount (block : Block) : UInt64 :=
  match coinbaseOf block with
  | some (.transfer tx, _) => tx.amount
  | _ => 0

/-- **The supply grows by the credited coinbase exactly when no creation finds
coins at the address it deploys to.** -/
theorem supply_conserved_iff (crates : Crates) (exec : VmExecutor V) (s : State) (block : Block)
    (chainId : UInt32) (vm : V) (r : State × V) (hindex : 0 < block.index)
    (hok : applyBlockWithVm crates exec s block chainId vm = .ok r) :
    r.1.exactSupply = s.exactSupply + (coinbaseAmount block).toNat ↔
      AtEachTx crates exec chainId block s (some vm) (NoCoinsAtDeploy crates chainId) := by
  obtain ⟨q, hq, hr⟩ := bind_eq_ok.mp hok
  obtain rfl := Except.ok.inj hr
  obtain ⟨-, cb, i, s₁, p, hcb, hle, hcredit, hrun, rfl⟩ := (applyBlockInner_ok hindex).mp hq
  have hsupply := exactSupply_credit hcredit
  obtain ⟨lost, hsum, hiff⟩ := exactSupply_run hrun
  have hstart : ∀ q, applyCoinbase crates ⟨{ s with receipts := [] }, some vm, []⟩ block chainId =
      .ok q ↔ q = ⟨s₁, some vm, [transferReceipt crates (.transfer cb) block (UInt32.ofNat i) []]⟩ := by
    have h : applyCoinbase crates ⟨{ s with receipts := [] }, some vm, []⟩ block chainId =
        .ok ⟨s₁, some vm, [transferReceipt crates (.transfer cb) block (UInt32.ofNat i) []]⟩ :=
      applyCoinbase_ok.mpr ⟨cb, i, s₁, hcb, hle, hcredit, rfl⟩
    intro q
    rw [h]
    exact ⟨fun h => (Except.ok.inj h).symm, fun h => congrArg _ h.symm⟩
  have hamount : coinbaseAmount block = cb.amount := by
    unfold coinbaseAmount
    rw [hcb]
  have hs₁ : s₁.exactSupply = s.exactSupply + cb.amount.toNat := hsupply
  have hp : p.state.exactSupply + lost = s₁.exactSupply := hsum
  have hr : exactSupply { p.state with receipts := p.receipts } = p.state.exactSupply := rfl
  unfold AtEachTx
  simp only [hstart, forall_eq]
  rw [← hiff, hamount, hr]
  omega

end

/-- A state in which "alice" has coins and someone has already paid to the address
of the contract "alice" will deploy first. -/
def prepaidDeploy : State :=
  .funded [("alice", 10), (firstContract, 7)]

def deployBlock : Block :=
  .ofTransactions 1 [.transfer (.reward CHAIN_ID_REGTEST "miner" 0), .deployment "alice" 4 1]

/-- **A successful creation destroys coins** that were at its address. -/
theorem supply_not_conserved :
    ¬ ∀ (s : State) (block : Block) (r : State × Unit), 0 < block.index →
      applyBlockWithVm referenceCrates payableVm s block CHAIN_ID_REGTEST () = .ok r →
      r.1.exactSupply = s.exactSupply + (coinbaseAmount block).toNat := by
  intro h
  have hrun : Except.map (fun r => r.1.exactSupply)
      (applyBlockWithVm referenceCrates payableVm prepaidDeploy deployBlock CHAIN_ID_REGTEST ()) =
        .ok 10 := by
    rw [referenceCrates_eq]
    decide +kernel
  obtain ⟨r, hr, hsupply⟩ := map_eq_ok.mp hrun
  have := h prepaidDeploy deployBlock r (by decide) hr
  rw [hsupply] at this
  revert this
  decide

/-- The same deployment at a free address keeps the supply. -/
theorem supply_conserved_deploy :
    ∃ (s : State) (r : State × Unit),
      applyBlockWithVm referenceCrates payableVm s deployBlock CHAIN_ID_REGTEST () = .ok r ∧
      r.1.exactSupply = s.exactSupply ∧
      AtEachTx referenceCrates payableVm CHAIN_ID_REGTEST deployBlock s (some ())
        (NoCoinsAtDeploy referenceCrates CHAIN_ID_REGTEST) := by
  let s : State := .funded [("alice", 10)]
  have hrun : Except.map (fun r => r.1.exactSupply)
      (applyBlockWithVm referenceCrates payableVm s deployBlock CHAIN_ID_REGTEST ()) =
        .ok s.exactSupply := by
    rw [referenceCrates_eq]
    decide +kernel
  obtain ⟨r, hr, hsupply⟩ := map_eq_ok.mp hrun
  refine ⟨s, r, hr, hsupply, ?_⟩
  apply (supply_conserved_iff referenceCrates payableVm s deployBlock CHAIN_ID_REGTEST () r (by decide)
    hr).mp
  have hreward : (coinbaseAmount deployBlock).toNat = 0 := by decide
  rw [hsupply, hreward, Nat.add_zero]

end Strangecoin
