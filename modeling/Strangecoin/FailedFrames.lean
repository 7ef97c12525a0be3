import Strangecoin.ApplySteps
import Strangecoin.ReferenceCrates

/-! # Transactions that do not succeed

A failed frame consumes the sender's nonce.  A failed call does nothing else.  A
failed creation has installed the contract before its constructor ran, and takes
that back by removing whatever is at the derived address.
-/
namespace Strangecoin

/-- The accounts and the storage are the same, except that the sender's nonce is one
higher. -/
structure OnlyBurnsNonce (s : State) (sender : String) (s' : State) : Prop where
  nonce : (s'.getNonce sender).toNat = (s.getNonce sender).toNat + 1
  account : s'.balances[sender]? = some ((s.account sender).setNonce (s.getNonce sender + 1))
  others : ∀ a, a ≠ sender → s'.balances[a]? = s.balances[a]?
  storage : s'.contractStorage = s.contractStorage

theorem toNat_succ {n : UInt64} (h : n.toNat + 1 < 2 ^ 64) : (n + 1).toNat = n.toNat + 1 := by
  rw [UInt64.toNat_add, UInt64.toNat_one, Nat.mod_eq_of_lt h]

/-- An account whose nonce has just been raised is not empty, unless the nonce
wrapped. -/
theorem isEmpty_raised {s : State} {a : String} (h : (s.getNonce a).toNat + 1 < 2 ^ 64)
    (account : Account) : (account.setNonce (s.getNonce a + 1)).isEmpty = false := by
  rw [← Bool.not_eq_true]
  intro hempty
  have hzero := congrArg UInt64.toNat (Account.nonce_of_isEmpty hempty)
  rw [Account.nonce_setNonce, toNat_succ h, UInt64.toNat_zero] at hzero
  omega

/-- Raising a nonce does nothing else, unless it wraps. -/
theorem onlyBurnsNonce_setNonce {s : State} {a : String} :
    OnlyBurnsNonce s a (s.setNonce a (s.getNonce a + 1)) ↔ (s.getNonce a).toNat + 1 < 2 ^ 64 := by
  constructor
  · intro h
    rw [← h.nonce]
    exact UInt64.toNat_lt _
  · intro hnonce
    refine ⟨?_, ?_, fun b hb => ?_, ?_⟩
    · rw [State.getNonce_setNonce, if_pos rfl, toNat_succ hnonce]
    · rw [State.setNonce_eq, State.get?_setAccount, if_pos rfl, isEmpty_raised hnonce]
      rfl
    · rw [State.setNonce_eq, State.get?_setAccount, if_neg hb]
    · rw [State.setNonce_eq, State.contractStorage_setAccount]

theorem get?_createFailed (crates : Crates) (s : State) (create : CreateTx) (address a : String) :
    ((installCreate crates s create address).setAccount address Account.default).balances[a]? =
      if a = address then none
      else (s.setNonce create.sender (s.getNonce create.sender + 1)).balances[a]? := by
  rw [State.get?_setAccount]
  by_cases ha : a = address
  · rw [if_pos ha, if_pos ha]
    rfl
  · rw [if_neg ha, if_neg ha, installCreate, State.setNonce_eq, State.setNonce_eq,
      State.get?_setAccount, State.get?_setAccount _ create.sender]
    by_cases hs : a = create.sender
    · have hne : create.sender ≠ address := hs ▸ ha
      simp only [if_pos hs, State.account_setAccount, if_neg hne]
    · rw [if_neg hs, if_neg hs, State.get?_setAccount, if_neg ha]

theorem onlyBurnsNonce_createFailed {crates : Crates} {s : State} {create : CreateTx}
    {address : String} :
    OnlyBurnsNonce s create.sender
        ((installCreate crates s create address).setAccount address Account.default) ↔
      (s.getNonce create.sender).toNat + 1 < 2 ^ 64 ∧ address ≠ create.sender ∧
        s.balances[address]? = none := by
  have hget := get?_createFailed crates s create address
  constructor
  · intro h
    have haddress : address ≠ create.sender := by
      intro heq
      have haccount := h.account
      rw [hget, if_pos heq.symm] at haccount
      exact nomatch haccount
    have hvacant := h.others address haddress
    rw [hget, if_pos rfl] at hvacant
    exact ⟨h.nonce ▸ UInt64.toNat_lt _, haddress, hvacant.symm⟩
  · rintro ⟨hnonce, haddress, hvacant⟩
    have hraised := (@onlyBurnsNonce_setNonce s create.sender).mpr hnonce
    have hsame : ((installCreate crates s create address).setAccount address
        Account.default).balances =
        (s.setNonce create.sender (s.getNonce create.sender + 1)).balances := by
      refine HashMap.ext_get? fun a => ?_
      rw [hget]
      by_cases ha : a = address
      · rw [if_pos ha, ha, hraised.others address haddress, hvacant]
      · rw [if_neg ha]
    refine ⟨?_, ?_, ?_, ?_⟩
    · rw [State.getNonce, hsame]
      exact hraised.nonce
    · rw [hsame]
      exact hraised.account
    · rw [hsame]
      exact hraised.others
    · simp [installCreate, State.setNonce_eq]

section
variable {V : Type} (crates : Crates) (exec : VmExecutor V)

/-- **What a transaction that does not succeed leaves behind.**  For every state,
executor, creation and call that is processed with a receipt other than success:
nothing but the sender's nonce changes exactly when that nonce does not wrap and,
for a creation, no account is at the derived address, which is not the sender's
own. -/
theorem failed_burns_nonce_iff (s : State) (vm : V) (block : Block) (txIndex : UInt32)
    (chainId : UInt32) :
    (∀ create s' vm' receipt,
      applyCreate crates exec s create chainId vm block txIndex = .ok (s', vm', receipt) →
      receipt.status ≠ .success →
      (OnlyBurnsNonce s create.sender s' ↔
        (s.getNonce create.sender).toNat + 1 < 2 ^ 64 ∧
        ∃ address, crates.deriveContractAddress create.sender (s.getNonce create.sender) chainId =
            .ok address ∧ address ≠ create.sender ∧ s.balances[address]? = none)) ∧
    ∀ call s' receipt, applyCall crates exec s block call vm txIndex = .ok (s', receipt) →
      receipt.status ≠ .success →
      (OnlyBurnsNonce s call.sender s' ↔ (s.getNonce call.sender).toNat + 1 < 2 ^ 64) := by
  constructor
  · intro create s' vm' receipt h hstatus
    obtain ⟨-, hreports, heffect⟩ := @applyCreate_effect V crates exec chainId block create txIndex
      receipt ⟨s, some vm, []⟩ s' vm vm' rfl h
    have hfailed : ¬ frameSucceeds _ = true := fun hok => hstatus (hreports.mpr hok)
    generalize frameOf crates exec chainId block ⟨s, some vm, []⟩ (.create create) = frame
      at heffect hfailed
    cases heffect with
    | createOk _ _ _ hok => exact absurd (by simpa [frameSucceeds] using hok) hfailed
    | createFailed haddress _ _ _ =>
      rw [onlyBurnsNonce_createFailed]
      refine and_congr_right fun _ => ⟨fun hvacant => ⟨_, haddress, hvacant⟩, ?_⟩
      rintro ⟨address, haddress', hvacant⟩
      rw [haddress] at haddress'
      rwa [← Except.ok.inj haddress'] at hvacant
  · intro call s' receipt h hstatus
    obtain ⟨-, hreports, heffect⟩ := @applyCall_effect V crates exec chainId block txIndex receipt
      ⟨s, some vm, []⟩ s' call vm rfl h
    have hfailed : ¬ frameSucceeds _ = true := fun hok => hstatus (hreports.mpr hok)
    generalize frameOf crates exec chainId block ⟨s, some vm, []⟩ (.call call) = frame
      at heffect hfailed
    cases heffect with
    | callPlain => exact absurd rfl hfailed
    | callOk _ _ hok => exact absurd (by simpa [frameSucceeds] using hok) hfailed
    | callFailed => exact onlyBurnsNonce_setNonce

end

/-- The first deployment of "alice". -/
def failingDeploy : CreateTx := ⟨"alice", [0], [], [], 0, 0, 0, 1, CHAIN_ID_REGTEST, []⟩

/-- **A failed deployment deletes the account at its address**, here one with 7 coins. -/
theorem failed_deploy_deletes_account :
    ¬ ∀ (s : State) (create : CreateTx) (block : Block) (s' : State) (receipt : Receipt),
      applyCreate referenceCrates exhaustedVm s create CHAIN_ID_REGTEST () block 1 =
        .ok (s', (), receipt) →
      receipt.status ≠ .success → OnlyBurnsNonce s create.sender s' := by
  intro h
  have hrun : (applyCreate referenceCrates exhaustedVm (.funded [("alice", 10), (firstContract, 7)])
      failingDeploy CHAIN_ID_REGTEST () (.ofTransactions 1 []) 1).map
        (fun r => (r.1.balances[firstContract]?, r.2.2.status)) = .ok (none, .outOfGas) := by
    rw [referenceCrates_eq]
    decide +kernel
  obtain ⟨⟨s', ⟨⟩, receipt⟩, hr, hres⟩ := map_eq_ok.mp hrun
  obtain ⟨hgone, hstatus⟩ := Prod.mk.inj hres
  have hburns := h _ _ _ s' receipt hr (by rw [hstatus]; decide)
  have hkept := hburns.others firstContract (by decide)
  rw [hgone] at hkept
  revert hkept
  decide

/-- At a free address it only burns the nonce. -/
theorem failed_deploy_burns_nonce :
    ∃ (s' : State) (receipt : Receipt),
      applyCreate referenceCrates exhaustedVm (.funded [("alice", 10)]) failingDeploy
        CHAIN_ID_REGTEST () (.ofTransactions 1 []) 1 = .ok (s', (), receipt) ∧
      receipt.status ≠ .success ∧
      OnlyBurnsNonce (.funded [("alice", 10)]) failingDeploy.sender s' := by
  have hrun : (applyCreate referenceCrates exhaustedVm (.funded [("alice", 10)])
      failingDeploy CHAIN_ID_REGTEST () (.ofTransactions 1 []) 1).map (fun r => r.2.2.status) =
        .ok .outOfGas := by
    rw [referenceCrates_eq]
    decide +kernel
  obtain ⟨⟨s', ⟨⟩, receipt⟩, hr, hstatus⟩ := map_eq_ok.mp hrun
  have hfailed : receipt.status ≠ .success := by
    change receipt.status = .outOfGas at hstatus
    rw [hstatus]
    decide
  refine ⟨s', receipt, hr, hfailed, ((failed_burns_nonce_iff referenceCrates exhaustedVm
    (.funded [("alice", 10)]) () (.ofTransactions 1 []) 1 CHAIN_ID_REGTEST).1 failingDeploy s' ()
      receipt hr hfailed).mpr ⟨by decide, firstContract, ?_, by decide, by decide⟩⟩
  rw [referenceCrates_eq]
  decide +kernel

end Strangecoin
