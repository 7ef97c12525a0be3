import Strangecoin.Replay
import Strangecoin.StorageRollback

/-! # The code registry and the deployed contracts

A contract is deployed by `apply_create` under the address derived from its
creator's account nonce, and its code is registered by `collect_block_codes`
under the address derived from the nonce the transaction carries.
-/
namespace Strangecoin

def Account.codeHash? : Account → Option Digest
  | .contract account => some account.codeHash
  | .eoa _ => none

namespace State

/-- The code hash of the contract at an address. -/
def codeHashAt (s : State) (a : String) : Option Digest := s.balances[a]?.bind Account.codeHash?

theorem codeHashAt_eq_some {s : State} {a : String} {hash : Digest} :
    s.codeHashAt a = some hash ↔
      ∃ contract, s.balances[a]? = some (.contract contract) ∧ contract.codeHash = hash := by
  unfold codeHashAt
  rw [Option.bind_eq_some_iff]
  constructor
  · rintro ⟨account, hget, hhash⟩
    cases account with
    | eoa account => exact absurd hhash nofun
    | contract contract => exact ⟨contract, hget, Option.some.inj hhash⟩
  · rintro ⟨contract, hget, rfl⟩
    exact ⟨_, hget, rfl⟩

/-- Every contract of `s'` is a contract of `s`, with the same code. -/
def CodesWithin (s s' : State) : Prop :=
  ∀ a hash, s'.codeHashAt a = some hash → s.codeHashAt a = some hash

theorem CodesWithin.trans {s t u : State} (h : s.CodesWithin t) (h' : t.CodesWithin u) :
    s.CodesWithin u :=
  fun a hash ha => h a hash (h' a hash ha)

section
variable {s s' : State} {a : String}

variable {account : Account}

theorem codeHashAt_setAccount {b : String} {hash : Digest}
    (h : (s.setAccount a account).codeHashAt b = some hash) :
    (b = a ∧ account.codeHash? = some hash) ∨ (b ≠ a ∧ s.codeHashAt b = some hash) := by
  unfold codeHashAt at h ⊢
  rw [get?_setAccount] at h
  by_cases hb : b = a
  · refine .inl ⟨hb, ?_⟩
    rw [if_pos hb] at h
    cases he : account.isEmpty <;> simp_all
  · rw [if_neg hb] at h
    exact .inr ⟨hb, h⟩

/-- An account written over one with the same code brings no code. -/
theorem codesWithin_setAccount (h : account.codeHash? = (s.account a).codeHash?) :
    s.CodesWithin (s.setAccount a account) := by
  intro b hash hb
  rcases codeHashAt_setAccount hb with ⟨rfl, hash'⟩ | ⟨-, hb⟩
  · rw [h] at hash'
    unfold State.account at hash'
    unfold codeHashAt
    cases hget : s.balances[b]? with
    | none => simp [hget, Account.default, Account.codeHash?] at hash'
    | some old => simpa [hget] using hash'
  · exact hb

theorem codesWithin_setBalance (x : UInt64) : s.CodesWithin (s.setBalance a x) := by
  rw [setBalance_eq]
  exact codesWithin_setAccount (by cases s.account a <;> rfl)

theorem codesWithin_setNonce (n : UInt64) : s.CodesWithin (s.setNonce a n) := by
  rw [setNonce_eq]
  exact codesWithin_setAccount (by cases s.account a <;> rfl)

theorem codesWithin_credit {x : UInt64} (h : s.credit a x = .ok s') : s.CodesWithin s' := by
  obtain ⟨b, -, rfl⟩ := credit_ok.mp h
  exact codesWithin_setBalance b

theorem codesWithin_debit {x : UInt64} (h : s.debit a x = .ok s') : s.CodesWithin s' := by
  obtain ⟨b, -, rfl⟩ := debit_ok.mp h
  exact codesWithin_setBalance b

theorem codesWithin_moveValue {t : ValueTransfer} (h : s.moveValue t = .ok s') :
    s.CodesWithin s' := by
  obtain ⟨m, hdebit, hcredit⟩ := moveValue_ok.mp h
  exact (codesWithin_debit hdebit).trans (codesWithin_credit hcredit)

theorem codesWithin_commitValueTransfers {txid : Digest} {trail : List ValueTransfer}
    (h : s.commitValueTransfers txid trail = .ok s') : s.CodesWithin s' := by
  rcases commitValueTransfers_ok.mp h with ⟨-, rfl⟩ | ⟨-, m, hrun, rfl⟩
  · exact fun _ _ h => h
  · have hmoved : s.CodesWithin m :=
      run_invariant (I := s.CodesWithin) (fun t v u ht hv => ht.trans (codesWithin_moveValue hv))
        (fun _ _ h => h) hrun
    exact hmoved

theorem codesWithin_setStorageRoot (root : Digest) : s.CodesWithin (s.setStorageRoot a root) := by
  intro b hash hb
  unfold codeHashAt at hb ⊢
  rw [getElem?_setStorageRoot] at hb
  split at hb
  · subst a
    cases hget : s.balances[b]? with
    | none => simp [hget] at hb
    | some account =>
      rw [hget] at hb
      cases account <;> exact hb
  · exact hb

theorem codesWithin_flushStorageWrites (blake3 : List UInt8 → Digest) (result : ExecutionResult)
    (txid : Digest) : s.CodesWithin (s.flushStorageWrites blake3 result txid) := by
  exact flushStorageWrites_invariant (I := s.CodesWithin)
    (fun _ _ _ root ht => ht.trans (codesWithin_setStorageRoot root)) (fun _ _ ht => ht)
    (fun _ _ h => h) blake3 result txid

end

end State

section
variable {V : Type} {crates : Crates} {exec : VmExecutor V} {chainId : UInt32} {block : Block}
  {s s' : State} {codes : CodeRegistry} {tx : Transaction}

theorem codesWithin_applyTransfer {tx : TransferTx} (h : applyTransfer s tx = .ok s') :
    s.CodesWithin s' := by
  obtain ⟨s₁, s₂, hdebit, hcredit, rfl⟩ := applyTransfer_ok.mp h
  exact (State.codesWithin_debit hdebit).trans
    ((State.codesWithin_credit hcredit).trans (State.codesWithin_setNonce _))

variable {create : CreateTx}

/-- A creation installs one contract, at the derived address. -/
theorem codeHashAt_installCreate {address a : String} {hash : Digest}
    (h : (installCreate crates s create address).codeHashAt a = some hash) :
    (a = address ∧ crates.blake3 create.initCode = hash) ∨
      (a ≠ address ∧ s.codeHashAt a = some hash) := by
  have hset := State.codesWithin_setNonce _ a hash h
  rcases State.codeHashAt_setAccount hset with ⟨ha, hcode⟩ | h
  · exact .inl ⟨ha, Option.some.inj hcode⟩
  · exact .inr h

/-- The contracts after a creation: those before it at other addresses, and the
one it deploys. -/
theorem TxEffect.create_codes {frame : Frame}
    (h : TxEffect crates chainId s (.create create) frame s') :
    ∃ address, crates.deriveContractAddress create.sender (s.getNonce create.sender) chainId =
        .ok address ∧
      ∀ a hash, s'.codeHashAt a = some hash →
        (a = address ∧ crates.blake3 create.initCode = hash) ∨
          (a ≠ address ∧ s.codeHashAt a = some hash) := by
  cases h with
  | createOk haddress _ _ _ hdebit hcommit =>
    refine ⟨_, haddress, fun a hash ha => codeHashAt_installCreate ?_⟩
    have hdebited := State.codesWithin_commitValueTransfers hcommit a hash ha
    have hflushed := State.codesWithin_debit hdebit a hash hdebited
    exact State.codesWithin_flushStorageWrites _ _ _ a hash hflushed
  | createFailed haddress _ _ _ =>
    -- the account is reset to the default one, which has no code
    refine ⟨_, haddress, fun a hash ha => ?_⟩
    rcases State.codeHashAt_setAccount ha with ⟨-, hcode⟩ | ⟨-, hinstalled⟩
    · exact absurd hcode nofun
    · exact codeHashAt_installCreate hinstalled

/-- Transfers and calls deploy nothing. -/
theorem TxEffect.codesWithin {frame : Frame} (h : TxEffect crates chainId s tx frame s')
    (htx : ∀ create, tx ≠ .create create) : s.CodesWithin s' := by
  cases h with
  | transfer _ happly => exact codesWithin_applyTransfer happly
  | createOk => exact absurd rfl (htx _)
  | createFailed => exact absurd rfl (htx _)
  | callPlain _ _ hcommit =>
    exact (State.codesWithin_setNonce _).trans (State.codesWithin_commitValueTransfers hcommit)
  | callOk _ _ _ hcommit =>
    exact (State.codesWithin_setNonce _).trans
      ((State.codesWithin_commitValueTransfers hcommit).trans
        (State.codesWithin_flushStorageWrites _ _ _))
  | callFailed => exact State.codesWithin_setNonce _

/-! ### The registry along a chain -/

variable (crates) in
/-- The registry has the code of every contract, under the contract's address. -/
def Registers (s : State) (codes : CodeRegistry) : Prop :=
  ∀ a hash, s.codeHashAt a = some hash → codes[a]?.map crates.blake3 = some hash

theorem Registers.within (h : Registers crates s codes) (hs : s.CodesWithin s') :
    Registers crates s' codes :=
  fun a hash ha => h a hash (hs a hash ha)

/-- A transaction is a creation only with the account nonce of its creator. -/
def CarriesAccountNonce (p : Progress V) (e : Transaction × Nat) : Prop :=
  match e.1 with
  | .create create => create.nonce = p.state.getNonce create.sender
  | _ => True

instance {p : Progress V} {e : Transaction × Nat} : Decidable (CarriesAccountNonce p e) := by
  unfold CarriesAccountNonce
  split <;> infer_instance

variable {p p' : Progress V}

/-- The transaction deploys at the address under which its code is registered. -/
theorem Registers.afterTx {e : Transaction × Nat} (h : Registers crates p.state codes)
    (hnonce : CarriesAccountNonce p e) (hstep : applyTx crates exec chainId block p e = .ok p') :
    Registers crates p'.state (collectTxCode crates chainId codes e.1) := by
  rcases applyTx_ok hstep with ⟨hcoinbase, rfl⟩ | ⟨-, _, -, -, -, heffect⟩
  · cases htx : e.1 with
    | transfer tx => exact h
    | create create => simp [htx, Transaction.isCoinbase] at hcoinbase
    | call call => exact h
  · cases htx : e.1 with
    | transfer tx => exact h.within (heffect.codesWithin (by simp [htx]))
    | call call => exact h.within (heffect.codesWithin (by simp [htx]))
    | create create =>
      rw [htx] at heffect
      obtain ⟨address, haddress, hcodes⟩ := heffect.create_codes
      unfold CarriesAccountNonce at hnonce
      rw [htx] at hnonce
      rw [← hnonce] at haddress
      intro a hash ha
      unfold collectTxCode
      simp only [haddress, HashMap.get?_insert]
      rcases hcodes a hash ha with ⟨rfl, hcode⟩ | ⟨hne, hold⟩
      · simp [hcode]
      · rw [if_neg hne]
        exact h a hash hold

variable {es : List (Transaction × Nat)}

theorem Registers.afterTxs (h : Registers crates p.state codes)
    (hnonce : EachStep (applyTx crates exec chainId block) CarriesAccountNonce p es)
    (hrun : es.foldlM (applyTx crates exec chainId block) p = .ok p') :
    Registers crates p'.state ((es.map Prod.fst).foldl (collectTxCode crates chainId) codes) := by
  induction es generalizing p codes with
  | nil =>
    obtain rfl := foldlM_nil_ok.mp hrun
    exact h
  | cons e es ih =>
    obtain ⟨q, hstep, hrest⟩ := foldlM_cons_ok.mp hrun
    exact ih (h.afterTx hnonce.1 hstep) (hnonce.2 q hstep) hrest

/-- A genesis block credits balances and registers no code. -/
theorem Registers.afterGenesis (h : Registers crates p.state codes)
    (hrun : es.foldlM (applyGenesisTx crates chainId block) p = .ok p') :
    Registers crates p'.state ((es.map Prod.fst).foldl (collectTxCode crates chainId) codes) := by
  induction es generalizing p codes with
  | nil =>
    obtain rfl := foldlM_nil_ok.mp hrun
    exact h
  | cons e es ih =>
    obtain ⟨q, hstep, hrest⟩ := foldlM_cons_ok.mp hrun
    obtain ⟨tx, i⟩ := e
    unfold applyGenesisTx at hstep
    obtain ⟨_, -, hstep⟩ := bind_eq_ok.mp hstep
    cases tx with
    | transfer tx =>
      obtain ⟨s₁, hcredit, ⟨⟩⟩ := bind_eq_ok.mp hstep
      have hcredit : p.state.credit tx.receiver tx.amount = .ok s₁ := hcredit
      exact ih (p := { p with state := s₁, receipts := _ })
        (h.within (State.codesWithin_credit hcredit)) hrest
    | create create => exact absurd hstep nofun
    | call call => exact absurd hstep nofun

variable (crates exec chainId) in
/-- Every creation of a block carries the nonce its creator's account has when
it is processed. -/
def DeploysAtOwnNonce (vm : Option V) (s : State) (block : Block) : Prop :=
  0 < block.index → AtEachTx crates exec chainId block s vm CarriesAccountNonce

theorem Registers.afterBlock {vm vm' : Option V} (h : Registers crates s codes)
    (hnonce : DeploysAtOwnNonce crates exec chainId vm s block)
    (happly : applyBlockInner crates exec s block chainId vm = .ok (s', vm')) :
    Registers crates s' (collectBlockCodes crates block chainId codes) := by
  have hcodes : (block.transactions.zipIdx.map Prod.fst).foldl (collectTxCode crates chainId) codes =
      collectBlockCodes crates block chainId codes := by
    rw [List.zipIdx_map_fst]
    rfl
  rw [← hcodes]
  by_cases hindex : block.index = 0
  · unfold Strangecoin.applyBlockInner at happly
    simp only [if_pos hindex] at happly
    obtain ⟨p, hrun, ⟨⟩⟩ := bind_eq_ok.mp happly
    have hp := Registers.afterGenesis (p := ⟨{ s with receipts := [] }, vm, []⟩) h hrun
    exact hp
  · have hpos : 0 < block.index := UInt64.pos_iff_ne_zero.mpr hindex
    obtain ⟨-, cb, i, s₁, p, hcb, hle, hcredit, hrun, ⟨⟩⟩ := (applyBlockInner_ok hpos).mp happly
    have hstart : Registers crates s₁ codes :=
      Registers.within (s := { s with receipts := [] }) h (State.codesWithin_credit hcredit)
    have hcoinbase : applyCoinbase crates ⟨{ s with receipts := [] }, vm, []⟩ block chainId =
        .ok ⟨s₁, vm, [transferReceipt crates (.transfer cb) block (UInt32.ofNat i) []]⟩ :=
      applyCoinbase_ok.mpr ⟨cb, i, s₁, hcb, hle, hcredit, rfl⟩
    have hp := Registers.afterTxs hstart (hnonce hpos _ hcoinbase) hrun
    exact hp

end

section
variable {V : Type} (crates : Crates) (rt : Runtime V) (config : NodeConfig) (now : UInt64)

/-- The creations of the next block carry the account nonces of their creators. -/
def NextDeploysAtOwnNonce (r : Replay) (block : Block) : Prop :=
  DeploysAtOwnNonce crates rt.exec config.chainId (some (rt.seed r.codes)) r.state block

theorem registers_replay {chain : List Block} {r : Replay}
    (hnonce : EachStep (replayBlock crates rt config now) (NextDeploysAtOwnNonce crates rt config)
      Replay.start chain)
    (hrun : chain.foldlM (replayBlock crates rt config now) Replay.start = .ok r) :
    Registers crates r.state r.codes := by
  refine run_invariant_each (I := fun r => Registers crates r.state r.codes) ?_ ?_ hnonce hrun
  · intro r block r' h hblock hstep
    obtain ⟨state, hvalid, rfl⟩ := (replayBlock_ok crates rt).mp hstep
    obtain ⟨vm, happly⟩ := hvalid.applyBlockInner
    exact h.afterBlock hblock happly
  · intro a hash ha
    exact absurd ha nofun

/-- On an accepted chain whose creations all carry the account nonces of their
creators, the registry entry of every contract is the contract's code. -/
theorem registry_has_contract_codes {chain : List Block} {cache : StateCache}
    {receipts : List Receipt}
    (hnonce : EachStep (replayBlock crates rt config now) (NextDeploysAtOwnNonce crates rt config)
      Replay.start chain)
    (hrebuilt : rebuildFromChain crates rt config chain now = .ok (cache, receipts))
    {address : String} {contract : ContractAccount}
    (hcontract : cache.accounts[address]? = some (.contract contract)) :
    ∃ code, (codesFromChain crates chain config.chainId)[address]? = some code ∧
      crates.blake3 code = contract.codeHash := by
  obtain ⟨r, hrun, rfl, -⟩ := (rebuildFromChain_ok crates rt).mp hrebuilt
  have hregisters := registers_replay crates rt config now hnonce hrun
  have hcode := hregisters address _ (State.codeHashAt_eq_some.mpr ⟨contract, hcontract, rfl⟩)
  rw [(replay_done crates rt hrun).2] at hcode
  obtain ⟨code, hget, hcode⟩ := Option.map_eq_some_iff.mp hcode
  exact ⟨code, hget, hcode⟩

end

/-! ### Two deployments -/

/-- The address of the key 1 on regtest. -/
def deployer : String := "rsc1qfumuen7l8wthtz45p3ftn58pvrs9xlumvkuu2xet8egzkcklqtesjnqdg5"

/-- The creation of a contract from the empty WebAssembly module. -/
def deployment (nonce : UInt64) (signature : List UInt8) : Transaction :=
  .create ⟨deployer, [0, 0x61, 0x73, 0x6d, 1, 0, 0, 0], [], [], 0, 0, 0, nonce, CHAIN_ID_REGTEST,
    signature⟩

/-- As a wallet signs the first transaction of an account. -/
def deploymentAtOne : Transaction :=
  deployment 1
    [80, 253, 241, 123, 116, 188, 16, 222, 118, 197, 167, 135, 65, 51, 110, 168, 214, 231,
     51, 154, 39, 27, 246, 161, 176, 184, 107, 93, 109, 22, 173, 39, 108, 163, 137, 170,
     232, 233, 136, 205, 158, 88, 25, 122, 154, 162, 202, 142, 135, 204, 37, 95, 21, 19, 83,
     0, 88, 90, 139, 129, 126, 83, 163, 63, 1]

def deploymentAtZero : Transaction :=
  deployment 0
    [122, 203, 197, 60, 117, 19, 57, 43, 39, 23, 68, 146, 179, 138, 32, 74, 235, 57, 34,
     246, 150, 34, 207, 195, 26, 165, 82, 157, 219, 168, 104, 56, 117, 78, 63, 229, 122,
     119, 185, 244, 117, 138, 42, 123, 50, 21, 76, 230, 23, 103, 68, 179, 136, 179, 35, 101,
     33, 248, 227, 152, 222, 144, 173, 71, 1]

def deployStep (tx : Transaction) : UInt64 × List Transaction := (1, [unpaid "miner", tx])

/-- The address the contract gets in either case. -/
def deployedAt : String := "rsc1aewaz4gpxeaaftq5wdn393cjjtj9dun6grlzkeqm3mt40dlzrrqq7rkfdk"

/-- The contract is in the state of an accepted chain and its code is not in the
registry of the chain. -/
theorem registry_misses_deployed_contract :
    ∃ cache receipts contract,
      rebuildFromChain nonzeroCrates registryRuntime regtestConfig
        (regtestChain [deployStep deploymentAtOne]).done 0 = .ok (cache, receipts) ∧
      cache.accounts[deployedAt]? = some (.contract contract) ∧
      (codesFromChain nonzeroCrates (regtestChain [deployStep deploymentAtOne]).done
        regtestConfig.chainId)[deployedAt]? = none := by
  have hcomplete := @complete_regtestChain 0 [deployStep deploymentAtOne] clockInRange_zero
    (by decide +kernel)
  have hdeployed : ((regtestChain [deployStep deploymentAtOne]).state.codeHashAt
      deployedAt).isSome = true := by
    rw [regtestChain_eq]
    decide +kernel
  obtain ⟨hash, hhash⟩ := Option.isSome_iff_exists.mp hdeployed
  obtain ⟨contract, hcontract, -⟩ := State.codeHashAt_eq_some.mp hhash
  refine ⟨_, _, contract, (rebuildFromChain_ok _ _).mpr ⟨_, hcomplete, rfl, rfl⟩, hcontract, ?_⟩
  have hcodes : codesFromChain nonzeroCrates (regtestChain [deployStep deploymentAtOne]).done
      regtestConfig.chainId = (regtestChain [deployStep deploymentAtOne]).codes :=
    (replay_done _ _ hcomplete).2.symm
  rw [hcodes, regtestChain_eq]
  decide +kernel

/-- The deployment that carries the account nonce of its sender. -/
def deployedReplay : Replay := regtestChain [deployStep deploymentAtZero]

theorem deploys_at_own_nonce :
    EachStep (replayBlock nonzeroCrates registryRuntime regtestConfig 0)
      (NextDeploysAtOwnNonce nonzeroCrates registryRuntime regtestConfig) Replay.start
      deployedReplay.done := by
  have hgenesis := complete_regtestReplay clockInRange_zero
  refine ⟨fun hpos => absurd hpos (by decide), fun r hr => ⟨fun _ => ?_, fun _ _ => trivial⟩⟩
  have hr : regtestReplay = r := by
    obtain ⟨r', hr', hnil⟩ := foldlM_cons_ok.mp hgenesis
    rw [← foldlM_nil_ok.mp hnil]
    exact Except.ok.inj (hr'.symm.trans hr)
  subst hr
  have hbody : SameBody (minedBlock nonzeroCrates registryRuntime regtestConfig regtestReplay
      (deployStep deploymentAtZero).1 (deployStep deploymentAtZero).2)
      (mineTemplate regtestReplay (deployStep deploymentAtZero).1
        (deployStep deploymentAtZero).2) := ⟨rfl, rfl, rfl⟩
  refine (hbody.atEachTx _ headerBlind_registryVm _ _ _ _).mpr ?_
  rw [nonzeroCrates_eq, regtestReplay_eq]
  decide +kernel

theorem registry_has_contract_codes_deployed :
    ∃ contract code, deployedReplay.state.balances[deployedAt]? = some (.contract contract) ∧
      (codesFromChain nonzeroCrates deployedReplay.done regtestConfig.chainId)[deployedAt]? =
        some code ∧
      nonzeroCrates.blake3 code = contract.codeHash := by
  have hcomplete := @complete_regtestChain 0 [deployStep deploymentAtZero] clockInRange_zero
    (by decide +kernel)
  have hdeployed : (deployedReplay.state.codeHashAt deployedAt).isSome = true := by
    rw [deployedReplay, regtestChain_eq]
    decide +kernel
  obtain ⟨hash, hhash⟩ := Option.isSome_iff_exists.mp hdeployed
  obtain ⟨contract, hcontract, -⟩ := State.codeHashAt_eq_some.mp hhash
  obtain ⟨code, hcode, hhash⟩ := registry_has_contract_codes nonzeroCrates registryRuntime
    regtestConfig 0 deploys_at_own_nonce ((rebuildFromChain_ok _ _).mpr ⟨_, hcomplete, rfl, rfl⟩)
    hcontract
  exact ⟨contract, code, hcontract, hcode, hhash⟩

end Strangecoin
