import Strangecoin.Ledger

/-! # What a step of a block can do

Every successful operation of the state transition is inverted here once.  A
transaction that is processed has one of six effects (`TxEffect`), and what holds of a
block is derived from these effects.
-/
namespace Strangecoin
variable {s s' : State}

namespace State

/-! ### Operations -/

theorem credit_ok {a : String} {x : UInt64} :
    s.credit a x = .ok s' ↔
      ∃ b, b.toNat = (s.getBalance a).toNat + x.toNat ∧ s' = s.setBalance a b := by
  unfold credit
  rw [bind_eq_ok]
  constructor
  · rintro ⟨b, hb, h⟩
    exact ⟨b, checkedAdd_eq_some.mp (okOr_eq_ok.mp hb), (Except.ok.inj h).symm⟩
  · rintro ⟨b, hb, rfl⟩
    exact ⟨b, okOr_eq_ok.mpr (checkedAdd_eq_some.mpr hb), rfl⟩

theorem debit_ok {a : String} {x : UInt64} :
    s.debit a x = .ok s' ↔
      ∃ b, (s.getBalance a).toNat = b.toNat + x.toNat ∧ s' = s.setBalance a b := by
  unfold debit
  rw [bind_eq_ok]
  constructor
  · rintro ⟨b, hb, h⟩
    exact ⟨b, checkedSub_eq_some.mp (okOr_eq_ok.mp hb), (Except.ok.inj h).symm⟩
  · rintro ⟨b, hb, rfl⟩
    exact ⟨b, okOr_eq_ok.mpr (checkedSub_eq_some.mpr hb), rfl⟩

/-- The balance check before the deduction is the one the deduction makes. -/
theorem deductSender_ok {tx : TransferTx} :
    s.deductSender tx = .ok s' ↔ s.debit tx.sender tx.amount = .ok s' := by
  unfold deductSender
  rw [bind_eq_ok]
  constructor
  · rintro ⟨_, _, h⟩
    exact h
  · intro h
    obtain ⟨b, hb, -⟩ := debit_ok.mp h
    refine ⟨(), guardWith_eq_ok.mpr ?_, h⟩
    rw [UInt64.le_iff_toNat_le]
    omega

theorem moveValue_ok {t : ValueTransfer} :
    s.moveValue t = .ok s' ↔
      ∃ m, s.debit t.payer t.amount = .ok m ∧ m.credit t.payee t.amount = .ok s' :=
  bind_eq_ok

theorem commitValueTransfers_ok {txid : Digest} {trail : List ValueTransfer} :
    s.commitValueTransfers txid trail = .ok s' ↔
      (trail = [] ∧ s' = s) ∨
      (trail ≠ [] ∧ ∃ m, trail.foldlM moveValue s = .ok m ∧
        s' = { m with valueTransfersUndo := m.valueTransfersUndo.insert txid trail }) := by
  unfold commitValueTransfers
  cases trail with
  | nil => simp [eq_comm]
  | cons t trail =>
    simp only [List.isEmpty_cons, Bool.false_eq_true, if_false, bind_eq_ok, reduceCtorEq,
      false_and, ne_eq, not_false_eq_true, true_and, false_or]
    constructor
    · rintro ⟨m, hm, h⟩
      exact ⟨m, hm, (Except.ok.inj h).symm⟩
    · rintro ⟨m, hm, rfl⟩
      exact ⟨m, hm, rfl⟩

/-- The invariant rule of a flush: storage maps are replaced and storage roots set, and
at the end the record. -/
theorem flushStorageWrites_invariant {I : State → Prop} (hroot : ∀ t storage a root, I t →
      I (State.setStorageRoot { t with contractStorage := storage } a root))
    (hundo : ∀ t undo, I t → I { t with storageUndo := undo }) (hs : I s)
    (blake3 : List UInt8 → Digest) (result : ExecutionResult) (txid : Digest) :
    I (s.flushStorageWrites blake3 result txid) := by
  have hstep : ∀ (acc : State × List StorageUndoEntry) (e : String × ContractStorage),
      I acc.1 → I (flushContract blake3 acc e).1 := by
    rintro ⟨m, record⟩ e hm
    unfold flushContract
    dsimp only
    split
    · exact hm
    · split
      · exact hm
      · exact hroot m _ _ _ hm
  have hrun : ∀ (es : List (String × ContractStorage)) (acc : State × List StorageUndoEntry),
      I acc.1 → I (es.foldl (flushContract blake3) acc).1 := by
    intro es
    induction es with
    | nil => exact fun acc h => h
    | cons e es ih => exact fun acc h => ih _ (hstep acc e h)
  have hflushed := hrun result.storageOverlay.toList (s, []) hs
  unfold flushStorageWrites
  dsimp only
  split
  · exact hflushed
  · exact hundo _ _ hflushed

end State

theorem applyTransfer_ok {tx : TransferTx} :
    applyTransfer s tx = .ok s' ↔
      ∃ s₁ s₂, s.debit tx.sender tx.amount = .ok s₁ ∧ s₁.credit tx.receiver tx.amount = .ok s₂ ∧
        s' = s₂.setNonce tx.sender (s₂.getNonce tx.sender + 1) := by
  unfold applyTransfer
  simp only [bind_eq_ok, State.deductSender_ok]
  constructor
  · rintro ⟨s₁, h₁, s₂, h₂, h⟩
    exact ⟨s₁, s₂, h₁, h₂, (Except.ok.inj h).symm⟩
  · rintro ⟨s₁, s₂, h₁, h₂, rfl⟩
    exact ⟨s₁, h₁, s₂, h₂, rfl⟩

/-! ### Effects of a transaction -/

/-- The state in which a constructor runs: the contract installed, the nonce
consumed. -/
def installCreate (crates : Crates) (s : State) (create : CreateTx) (address : String) : State :=
  (s.setAccount address (deployedAccount crates create)).setNonce create.sender
    (s.getNonce create.sender + 1)

/-- The state in which a call runs: the nonce consumed. -/
def enterCall (s : State) (call : CallTx) : State :=
  s.setNonce call.sender (s.getNonce call.sender + 1)

/-- The execution a transaction makes: none for a transfer and for a call of an
address without a contract. -/
abbrev Frame := Option (Except VmError ExecutionResult)

def frameSucceeds : Frame → Bool
  | none => true
  | some (.ok result) => result.status = .success
  | some (.error _) => false

/-- **What a processed transaction does to the state**, given its frame. -/
inductive TxEffect (crates : Crates) (chainId : UInt32) :
    State → Transaction → Frame → State → Prop
  | transfer {s s' : State} {tx : TransferTx} (hflag : tx.isCoinbase = false)
      (happly : applyTransfer s tx = .ok s') :
      TxEffect crates chainId s (.transfer tx) none s'
  | createOk {s s₁ s' : State} {create : CreateTx} {address : String} {result : ExecutionResult}
      (haddress : crates.deriveContractAddress create.sender (s.getNonce create.sender) chainId =
        .ok address)
      (hvacant : s.isContractAt address = false)
      (hfunds : create.endowment ≤ s.getBalance create.sender)
      (hstatus : result.status = .success)
      (hdebit : ((installCreate crates s create address).flushStorageWrites crates.blake3 result
        (crates.txid (.create create))).debit create.sender create.endowment = .ok s₁)
      (hcommit : s₁.commitValueTransfers (crates.txid (.create create)) result.valueTransfers =
        .ok s') :
      TxEffect crates chainId s (.create create) (some (.ok result)) s'
  | createFailed {s : State} {create : CreateTx} {address : String}
      {outcome : Except VmError ExecutionResult}
      (haddress : crates.deriveContractAddress create.sender (s.getNonce create.sender) chainId =
        .ok address)
      (hvacant : s.isContractAt address = false)
      (hfunds : create.endowment ≤ s.getBalance create.sender)
      (hfailed : frameSucceeds (some outcome) = false) :
      TxEffect crates chainId s (.create create) (some outcome)
        ((installCreate crates s create address).setAccount address Account.default)
  | callPlain {s s' : State} {call : CallTx} (hfunds : call.value ≤ s.getBalance call.sender)
      (hplain : (enterCall s call).isContractAt call.receiver = false)
      (hcommit : (enterCall s call).commitValueTransfers (crates.txid (.call call))
        (topLevelMove call) = .ok s') :
      TxEffect crates chainId s (.call call) none s'
  | callOk {s s₁ : State} {call : CallTx} {result : ExecutionResult}
      (hfunds : call.value ≤ s.getBalance call.sender)
      (hcontract : (enterCall s call).isContractAt call.receiver = true)
      (hstatus : result.status = .success)
      (hcommit : (enterCall s call).commitValueTransfers (crates.txid (.call call))
        result.valueTransfers = .ok s₁) :
      TxEffect crates chainId s (.call call) (some (.ok result))
        (s₁.flushStorageWrites crates.blake3 result (crates.txid (.call call)))
  | callFailed {s : State} {call : CallTx} {outcome : Except VmError ExecutionResult}
      (hfunds : call.value ≤ s.getBalance call.sender)
      (hcontract : (enterCall s call).isContractAt call.receiver = true)
      (hfailed : frameSucceeds (some outcome) = false) :
      TxEffect crates chainId s (.call call) (some outcome) (enterCall s call)

section
variable {V : Type} {crates : Crates} {exec : VmExecutor V} {chainId : UInt32} {block : Block}

variable (crates exec chainId block) in
/-- The frame of a transaction in the progress in which it is processed. -/
def frameOf (p : Progress V) (tx : Transaction) : Frame :=
  match tx, p.vm with
  | .create create, some vm =>
    match crates.deriveContractAddress create.sender (p.state.getNonce create.sender) chainId with
    | .ok address =>
      match exec.registerCode vm address create.initCode with
      | .ok vm => some (exec.executeConstructor vm
          (executionContext (installCreate crates p.state create address) block create.sender
            address create.endowment create.gasLimit create.initArgs))
      | .error _ => none
    | .error _ => none
  | .call call, some vm =>
    if (enterCall p.state call).isContractAt call.receiver then
      some (exec.execute vm (executionContext (enterCall p.state call) block call.sender
        call.receiver call.value call.gasLimit call.data))
    else none
  | _, _ => none

theorem liftVm_ok {α : Type} {x : Except VmError α} {a : α} : liftVm x = .ok a ↔ x = .ok a := by
  cases x <;> simp [liftVm]

variable {outcome : Except VmError ExecutionResult}

variable {create : CreateTx} {i : UInt32} {receipt : Receipt}

/-- A constructor's outcome settles in one of two ways. -/
theorem settleCreate_ok {address : String}
    (h : settleCreate crates s create address block i outcome = .ok (s', receipt)) :
    receipt.txid = crates.txid (.create create) ∧
      ((∃ result s₁, outcome = .ok result ∧ receipt.status = .success ∧ result.status = .success ∧
          (s.flushStorageWrites crates.blake3 result (crates.txid (.create create))).debit
            create.sender create.endowment = .ok s₁ ∧
          s₁.commitValueTransfers (crates.txid (.create create)) result.valueTransfers = .ok s') ∨
        (receipt.status ≠ .success ∧ frameSucceeds (some outcome) = false ∧
          s' = s.setAccount address Account.default)) := by
  unfold settleCreate at h
  cases outcome with
  | error err =>
    obtain ⟨rfl, rfl⟩ := ok_pair h
    exact ⟨rfl, .inr ⟨Receipt.fromVmError_status _ _ _ _ _, rfl, rfl⟩⟩
  | ok result =>
    dsimp only at h
    split at h
    · rename_i hstatus
      obtain ⟨s₁, hdebit, h⟩ := bind_eq_ok.mp h
      obtain ⟨s₂, hcommit, h⟩ := bind_eq_ok.mp h
      obtain ⟨rfl, rfl⟩ := ok_pair h
      exact ⟨rfl, .inl ⟨result, s₁, rfl, hstatus, hstatus, hdebit, hcommit⟩⟩
    · rename_i hstatus
      obtain ⟨rfl, rfl⟩ := ok_pair h
      exact ⟨rfl, .inr ⟨hstatus, by simpa [frameSucceeds] using hstatus, rfl⟩⟩

/-- A receipt tells whether the frame succeeded. -/
def Receipt.Reports (receipt : Receipt) (frame : Frame) : Prop :=
  receipt.status = .success ↔ frameSucceeds frame = true

variable {p : Progress V}

theorem applyCreate_effect {s' : State} {vm vm' : V} (hvm : p.vm = some vm)
    (h : applyCreate crates exec p.state create chainId vm block i = .ok (s', vm', receipt)) :
    receipt.txid = crates.txid (.create create) ∧
      receipt.Reports (frameOf crates exec chainId block p (.create create)) ∧
      TxEffect crates chainId p.state (.create create)
        (frameOf crates exec chainId block p (.create create)) s' := by
  unfold applyCreate at h
  obtain ⟨address, haddress, h⟩ := bind_eq_ok.mp h
  obtain ⟨_, hvacant, h⟩ := bind_eq_ok.mp h
  obtain ⟨_, hfunds, h⟩ := bind_eq_ok.mp h
  obtain ⟨vm₁, hregister, h⟩ := bind_eq_ok.mp h
  obtain ⟨⟨s₂, receipt₂⟩, hsettle, h⟩ := bind_eq_ok.mp h
  obtain ⟨rfl, hres⟩ : s₂ = s' ∧ (vm₁, receipt₂) = (vm', receipt) :=
    ok_pair h
  obtain rfl : receipt₂ = receipt := (Prod.mk.inj hres).2
  obtain ⟨htxid, hcase⟩ := settleCreate_ok hsettle
  have hframe : frameOf crates exec chainId block p (.create create) =
      some (exec.executeConstructor vm₁
        (executionContext (installCreate crates p.state create address) block create.sender
          address create.endowment create.gasLimit create.initArgs)) := by
    simp only [frameOf, hvm, haddress, liftVm_ok.mp hregister]
  refine ⟨htxid, ?_⟩
  rw [hframe, Receipt.Reports]
  rcases hcase with ⟨result, s₁, houtcome, hstatus, hok, hdebit, hcommit⟩ | ⟨hstatus, hfailed, rfl⟩
  · have houtcome' : exec.executeConstructor vm₁
        (executionContext (installCreate crates p.state create address) block create.sender
          address create.endowment create.gasLimit create.initArgs) = .ok result := houtcome
    rw [houtcome']
    refine ⟨by simp [hstatus, frameSucceeds, hok], ?_⟩
    exact .createOk haddress (guardWith_eq_ok.mp hvacant) (guardWith_eq_ok.mp hfunds) hok hdebit
      hcommit
  · refine ⟨iff_of_false hstatus (ne_true_of_eq_false hfailed), ?_⟩
    exact .createFailed haddress (guardWith_eq_ok.mp hvacant) (guardWith_eq_ok.mp hfunds) hfailed

theorem settleCall_ok {call : CallTx}
    (h : settleCall crates s call block i outcome = .ok (s', receipt)) :
    receipt.txid = crates.txid (.call call) ∧
      ((∃ result s₁, outcome = .ok result ∧ receipt.status = .success ∧ result.status = .success ∧
          s.commitValueTransfers (crates.txid (.call call)) result.valueTransfers = .ok s₁ ∧
          s' = s₁.flushStorageWrites crates.blake3 result (crates.txid (.call call))) ∨
        (receipt.status ≠ .success ∧ frameSucceeds (some outcome) = false ∧ s' = s)) := by
  unfold settleCall at h
  cases outcome with
  | error err =>
    obtain ⟨rfl, rfl⟩ := ok_pair h
    exact ⟨rfl, .inr ⟨Receipt.fromVmError_status _ _ _ _ _, rfl, rfl⟩⟩
  | ok result =>
    dsimp only at h
    split at h
    · rename_i hstatus
      obtain ⟨s₁, hcommit, h⟩ := bind_eq_ok.mp h
      obtain ⟨rfl, rfl⟩ := ok_pair h
      exact ⟨rfl, .inl ⟨result, s₁, rfl, hstatus, hstatus, hcommit, rfl⟩⟩
    · rename_i hstatus
      obtain ⟨rfl, rfl⟩ := ok_pair h
      exact ⟨rfl, .inr ⟨hstatus, by simpa [frameSucceeds] using hstatus, rfl⟩⟩

theorem applyCall_effect {s' : State} {call : CallTx} {vm : V} (hvm : p.vm = some vm)
    (h : applyCall crates exec p.state block call vm i = .ok (s', receipt)) :
    receipt.txid = crates.txid (.call call) ∧
      receipt.Reports (frameOf crates exec chainId block p (.call call)) ∧
      TxEffect crates chainId p.state (.call call)
        (frameOf crates exec chainId block p (.call call)) s' := by
  unfold applyCall at h
  obtain ⟨_, hfunds, h⟩ := bind_eq_ok.mp h
  dsimp only at h
  split at h
  · rename_i hplain
    have hplain' : (enterCall p.state call).isContractAt call.receiver = false := by
      simpa [enterCall] using hplain
    obtain ⟨s₁, hcommit, h⟩ := bind_eq_ok.mp h
    obtain ⟨rfl, rfl⟩ := ok_pair h
    have hframe : frameOf crates exec chainId block p (.call call) = none := by
      simp [frameOf, hvm, hplain']
    rw [hframe, Receipt.Reports]
    exact ⟨rfl, by simp [frameSucceeds], .callPlain (guardWith_eq_ok.mp hfunds) hplain' hcommit⟩
  · rename_i hcontract
    have hcontract' : (enterCall p.state call).isContractAt call.receiver = true := by
      simpa [enterCall] using hcontract
    have hframe : frameOf crates exec chainId block p (.call call) =
        some (exec.execute vm (executionContext (enterCall p.state call) block call.sender
          call.receiver call.value call.gasLimit call.data)) := by
      simp [frameOf, hvm, hcontract']
    obtain ⟨htxid, hcase⟩ := settleCall_ok h
    refine ⟨htxid, ?_⟩
    rw [hframe, Receipt.Reports]
    rcases hcase with ⟨result, s₁, houtcome, hstatus, hok, hcommit, rfl⟩ | ⟨hstatus, hfailed, rfl⟩
    · have houtcome' : exec.execute vm (executionContext (enterCall p.state call) block call.sender
          call.receiver call.value call.gasLimit call.data) = .ok result := houtcome
      rw [houtcome']
      refine ⟨by simp [hstatus, frameSucceeds, hok], ?_⟩
      exact .callOk (guardWith_eq_ok.mp hfunds) hcontract' hok hcommit
    · refine ⟨iff_of_false hstatus (ne_true_of_eq_false hfailed), ?_⟩
      exact .callFailed (guardWith_eq_ok.mp hfunds) hcontract' hfailed

/-- **Inversion of one step of a block**: a coinbase is passed over, any other
transaction has its effect and leaves its receipt. -/
theorem applyTx_ok {p' : Progress V} {e : Transaction × Nat}
    (h : applyTx crates exec chainId block p e = .ok p') :
    (e.1.isCoinbase = true ∧ p' = p) ∨
      (e.1.isCoinbase = false ∧ ∃ receipt, p'.receipts = p.receipts ++ [receipt] ∧
        receipt.txid = crates.txid e.1 ∧
        receipt.Reports (frameOf crates exec chainId block p e.1) ∧
        TxEffect crates chainId p.state e.1 (frameOf crates exec chainId block p e.1)
          p'.state) := by
  unfold applyTx at h
  dsimp only at h
  split at h
  · rename_i hcb
    exact .inl ⟨hcb, (Except.ok.inj h).symm⟩
  · rename_i hcb
    refine .inr ⟨by simpa using hcb, ?_⟩
    split at h
    · rename_i tx htx
      obtain ⟨s₁, happly, h⟩ := bind_eq_ok.mp h
      obtain rfl := Except.ok.inj h
      rw [htx] at hcb ⊢
      refine ⟨_, rfl, rfl, by simp [Receipt.Reports, transferReceipt,
        frameOf, frameSucceeds], ?_⟩
      exact .transfer (by simpa [Transaction.isCoinbase] using hcb) happly
    · rename_i create htx
      split at h
      · cases h
      · rename_i vm hvm
        obtain ⟨⟨s₁, vm₁, receipt⟩, happly, h⟩ := bind_eq_ok.mp h
        obtain ⟨htxid, hreports, heffect⟩ := applyCreate_effect hvm happly
        obtain rfl := Except.ok.inj h
        rw [htx]
        exact ⟨receipt, rfl, htxid, hreports, heffect⟩
    · rename_i call htx
      split at h
      · cases h
      · rename_i vm hvm
        obtain ⟨⟨s₁, receipt⟩, happly, h⟩ := bind_eq_ok.mp h
        obtain ⟨htxid, hreports, heffect⟩ :=
          @applyCall_effect _ _ _ chainId _ _ _ _ _ _ _ hvm happly
        obtain rfl := Except.ok.inj h
        rw [htx]
        exact ⟨receipt, rfl, htxid, hreports, heffect⟩

theorem coinbaseOf_fst (block : Block) :
    (coinbaseOf block).map Prod.fst = block.transactions.find? Transaction.isCoinbase := by
  have h := @List.find?_map _ _ Transaction.isCoinbase Prod.fst block.transactions.zipIdx
  rw [List.zipIdx_map_fst] at h
  exact h.symm

theorem applyCoinbase_ok {p' : Progress V} :
    applyCoinbase crates p block chainId = .ok p' ↔
      ∃ cb i s, coinbaseOf block = some (.transfer cb, i) ∧
        cb.amount ≤ blockRewardAtHeightForChain block.index p.state.totalSupply chainId ∧
        p.state.credit cb.receiver cb.amount = .ok s ∧
        p' = { p with
          state := s
          receipts := p.receipts ++
            [transferReceipt crates (.transfer cb) block (UInt32.ofNat i) []] } := by
  unfold applyCoinbase
  simp only [bind_eq_ok, okOr_eq_ok]
  constructor
  · rintro ⟨⟨tx, i⟩, hcb, h⟩
    cases tx with
    | transfer cb =>
      obtain ⟨_, hguard, h⟩ := bind_eq_ok.mp h
      obtain ⟨s, hcredit, h⟩ := bind_eq_ok.mp h
      exact ⟨cb, i, s, hcb, guardWith_eq_ok.mp hguard, hcredit, (Except.ok.inj h).symm⟩
    | create create => cases h
    | call call => cases h
  · rintro ⟨cb, i, s, hcb, hle, hcredit, rfl⟩
    refine ⟨(.transfer cb, i), hcb, bind_eq_ok.mpr ⟨(), guardWith_eq_ok.mpr hle, ?_⟩⟩
    exact bind_eq_ok.mpr ⟨s, hcredit, rfl⟩

/-- **Inversion of a block after genesis**: the chain ids agree, the first
coinbase is credited, the transactions are processed in order. -/
theorem applyBlockInner_ok {vm : Option V} {r : State × Option V} (hindex : 0 < block.index) :
    applyBlockInner crates exec s block chainId vm = .ok r ↔
      (∀ tx ∈ block.transactions, tx.chainId = chainId) ∧
      ∃ cb i s₁ p, coinbaseOf block = some (.transfer cb, i) ∧
        cb.amount ≤ blockRewardAtHeightForChain block.index s.totalSupply chainId ∧
        State.credit { s with receipts := [] } cb.receiver cb.amount = .ok s₁ ∧
        block.transactions.zipIdx.foldlM (applyTx crates exec chainId block)
          ⟨s₁, vm, [transferReceipt crates (.transfer cb) block (UInt32.ofNat i) []]⟩ = .ok p ∧
        r = ({ p.state with receipts := p.receipts }, p.vm) := by
  have hids : ∀ u, block.transactions.forM (validateTxChainId chainId) = .ok u ↔
      ∀ tx ∈ block.transactions, tx.chainId = chainId := by
    intro u
    rw [forM_ok]
    simp only [validateTxChainId, guardWith_eq_ok]
  have hne : block.index ≠ 0 := UInt64.pos_iff_ne_zero.mp hindex
  unfold applyBlockInner applyNonGenesis
  simp only [if_neg hne, bind_eq_ok, applyCoinbase_ok, hids]
  constructor
  · rintro ⟨p, ⟨_, hids, p₁, ⟨cb, i, s₁, hcb, hle, hcredit, rfl⟩, hrun⟩, h⟩
    exact ⟨hids, cb, i, s₁, p, hcb, hle, hcredit, hrun, (Except.ok.inj h).symm⟩
  · rintro ⟨hids, cb, i, s₁, p, hcb, hle, hcredit, hrun, rfl⟩
    exact ⟨p, ⟨(), hids, _, ⟨cb, i, s₁, hcb, hle, hcredit, rfl⟩, hrun⟩, rfl⟩

variable (crates exec chainId block) in
/-- `P` holds of every transaction of a block when it is processed: in the
progress the coinbase credit and the earlier transactions have left. -/
def AtEachTx (s : State) (vm : Option V) (P : Progress V → Transaction × Nat → Prop) : Prop :=
  ∀ p, applyCoinbase crates ⟨{ s with receipts := [] }, vm, []⟩ block chainId = .ok p →
    EachStep (applyTx crates exec chainId block) P p block.transactions.zipIdx

instance {s : State} {vm : Option V} {P : Progress V → Transaction × Nat → Prop}
    [∀ p e, Decidable (P p e)] : Decidable (AtEachTx crates exec chainId block s vm P) :=
  inferInstanceAs (Decidable (∀ _, _ → _))

end

end Strangecoin
