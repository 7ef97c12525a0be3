import Strangecoin.ApplyBlock

/-! # What applying a block reads

A state carries, besides its accounts and storage, the receipts of the last block and the
undo records of all blocks.  Applying a block never reads them.
-/
namespace Strangecoin

open Strangecoin.Except (Agree)

namespace State

theorem Same.refl (s : State) : Same s s := ⟨rfl, rfl⟩

variable {s t : State}

section
variable (h : Same s t)
include h

theorem Same.account (a : String) : s.account a = t.account a := by
  rw [State.account, h.1, State.account]

theorem Same.getBalance (a : String) : s.getBalance a = t.getBalance a := by
  rw [State.getBalance, h.1, State.getBalance]

theorem Same.getNonce (a : String) : s.getNonce a = t.getNonce a := by
  rw [State.getNonce, h.1, State.getNonce]

theorem Same.isContractAt (a : String) : s.isContractAt a = t.isContractAt a := by
  rw [State.isContractAt, h.1, State.isContractAt]

theorem Same.totalSupply : s.totalSupply = t.totalSupply := by
  rw [State.totalSupply, h.1, State.totalSupply]

theorem Same.setAccount (a : String) (account : Account) :
    Same (s.setAccount a account) (t.setAccount a account) := by
  unfold State.setAccount
  split
  · exact ⟨congrArg (·.erase a) h.1, h.2⟩
  · exact ⟨congrArg (·.insert a account) h.1, h.2⟩

theorem Same.setBalance (a : String) (b : UInt64) :
    Same (s.setBalance a b) (t.setBalance a b) := by
  rw [setBalance_eq, setBalance_eq, h.account a]
  exact h.setAccount a _

theorem Same.setNonce (a : String) (n : UInt64) :
    Same (s.setNonce a n) (t.setNonce a n) := by
  rw [setNonce_eq, setNonce_eq, h.account a]
  exact h.setAccount a _

end

/-! ### Value -/

theorem Same.credit (h : Same s t) (a : String) (amount : UInt64) :
    Agree Same (s.credit a amount) (t.credit a amount) := by
  unfold State.credit
  rw [h.getBalance a]
  exact .bind_left fun b => .ok (h.setBalance a b)

theorem Same.debit (h : Same s t) (a : String) (amount : UInt64) :
    Agree Same (s.debit a amount) (t.debit a amount) := by
  unfold State.debit
  rw [h.getBalance a]
  exact .bind_left fun b => .ok (h.setBalance a b)

theorem Same.moveValue (h : Same s t) (transfer : ValueTransfer) :
    Agree Same (s.moveValue transfer) (t.moveValue transfer) :=
  (h.debit _ _).bind fun _ _ h => h.credit _ _

theorem Same.commitValueTransfers (h : Same s t) (txid : Digest) (transfers : List ValueTransfer) :
    Agree Same (s.commitValueTransfers txid transfers) (t.commitValueTransfers txid transfers) := by
  unfold State.commitValueTransfers
  split
  · exact .ok h
  · exact (Agree.foldlM (fun _ _ x h => h.moveValue x) h transfers).bind fun _ _ h => .ok h

/-! ### Storage -/

theorem Same.setStorageRoot (h : Same s t) (a : String) (root : Digest) :
    Same (s.setStorageRoot a root) (t.setStorageRoot a root) := by
  unfold State.setStorageRoot
  rw [← h.1]
  split
  · exact ⟨rfl, h.2⟩
  · exact h

/-- The state and the pre-images collected so far. -/
def SameFlush (x y : State × List StorageUndoEntry) : Prop := Same x.1 y.1 ∧ x.2 = y.2

theorem SameFlush.flushContract {blake3 : List UInt8 → Digest} {x y : State × List StorageUndoEntry}
    (h : SameFlush x y) (e : String × ContractStorage) :
    SameFlush (flushContract blake3 x e) (flushContract blake3 y e) := by
  obtain ⟨s, undo⟩ := x
  obtain ⟨t, _⟩ := y
  obtain ⟨hst, rfl⟩ := h
  simp only [State.flushContract, hst.isContractAt e.1]
  split
  · exact ⟨hst, rfl⟩
  · split
    · exact ⟨hst, rfl⟩
    · change s.Same t at hst
      rw [hst.2]
      refine ⟨?_, rfl⟩
      apply Same.setStorageRoot
      exact ⟨hst.1, rfl⟩

theorem SameFlush.foldl {blake3 : List UInt8 → Digest} (es : List (String × ContractStorage))
    {x y : State × List StorageUndoEntry} (h : SameFlush x y) :
    SameFlush (es.foldl (State.flushContract blake3) x) (es.foldl (State.flushContract blake3) y) := by
  induction es generalizing x y with
  | nil => exact h
  | cons e es ih => exact ih (h.flushContract e)

theorem Same.flushStorageWrites (h : Same s t) (blake3 : List UInt8 → Digest)
    (result : ExecutionResult) (txid : Digest) :
    Same (s.flushStorageWrites blake3 result txid) (t.flushStorageWrites blake3 result txid) := by
  obtain ⟨hsame, hundo⟩ := @SameFlush.foldl blake3 result.storageOverlay.toList (s, []) (t, [])
    ⟨h, rfl⟩
  unfold State.flushStorageWrites
  simp only [hundo]
  split
  · exact hsame
  · exact hsame

end State

/-! ### Transactions -/

section
variable {V : Type} (crates : Crates) (exec : VmExecutor V) {s t : State}

/-- A state with something else that is the same. -/
def SameWith {α : Type} (x y : State × α) : Prop := State.Same x.1 y.1 ∧ x.2 = y.2

section
variable (h : State.Same s t)
include h

theorem State.Same.executionContext (block : Block) (caller callee : String)
    (value gasLimit : UInt64) (input : List UInt8) :
    executionContext s block caller callee value gasLimit input =
      executionContext t block caller callee value gasLimit input := by
  rw [Strangecoin.executionContext, h.1, h.2, Strangecoin.executionContext]

theorem State.Same.applyTransfer (tx : TransferTx) :
    Agree State.Same (applyTransfer s tx) (applyTransfer t tx) := by
  unfold Strangecoin.applyTransfer State.deductSender
  rw [h.getBalance tx.sender]
  refine Agree.bind (.bind_left fun _ => h.debit _ _) fun s t h => ?_
  refine (h.credit _ _).bind fun s t h => ?_
  unfold State.incrementNonce
  rw [h.getNonce tx.sender]
  exact .ok (h.setNonce _ _)

theorem State.Same.settleCreate (create : CreateTx) (address : String)
    (block : Block) (txIndex : UInt32) (outcome : Except VmError ExecutionResult) :
    Agree SameWith (settleCreate crates s create address block txIndex outcome)
      (settleCreate crates t create address block txIndex outcome) := by
  unfold Strangecoin.settleCreate
  cases outcome with
  | error err => exact .ok ⟨h.setAccount _ _, rfl⟩
  | ok result =>
    by_cases hok : result.status = .success
    · simp only [if_pos hok]
      refine ((h.flushStorageWrites crates.blake3 result _).debit _ _).bind fun s t h => ?_
      exact (h.commitValueTransfers _ _).bind fun s t h => .ok ⟨h, rfl⟩
    · simp only [if_neg hok]
      exact .ok ⟨h.setAccount _ _, rfl⟩

theorem State.Same.applyCreate (create : CreateTx) (chainId : UInt32) (vm : V)
    (block : Block) (txIndex : UInt32) :
    Agree SameWith (applyCreate crates exec s create chainId vm block txIndex)
      (applyCreate crates exec t create chainId vm block txIndex) := by
  unfold Strangecoin.applyCreate
  rw [h.getNonce create.sender, h.getBalance create.sender]
  refine .bind_left fun address => ?_
  rw [h.isContractAt address]
  refine .bind_left fun _ => .bind_left fun _ => .bind_left fun vm => ?_
  have hinstalled := (h.setAccount address (deployedAccount crates create)).setNonce create.sender
    (t.getNonce create.sender + 1)
  rw [hinstalled.executionContext]
  refine (hinstalled.settleCreate crates create address block txIndex _).bind ?_
  rintro ⟨s, receipt⟩ ⟨t, _⟩ ⟨h, rfl⟩
  exact .ok ⟨h, rfl⟩

theorem State.Same.settleCall (call : CallTx) (block : Block)
    (txIndex : UInt32) (outcome : Except VmError ExecutionResult) :
    Agree SameWith (settleCall crates s call block txIndex outcome)
      (settleCall crates t call block txIndex outcome) := by
  unfold Strangecoin.settleCall
  cases outcome with
  | error err => exact .ok ⟨h, rfl⟩
  | ok result =>
    by_cases hok : result.status = .success
    · simp only [if_pos hok]
      exact (h.commitValueTransfers _ _).bind fun s t h => .ok ⟨h.flushStorageWrites _ _ _, rfl⟩
    · simp only [if_neg hok]
      exact .ok ⟨h, rfl⟩

theorem State.Same.applyCall (block : Block) (call : CallTx) (vm : V)
    (txIndex : UInt32) :
    Agree SameWith (applyCall crates exec s block call vm txIndex)
      (applyCall crates exec t block call vm txIndex) := by
  unfold Strangecoin.applyCall
  rw [h.getNonce call.sender, h.getBalance call.sender]
  refine .bind_left fun _ => ?_
  have hentered := h.setNonce call.sender (t.getNonce call.sender + 1)
  dsimp only
  rw [hentered.isContractAt call.receiver, hentered.executionContext]
  split
  · exact (hentered.commitValueTransfers _ _).bind fun s t h => .ok ⟨h, rfl⟩
  · exact hentered.settleCall crates call block txIndex _

end

/-! ### Blocks -/

/-- Progress that differs only in the records of the state. -/
structure SameProgress (p q : Progress V) : Prop where
  state : State.Same p.state q.state
  vm : p.vm = q.vm
  receipts : p.receipts = q.receipts

variable {p q : Progress V}

theorem SameProgress.applyTx (h : SameProgress p q) (chainId : UInt32) (block : Block)
    (e : Transaction × Nat) :
    Agree SameProgress (applyTx crates exec chainId block p e)
      (applyTx crates exec chainId block q e) := by
  obtain ⟨s, vm, receipts⟩ := p
  obtain ⟨t, _, _⟩ := q
  obtain ⟨hstate, rfl, rfl⟩ := h
  unfold Strangecoin.applyTx
  split
  · exact .ok ⟨hstate, rfl, rfl⟩
  · obtain ⟨tx, i⟩ := e
    cases tx with
    | transfer tx => exact (hstate.applyTransfer tx).bind fun s t h => .ok ⟨h, rfl, rfl⟩
    | create create =>
      cases vm with
      | none => exact .error _
      | some vm =>
        refine (hstate.applyCreate crates exec create chainId vm block _).bind ?_
        rintro ⟨s, vm, receipt⟩ ⟨t, _⟩ ⟨h, rfl⟩
        exact .ok ⟨h, rfl, rfl⟩
    | call call =>
      cases vm with
      | none => exact .error _
      | some vm =>
        refine (hstate.applyCall crates exec block call vm _).bind ?_
        rintro ⟨s, receipt⟩ ⟨t, _⟩ ⟨h, rfl⟩
        exact .ok ⟨h, rfl, rfl⟩

theorem SameProgress.applyGenesisTx (h : SameProgress p q) (chainId : UInt32) (block : Block)
    (e : Transaction × Nat) :
    Agree SameProgress (applyGenesisTx crates chainId block p e)
      (applyGenesisTx crates chainId block q e) := by
  obtain ⟨s, vm, receipts⟩ := p
  obtain ⟨t, _, _⟩ := q
  obtain ⟨hstate, rfl, rfl⟩ := h
  refine .bind_left fun _ => ?_
  obtain ⟨tx, i⟩ := e
  cases tx with
  | transfer tx => exact (hstate.credit _ _).bind fun s t h => .ok ⟨h, rfl, rfl⟩
  | create create => exact .error _
  | call call => exact .error _

theorem SameProgress.applyCoinbase (h : SameProgress p q) (chainId : UInt32) (block : Block) :
    Agree SameProgress (applyCoinbase crates p block chainId)
      (applyCoinbase crates q block chainId) := by
  obtain ⟨s, vm, receipts⟩ := p
  obtain ⟨t, _, _⟩ := q
  obtain ⟨hstate, rfl, rfl⟩ := h
  unfold Strangecoin.applyCoinbase
  simp only [hstate.totalSupply]
  refine .bind_left fun coinbase => ?_
  obtain ⟨tx, i⟩ := coinbase
  cases tx with
  | transfer tx =>
    exact .bind_left fun _ => (hstate.credit _ _).bind fun s t h => .ok ⟨h, rfl, rfl⟩
  | create create => exact .error _
  | call call => exact .error _

/-- **Applying a block reads accounts and storage only.** -/
theorem State.Same.applyBlockInner (h : State.Same s t) (block : Block) (chainId : UInt32)
    (vm : Option V) :
    Agree (fun x y => State.Same x.1 y.1 ∧ x.1.receipts = y.1.receipts ∧ x.2 = y.2)
      (applyBlockInner crates exec s block chainId vm)
      (applyBlockInner crates exec t block chainId vm) := by
  have hstart : SameProgress (⟨{ s with receipts := [] }, vm, []⟩ : Progress V)
      ⟨{ t with receipts := [] }, vm, []⟩ := ⟨h, rfl, rfl⟩
  unfold Strangecoin.applyBlockInner
  by_cases hindex : block.index = 0
  · simp only [if_pos hindex]
    refine Agree.bind ?_ fun p q (h : SameProgress p q) => .ok ⟨h.state, h.receipts, h.vm⟩
    exact Agree.foldlM (fun _ _ e h => h.applyGenesisTx crates chainId block e) hstart _
  · simp only [if_neg hindex]
    refine Agree.bind ?_ fun p q (h : SameProgress p q) => .ok ⟨h.state, h.receipts, h.vm⟩
    refine .bind_left fun _ => (hstart.applyCoinbase crates chainId block).bind fun p q h => ?_
    exact Agree.foldlM (fun _ _ e h => h.applyTx crates exec chainId block e) h _

end

end Strangecoin
