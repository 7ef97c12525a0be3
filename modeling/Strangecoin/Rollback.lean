import Strangecoin.LedgerMoves
import Strangecoin.StorageRollback

/-! # Rolling a transaction back

What a transaction did to the state is taken back from four things the state holds:
the accounts, the contract storage, the undo records under the transaction's id and
the receipts.

A receipt that is not found counts as a success and a missing trail of a call as its
top-level move, so what rollback reverses (`reversedTrail`) is not always what was
committed (`committedTrail`).
-/
namespace Strangecoin
open Function State

/-! ### Trails -/

/-- The moves a processed transaction made. -/
def committedTrail : Transaction → Frame → List ValueTransfer
  | .transfer _, _ => []
  | .create _, none => []
  | .call call, none => topLevelMove call
  | _, some (.ok result) => if result.status = .success then result.valueTransfers else []
  | _, some (.error _) => []

/-- The moves rollback reverses. -/
def reversedTrail (crates : Crates) (s : State) (tx : Transaction) : List ValueTransfer :=
  if s.countsAsSuccess (crates.txid tx) then
    match tx with
    | .transfer _ => []
    | .create _ => s.valueTransfersUndo[crates.txid tx]?.getD []
    | .call call => s.valueTransfersUndo[crates.txid tx]?.getD (topLevelMove call)
  else []

variable {tx : Transaction}

theorem committedTrail_of_failed {outcome : Except VmError ExecutionResult}
    (h : frameSucceeds (some outcome) = false) : committedTrail tx (some outcome) = [] := by
  cases outcome with
  | error e => cases tx <;> rfl
  | ok result =>
    have hstatus : result.status ≠ .success := by simpa [frameSucceeds] using h
    cases tx <;> simp [committedTrail, hstatus]

variable {trail : List ValueTransfer} {s u : State} {f : String → UInt64}

namespace State

theorem commitValueTransfers_views {t : State} {txid : Digest} (hs : s.Canonical)
    (h : s.commitValueTransfers txid trail = .ok t) :
    t.Canonical ∧ trail.foldlM moveFn s.getBalance = some t.getBalance ∧
      t.views = { s.views with
        balance := t.getBalance
        valueTransfersUndo := keepRecord s.valueTransfersUndo txid trail } := by
  rcases commitValueTransfers_ok.mp h with ⟨rfl, rfl⟩ | ⟨hne, m, hrun, rfl⟩
  · exact ⟨hs, rfl, rfl⟩
  · obtain ⟨hfn, hm, hviews⟩ := (ActsAs.run fun t _ => actsAs_moveValue t).effect hs hrun
    refine ⟨hm.of_balances rfl, hfn, ?_⟩
    rw [List.foldl_fixed] at hviews
    have hrest : m.valueTransfersUndo = s.valueTransfersUndo :=
      trail_views hviews
    rw [keepRecord, if_neg (by simpa using hne), ← hrest]
    exact congrArg (fun v : Views => { v with
      valueTransfersUndo := m.valueTransfersUndo.insert txid trail }) hviews

theorem reverse_trail (hu : u.Canonical) (h : trail.foldlM moveFn f = some u.getBalance) :
    ∃ w, u.reverseValueTransfers trail = .ok w ∧ w.Canonical ∧
      w.views = { u.views with balance := f } := by
  obtain ⟨w, hw, hwc, hviews⟩ := (ActsAs.run fun t _ => actsAs_unmoveValue t).apply hu
    (moveFns_iff_unmoveFns.mp h)
  rw [List.foldl_fixed] at hviews
  exact ⟨w, hw, hwc, hviews⟩

/-- **Value moves are reversible.** -/
theorem value_moves_reversible (s t : State) (txid : Digest) (trail : List ValueTransfer)
    (hs : s.Canonical) (h : s.commitValueTransfers txid trail = .ok t) :
    ∃ w, t.reverseValueTransfers trail = .ok w ∧ w.balances = s.balances := by
  obtain ⟨ht, hrun, hviews⟩ := commitValueTransfers_views hs h
  obtain ⟨w, hw, hcanonical, hrest⟩ := reverse_trail ht hrun
  refine ⟨w, hw, balances_eq_of_views hcanonical hs (balance_views hrest) ?_ ?_⟩
  · exact (nonce_views hrest).trans (nonce_views hviews)
  · exact (kind_views hrest).trans (kind_views hviews)

/-- The payer is pruned, the payee pays itself and sends a part back. -/
theorem value_moves_reversible_pruned : ∃ t w,
    (funded [("alice", 10)]).commitValueTransfers zeroDigest
      [⟨"alice", "bob", 10⟩, ⟨"bob", "bob", 4⟩, ⟨"bob", "alice", 3⟩] = .ok t ∧
    t.reverseValueTransfers [⟨"alice", "bob", 10⟩, ⟨"bob", "bob", 4⟩, ⟨"bob", "alice", 3⟩] = .ok w ∧
    w.balances = (funded [("alice", 10)]).balances := by
  obtain ⟨t, ht⟩ := isOk_iff.mp (show ((funded [("alice", 10)]).commitValueTransfers zeroDigest
    [⟨"alice", "bob", 10⟩, ⟨"bob", "bob", 4⟩, ⟨"bob", "alice", 3⟩]).isOk = true by decide)
  obtain ⟨w, hw⟩ := value_moves_reversible _ t _ _ (canonical_funded _) ht
  exact ⟨t, w, ht, hw⟩

end State

/-! ### Calls -/

section
variable {crates : Crates} {chainId : UInt32}

/-- A nonce that was raised is lowered again, unless it had wrapped. -/
theorem checkedSub_succ {n : UInt64} (h : n.toNat + 1 < 2 ^ 64) :
    checkedSub (n + 1) 1 = some n := by
  rw [checkedSub_eq_some, UInt64.toNat_add, UInt64.toNat_one, Nat.mod_eq_of_lt h]

variable {s' : State} {call : CallTx}

variable {frame : Frame}

/-- A call commits its trail and then flushes; where it does neither, the trail and
the record are empty. -/
theorem call_steps (hs : s.Canonical) (h : TxEffect crates chainId s (.call call) frame s') :
    ∃ s₁ t record,
      (enterCall s call).commitValueTransfers (crates.txid (.call call))
        (committedTrail (.call call) frame) = .ok s₁ ∧
      Flushed crates.blake3 s₁ t record ∧
      s' = { t with storageUndo := keepRecord t.storageUndo (crates.txid (.call call)) record } := by
  have henter : (enterCall s call).Canonical := hs.setNonce _ _
  cases h with
  | callPlain hfunds hplain hcommit =>
    have hc := (commitValueTransfers_views henter hcommit).1
    exact ⟨s', s', [], hcommit, .refl _ hc, rfl⟩
  | callOk hfunds hcontract hstatus hcommit =>
    rename_i s₁ result
    have hc := (commitValueTransfers_views henter hcommit).1
    refine ⟨s₁, _, _, ?_, flushed crates.blake3 result hc,
      flushStorageWrites_eq _ _ _ _⟩
    simpa [committedTrail, hstatus] using hcommit
  | callFailed hfunds hcontract hfailed =>
    refine ⟨enterCall s call, _, [], ?_, .refl _ henter, rfl⟩
    rw [committedTrail_of_failed hfailed]
    rfl

variable {record : List StorageUndoEntry} {s₁ : State}

variable {t : State}

/-- A call changes the storage records only where it flushes. -/
theorem call_storageUndo (hs : s.Canonical)
    (hcommit : (enterCall s call).commitValueTransfers (crates.txid (.call call)) trail = .ok s₁)
    (hflush : Flushed crates.blake3 s₁ t record) : t.storageUndo = s.storageUndo := by
  have hs₁ := (commitValueTransfers_views (hs.setNonce _ _) hcommit).2.2
  have henter := hs.views_setNonce call.sender (s.getNonce call.sender + 1)
  calc t.storageUndo = s₁.storageUndo := undo_views hflush.frame
    _ = (enterCall s call).storageUndo := undo_views hs₁
    _ = s.storageUndo := undo_views henter

/-- Two states have the same undo records except under one id. -/
def SameUndoExcept (txid : Digest) (s t : State) : Prop :=
  ∀ id, id ≠ txid → s.storageUndo[id]? = t.storageUndo[id]? ∧
    s.valueTransfersUndo[id]? = t.valueTransfersUndo[id]?

/-- The middle of taking a call back: its trail is reversed. -/
theorem reverse_call_trail (hu : u.Canonical)
    (h : (reversedTrail crates u (.call call)).foldlM moveFn f = some u.getBalance) :
    ∃ w, reverseCall crates u call = .ok w ∧ w.Canonical ∧
      w.views = { u.views with balance := f, valueTransfersUndo := w.valueTransfersUndo } ∧
      ∀ id, id ≠ crates.txid (.call call) →
        w.valueTransfersUndo[id]? = u.valueTransfersUndo[id]? := by
  unfold reversedTrail at h
  unfold reverseCall
  dsimp only
  cases hsuccess : u.countsAsSuccess (crates.txid (.call call)) with
  | false =>
    rw [hsuccess] at h
    obtain rfl : f = u.getBalance := Option.some.inj h
    exact ⟨u, rfl, hu, rfl, fun _ _ => rfl⟩
  | true =>
    rw [hsuccess, if_pos rfl] at h
    rw [if_pos rfl]
    cases hrecord : u.valueTransfersUndo[crates.txid (.call call)]? with
    | some trail =>
      rw [hrecord] at h
      have hu' : Canonical { u with
        valueTransfersUndo := u.valueTransfersUndo.erase (crates.txid (.call call)) } :=
          hu.of_balances rfl
      obtain ⟨w, hw, hwc, hviews⟩ := reverse_trail hu' h
      have hundo : w.valueTransfersUndo = u.valueTransfersUndo.erase (crates.txid (.call call)) :=
        trail_views hviews
      refine ⟨w, hw, hwc, ?_, fun id hid => ?_⟩
      · rw [hundo, hviews]
        rfl
      · rw [hundo, HashMap.get?_erase, if_neg hid]
    | none =>
      rw [hrecord] at h
      obtain ⟨w, hw, hwc, hviews⟩ := reverse_trail hu h
      have hundo : w.valueTransfersUndo = u.valueTransfersUndo :=
        trail_views hviews
      refine ⟨w, hw, hwc, ?_, fun id _ => by rw [hundo]⟩
      rw [hundo, hviews]
      rfl

/-- **A call is taken back** when rollback reverses the trail that was committed and
finds the record of the slots that were written. -/
theorem unapplyCall_of_steps (hs : s.Canonical) (hcons : s.StorageConsistent crates.blake3)
    (hnonce : (s.getNonce call.sender).toNat + 1 < 2 ^ 64)
    (hcommit : (enterCall s call).commitValueTransfers (crates.txid (.call call)) trail = .ok s₁)
    (hflush : Flushed crates.blake3 s₁ t record) (hbalances : u.balances = t.balances)
    (hstorage : u.contractStorage = t.contractStorage)
    (hrecord : u.storageUndo[crates.txid (.call call)]? =
      if record.isEmpty then none else some record)
    (htrail : reversedTrail crates u (.call call) = trail) :
    ∃ v, unapplyCall crates u call = .ok v ∧ v.Same s ∧ v.receipts = u.receipts ∧
      SameUndoExcept (crates.txid (.call call)) v u := by
  have hu : u.Canonical := hflush.canonical.of_balances hbalances
  obtain ⟨hub, hun, huk⟩ := views_of_balances hbalances
  have henter : (enterCall s call).views = { s.views with
      nonce := update s.getNonce call.sender (s.getNonce call.sender + 1) } :=
    hs.views_setNonce _ _
  obtain ⟨-, hrun, hs₁⟩ := commitValueTransfers_views (hs.setNonce _ _) hcommit
  have hs₁kind : s₁.kind = s.kind :=
    (kind_views hs₁).trans (kind_views henter)
  have hs₁storage : s₁.contractStorage = s.contractStorage :=
    (storage_views hs₁).trans (storage_views henter)
  have hbalance : u.getBalance = s₁.getBalance :=
    hub.trans (balance_views hflush.frame)
  have hnonces : u.getNonce =
      update s.getNonce call.sender (s.getNonce call.sender + 1) :=
    hun.trans ((nonce_views hflush.frame).trans
      ((nonce_views hs₁).trans (nonce_views henter)))
  -- the nonce
  have hsub : checkedSub (u.getNonce call.sender) 1 = some (s.getNonce call.sender) := by
    rw [hnonces, update_self]
    exact checkedSub_succ hnonce
  have hu₁ : (u.setNonce call.sender (s.getNonce call.sender)).Canonical := hu.setNonce _ _
  have hu₁views := hu.views_setNonce call.sender (s.getNonce call.sender)
  generalize hu₁def : u.setNonce call.sender (s.getNonce call.sender) = u₁ at hu₁ hu₁views
  have hu₁nonce : u₁.getNonce = s.getNonce := by
    refine (nonce_views hu₁views).trans ?_
    simp [hnonces]
  -- the trail
  have htrail₁ : reversedTrail crates u₁ (.call call) = trail := by
    have hreceipts : u₁.receipts = u.receipts := receipts_views hu₁views
    have hundo : u₁.valueTransfersUndo = u.valueTransfersUndo :=
      trail_views hu₁views
    rw [← htrail, reversedTrail, reversedTrail, countsAsSuccess, countsAsSuccess,
      hreceipts, hundo]
  have hrun₁ : (reversedTrail crates u₁ (.call call)).foldlM moveFn s.getBalance =
      some u₁.getBalance := by
    have hb : u₁.getBalance = u.getBalance := balance_views hu₁views
    rw [htrail₁, hb, hbalance, ← hrun]
    exact congrArg (fun f => List.foldlM moveFn f trail) (getBalance_setNonce_eq _ _ _).symm
  obtain ⟨w, hw, hwc, hwviews, hwundo⟩ := reverse_call_trail hu₁ hrun₁
  -- the storage
  have hwstorageUndo : w.storageUndo = u.storageUndo :=
    (undo_views hwviews).trans (undo_views hu₁views)
  have hwstorage : w.contractStorage = t.contractStorage := by
    have h : w.contractStorage = u₁.contractStorage := storage_views hwviews
    rw [h, ← hstorage]
    exact storage_views hu₁views
  have hwkind : w.kind = t.kind := by
    have h : w.kind = u₁.kind := kind_views hwviews
    rw [h, ← huk]
    exact kind_views hu₁views
  rw [← hwstorageUndo] at hrecord
  obtain ⟨hvc, hvviews⟩ := unapplyCallStorage_of_flushed hflush
    (hcons.congr hs₁kind hs₁storage) hwc hwstorage hwkind hrecord
  refine ⟨w.unapplyCallStorage crates.blake3 (crates.txid (.call call)), ?_, ⟨?_, ?_⟩, ?_, ?_⟩
  · unfold unapplyCall
    refine bind_eq_ok.mpr ⟨_, okOr_eq_ok.mpr hsub, ?_⟩
    rw [hu₁def]
    exact bind_eq_ok.mpr ⟨w, hw, rfl⟩
  · refine balances_eq_of_views hvc hs ?_ ?_ ?_
    · exact (balance_views hvviews).trans (balance_views hwviews)
    · exact (nonce_views hvviews).trans ((nonce_views hwviews).trans hu₁nonce)
    · exact (kind_views hvviews).trans hs₁kind
  · exact (storage_views hvviews).trans hs₁storage
  · exact (receipts_views hvviews).trans ((receipts_views hwviews).trans
      (receipts_views hu₁views))
  · intro id hid
    have h₁ : (w.unapplyCallStorage crates.blake3 (crates.txid (.call call))).storageUndo =
        w.storageUndo.erase (crates.txid (.call call)) := undo_views hvviews
    have h₂ : (w.unapplyCallStorage crates.blake3 (crates.txid (.call call))).valueTransfersUndo =
        w.valueTransfersUndo := trail_views hvviews
    have h₃ : u₁.valueTransfersUndo = u.valueTransfersUndo :=
      trail_views hu₁views
    rw [h₁, h₂, hwstorageUndo, HashMap.get?_erase, if_neg hid, hwundo id hid, h₃]
    exact ⟨rfl, rfl⟩

/-! ### Creations -/

/-- Removing a deployed contract and lowering its creator's nonce gives back a state
in which the address was free and which agrees everywhere else. -/
theorem remove_deployed {s w : State} {address sender : String} (hs : s.Canonical)
    (hw : w.Canonical) (hvacant : s.balances[address]? = none)
    (hfree : s.contractStorage[address]? = none)
    (hbalance : ∀ a, a ≠ address → w.getBalance a = s.getBalance a)
    (hnonce : ∀ a, a ≠ address → a ≠ sender → w.getNonce a = s.getNonce a)
    (hkind : ∀ a, a ≠ address → w.kind a = s.kind a)
    (hstorage : ∀ a : String, a ≠ address → w.contractStorage[a]? = s.contractStorage[a]?) :
    ∃ v, setNonce { w.setAccount address Account.default with
        contractStorage := (w.setAccount address Account.default).contractStorage.erase address }
          sender (s.getNonce sender) = v ∧
      v.Same s ∧ v.receipts = w.receipts ∧ v.storageUndo = w.storageUndo ∧
      v.valueTransfersUndo = w.valueTransfersUndo := by
  have hremoved := w.views_setAccount address Account.coded_default
  have hcanonical : Canonical { w.setAccount address Account.default with
      contractStorage := (w.setAccount address Account.default).contractStorage.erase address } :=
    (hw.setAccount address Account.coded_default).of_balances rfl
  have hviews := hcanonical.views_setNonce sender (s.getNonce sender)
  have hsb : s.getBalance address = 0 := by rw [getBalance, hvacant]; rfl
  have hsn : s.getNonce address = 0 := by rw [getNonce, hvacant]; rfl
  have hsk : s.kind address = none := by rw [kind, account, hvacant]; rfl
  refine ⟨_, rfl, ⟨?_, ?_⟩, ?_, ?_, ?_⟩
  · refine balances_eq_of_views (hcanonical.setNonce _ _) hs ?_ ?_ ?_
    · refine (balance_views hviews).trans ((balance_views hremoved).trans ?_)
      funext a
      change update w.getBalance address 0 a = s.getBalance a
      rw [update_apply]
      split
      · rename_i ha
        rw [ha, hsb]
      · rename_i ha
        exact hbalance a ha
    · refine (nonce_views hviews).trans ?_
      have hn : getNonce { w.setAccount address Account.default with
          contractStorage := (w.setAccount address Account.default).contractStorage.erase address } =
          update w.getNonce address 0 := nonce_views hremoved
      change update (getNonce _) sender (s.getNonce sender) = s.getNonce
      rw [hn]
      funext a
      rw [update_apply, update_apply]
      split
      · rename_i ha
        rw [ha]
      · split
        · rename_i ha
          rw [ha, hsn]
        · rename_i hsender haddress
          exact hnonce a haddress hsender
    · refine (kind_views hviews).trans ((kind_views hremoved).trans ?_)
      funext a
      change update w.kind address none a = s.kind a
      rw [update_apply]
      split
      · rename_i ha
        rw [ha, hsk]
      · rename_i ha
        exact hkind a ha
  · refine (storage_views hviews).trans ?_
    change (w.setAccount address Account.default).contractStorage.erase address = s.contractStorage
    apply HashMap.ext_get?
    intro a
    rw [contractStorage_setAccount, HashMap.get?_erase]
    split
    · rename_i ha
      rw [ha, hfree]
    · rename_i ha
      exact hstorage a ha
  · exact (receipts_views hviews).trans (receipts_views hremoved)
  · exact (undo_views hviews).trans (undo_views hremoved)
  · exact (trail_views hviews).trans
      (trail_views hremoved)

variable {create : CreateTx}

variable {g : String → UInt64}

/-- The middle of taking a creation back: its trail and the endowment are reversed.
`x` is what was debited from the creator. -/
theorem reverse_create_trail {v : State} {wasSuccess : Bool} {x : UInt64} (hv : v.Canonical)
    (hx : x = if wasSuccess then create.endowment else 0)
    (htrail : (if wasSuccess then
      v.valueTransfersUndo[crates.txid (.create create)]?.getD [] else []) = trail)
    (hdebit : debitFn f create.sender x = some g) (hrun : trail.foldlM moveFn g = some v.getBalance) :
    ∃ w, reverseCreate crates v create wasSuccess = .ok w ∧ w.Canonical ∧
      w.views = { v.views with
        balance := f
        valueTransfersUndo := v.valueTransfersUndo.erase (crates.txid (.create create)) } := by
  have hv' : Canonical { v with
      valueTransfersUndo := v.valueTransfersUndo.erase (crates.txid (.create create)) } :=
    hv.of_balances rfl
  have hcredit := creditFn_iff_debitFn.mpr hdebit
  unfold reverseCreate
  dsimp only
  cases wasSuccess with
  | true =>
    rw [if_pos rfl] at hx htrail
    rw [hx] at hcredit
    rw [htrail, if_pos rfl]
    obtain ⟨m, hm, hmc, hmviews⟩ := reverse_trail hv' hrun
    have hmbalance : m.getBalance = g := balance_views hmviews
    rw [← hmbalance] at hcredit
    obtain ⟨w, hw, hwc, hwviews⟩ :=
      (actsAs_credit CreateTx.sender CreateTx.endowment create).apply hmc hcredit
    refine ⟨w, bind_eq_ok.mpr ⟨m, hm, hw⟩, hwc, ?_⟩
    have hmnonce : m.getNonce = v.getNonce := nonce_views hmviews
    rw [hwviews, hmnonce, hmviews]
    rfl
  | false =>
    rw [if_neg Bool.false_ne_true] at hx htrail
    rw [hx, creditFn_zero] at hcredit
    obtain rfl : g = f := Option.some.inj hcredit
    rw [← htrail] at hrun
    obtain rfl : g = v.getBalance := Option.some.inj hrun
    exact ⟨_, rfl, hv', rfl⟩

variable {address : String}

/-- Taking a creation back, given what reversing its storage writes leaves. -/
theorem unapplyCreate_of_restored {v : State} {x : UInt64} {g : String → UInt64} (hs : s.Canonical)
    (hnonce : (s.getNonce create.sender).toNat + 1 < 2 ^ 64)
    (haddress : crates.deriveContractAddress create.sender (s.getNonce create.sender) chainId =
      .ok address) (hvacant : s.balances[address]? = none)
    (hfree : s.contractStorage[address]? = none)
    (hunonce : u.getNonce create.sender = s.getNonce create.sender + 1)
    (hothers : ∀ a, a ≠ address → a ≠ create.sender → u.getNonce a = s.getNonce a)
    (hv : v.Canonical)
    (hdef : u.unapplyCallStorage crates.blake3 (crates.txid (.create create)) = v)
    (hviews : v.views = { u.views with
      kind := v.kind, storage := v.contractStorage, storageUndo := v.storageUndo })
    (hundo : ∀ id, id ≠ crates.txid (.create create) → v.storageUndo[id]? = u.storageUndo[id]?)
    (hkind : ∀ a, a ≠ address → v.kind a = s.kind a)
    (hstorage : ∀ a : String, a ≠ address → v.contractStorage[a]? = s.contractStorage[a]?)
    (hx : x = if u.countsAsSuccess (crates.txid (.create create)) then create.endowment else 0)
    (htrail : reversedTrail crates u (.create create) = trail)
    (hbalance : ∀ a, a ≠ address → f a = s.getBalance a)
    (hdebit : debitFn f create.sender x = some g) (hrun : trail.foldlM moveFn g = some u.getBalance) :
    ∃ t, unapplyCreate crates u create chainId = .ok t ∧ t.Same s ∧ t.receipts = u.receipts ∧
      SameUndoExcept (crates.txid (.create create)) t u := by
  have hvundo : v.valueTransfersUndo = u.valueTransfersUndo :=
    trail_views hviews
  have hvbalance : v.getBalance = u.getBalance := balance_views hviews
  rw [← hvbalance] at hrun
  have htrail' : (if u.countsAsSuccess (crates.txid (.create create)) then
      v.valueTransfersUndo[crates.txid (.create create)]?.getD [] else []) = trail := by
    rw [hvundo]
    exact htrail
  obtain ⟨w, hw, hwc, hwviews⟩ := reverse_create_trail hv hx htrail' hdebit hrun
  have hwbalance : w.getBalance = f := balance_views hwviews
  have hwnonce : w.getNonce = u.getNonce :=
    (nonce_views hwviews : w.getNonce = v.getNonce).trans (nonce_views hviews)
  have hwkind : w.kind = v.kind := kind_views hwviews
  have hwstorage : w.contractStorage = v.contractStorage := storage_views hwviews
  obtain ⟨t, ht, hsame, hreceipts, hstorageUndo, htrailUndo⟩ :=
    @remove_deployed s w address create.sender hs hwc hvacant hfree
      (fun a ha => by rw [hwbalance, hbalance a ha])
      (fun a ha hsender => by rw [hwnonce, hothers a ha hsender])
      (fun a ha => by rw [hwkind, hkind a ha])
      (fun a ha => by rw [hwstorage, hstorage a ha])
  refine ⟨t, ?_, hsame, ?_, ?_⟩
  · have hsub : checkedSub (u.getNonce create.sender) 1 = some (s.getNonce create.sender) := by
      rw [hunonce]
      exact checkedSub_succ hnonce
    unfold unapplyCreate
    refine bind_eq_ok.mpr ⟨_, okOr_eq_ok.mpr hsub, ?_⟩
    refine bind_eq_ok.mpr ⟨address, haddress, ?_⟩
    rw [hdef]
    refine bind_eq_ok.mpr ⟨w, hw, ?_⟩
    rw [← ht]
    rfl
  · rw [hreceipts]
    exact (receipts_views hwviews).trans (receipts_views hviews)
  · intro id hid
    have hws : w.storageUndo = v.storageUndo := undo_views hwviews
    have hwt : w.valueTransfersUndo =
        v.valueTransfersUndo.erase (crates.txid (.create create)) :=
      trail_views hwviews
    rw [hstorageUndo, htrailUndo, hws, hwt, hundo id hid, HashMap.get?_erase, if_neg hid, hvundo]
    exact ⟨rfl, rfl⟩

/-- The account a creation installs has a kind of its own. -/
theorem deployedAccount_coded (hhash : crates.blake3 create.initCode ≠ zeroDigest) :
    (deployedAccount crates create).Coded := by
  intro k hk
  obtain rfl := Option.some.inj hk
  exact hhash

theorem installCreate_views (address : String) (hs : s.Canonical)
    (hhash : crates.blake3 create.initCode ≠ zeroDigest) :
    (installCreate crates s create address).Canonical ∧
      (installCreate crates s create address).views = { s.views with
        balance := update s.getBalance address create.endowment
        nonce := update (update s.getNonce address 1) create.sender
          (s.getNonce create.sender + 1)
        kind := update s.kind address
          (some (crates.blake3 create.initCode, zeroDigest)) } := by
  have hcoded := deployedAccount_coded hhash
  have hdeployed := s.views_setAccount address hcoded
  have hcanonical := hs.setAccount address hcoded
  refine ⟨hcanonical.setNonce _ _, ?_⟩
  have hnonce : (s.setAccount address (deployedAccount crates create)).getNonce =
      update s.getNonce address 1 := nonce_views hdeployed
  unfold installCreate
  rw [hcanonical.views_setNonce, hdeployed, hnonce]
  rfl

/-- A failed creation leaves the nonce consumed and the address empty. -/
theorem failedCreate_views (address : String) (hs : s.Canonical)
    (hhash : crates.blake3 create.initCode ≠ zeroDigest) :
    ((installCreate crates s create address).setAccount address Account.default).Canonical ∧
      ((installCreate crates s create address).setAccount address Account.default).views =
        { s.views with
          balance := update s.getBalance address 0
          nonce := update (update (update s.getNonce address 1)
            create.sender (s.getNonce create.sender + 1)) address 0
          kind := update s.kind address none } := by
  obtain ⟨hinstall, hiviews⟩ := installCreate_views address hs hhash
  refine ⟨hinstall.setAccount address Account.coded_default, ?_⟩
  have hbalance : (installCreate crates s create address).getBalance =
      update s.getBalance address create.endowment := balance_views hiviews
  have hnonce : (installCreate crates s create address).getNonce =
      update (update s.getNonce address 1) create.sender
        (s.getNonce create.sender + 1) := nonce_views hiviews
  have hkind : (installCreate crates s create address).kind = update s.kind address
      (some (crates.blake3 create.initCode, zeroDigest)) := kind_views hiviews
  rw [views_setAccount _ _ Account.coded_default, hbalance, hnonce, hkind, hiviews,
    update_idem, update_idem]
  rfl

theorem installCreate_consistent (hs : s.Canonical)
    (hhash : crates.blake3 create.initCode ≠ zeroDigest) (hcons : s.StorageConsistent crates.blake3)
    (hfree : s.contractStorage[address]? = none) :
    (installCreate crates s create address).StorageConsistent crates.blake3 := by
  have hviews := (installCreate_views address hs hhash).2
  have hstorage : (installCreate crates s create address).contractStorage = s.contractStorage :=
    storage_views hviews
  have hkind : (installCreate crates s create address).kind = update s.kind address
      (some (crates.blake3 create.initCode, zeroDigest)) := kind_views hviews
  constructor
  · intro a m hm
    exact hcons.nonempty a m (hstorage ▸ hm)
  · intro a k hk
    rw [hkind, update_apply] at hk
    rw [hstorage]
    split at hk
    · rename_i ha
      obtain rfl := Option.some.inj hk
      rw [storageRootOf, ha, hfree]
      rfl
    · exact hcons.root a k hk

variable {result : ExecutionResult}

/-- A successful creation: install, flush, debit the endowment, commit the trail. -/
theorem createOk_steps (hs : s.Canonical) (hhash : crates.blake3 create.initCode ≠ zeroDigest)
    (hdebit : ((installCreate crates s create address).flushStorageWrites crates.blake3 result
      (crates.txid (.create create))).debit create.sender create.endowment = .ok s₁)
    (hcommit : s₁.commitValueTransfers (crates.txid (.create create)) result.valueTransfers =
      .ok s') :
    ∃ t record g, Flushed crates.blake3 (installCreate crates s create address) t record ∧
      debitFn (installCreate crates s create address).getBalance create.sender create.endowment =
        some g ∧
      result.valueTransfers.foldlM moveFn g = some s'.getBalance ∧ s'.Canonical ∧
      s'.views = { t.views with
        balance := s'.getBalance
        storageUndo := keepRecord t.storageUndo (crates.txid (.create create)) record
        valueTransfersUndo := keepRecord t.valueTransfersUndo (crates.txid (.create create))
          result.valueTransfers } := by
  have hinstall := (installCreate_views address hs hhash).1
  have hflush := flushed crates.blake3 result hinstall
  rw [flushStorageWrites_eq] at hdebit
  generalize flushState crates.blake3 (installCreate crates s create address) result = t
    at hdebit hflush
  generalize flushRecord crates.blake3 (installCreate crates s create address) result = record
    at hdebit hflush
  have hcanonical : Canonical { t with
      storageUndo := keepRecord t.storageUndo (crates.txid (.create create)) record } :=
    hflush.canonical.of_balances rfl
  obtain ⟨hfn, hs₁, hs₁views⟩ :=
    (actsAs_debit CreateTx.sender CreateTx.endowment create).effect hcanonical hdebit
  obtain ⟨hs', hrun, hs'views⟩ := commitValueTransfers_views hs₁ hcommit
  refine ⟨t, record, s₁.getBalance, hflush, ?_, hrun, hs', ?_⟩
  · have hb : t.getBalance = (installCreate crates s create address).getBalance :=
      balance_views hflush.frame
    rw [← hb]
    exact hfn
  · have hundo : s₁.valueTransfersUndo = t.valueTransfersUndo :=
      trail_views hs₁views
    rw [hs'views, hundo, hs₁views]
    rfl

variable (crates chainId) in
/-- The address a creation deploys to is unused. -/
def DeployFresh (s : State) (create : CreateTx) : Prop :=
  ∀ address, crates.deriveContractAddress create.sender (s.getNonce create.sender) chainId =
    .ok address →
    address ≠ create.sender ∧ s.balances[address]? = none ∧ s.contractStorage[address]? = none

instance {s : State} {create : CreateTx} : Decidable (DeployFresh crates chainId s create) :=
  inferInstanceAs (Decidable (∀ _, _ → _))

variable (crates chainId) in
/-- What the state before a transaction must satisfy for its effect to be
reversible: the nonce does not wrap, and a creation deploys real code to an unused
address. -/
def Invertible (s : State) : Transaction → Prop
  | .transfer _ => True
  | .create create => (s.getNonce create.sender).toNat + 1 < 2 ^ 64 ∧
      crates.blake3 create.initCode ≠ zeroDigest ∧ DeployFresh crates chainId s create
  | .call call => (s.getNonce call.sender).toNat + 1 < 2 ^ 64

instance {s : State} : ∀ {tx : Transaction}, Decidable (Invertible crates chainId s tx)
  | .transfer _ => .isTrue trivial
  | .create _ => inferInstanceAs (Decidable (_ ∧ _ ∧ _))
  | .call _ => inferInstanceAs (Decidable (_ < _))

variable (crates chainId) in
/-- Rollback finds the storage record of a transaction, or none where only the
storage of the contract it deployed was written. -/
def RecordFound (s s' u : State) (tx : Transaction) : Prop :=
  u.storageUndo[crates.txid tx]? = s'.storageUndo[crates.txid tx]? ∨
    u.storageUndo[crates.txid tx]? = none ∧ ∃ create, tx = .create create ∧
      ∀ record, s'.storageUndo[crates.txid tx]? = some record →
        ∀ a ∈ State.recorded record,
          crates.deriveContractAddress create.sender (s.getNonce create.sender) chainId = .ok a

theorem unapplyCallStorage_of_none {txid : Digest} (h : u.storageUndo[txid]? = none) :
    u.unapplyCallStorage crates.blake3 txid = u := by
  unfold unapplyCallStorage
  rw [h]

/-- Reversing the storage writes of a creation, from the record or from nothing:
outside the deployed address everything is as before the writes. -/
theorem restored_outside {i : State} (hicons : i.StorageConsistent crates.blake3)
    (hflush : Flushed crates.blake3 i t record) (hu : u.Canonical)
    (hstorage : u.contractStorage = t.contractStorage) (hkind : u.kind = t.kind)
    (haddress : crates.deriveContractAddress create.sender (s.getNonce create.sender) chainId =
      .ok address)
    (hs' : s'.storageUndo[crates.txid (.create create)]? =
      if record.isEmpty then none else some record)
    (hrecord : RecordFound crates chainId s s' u (.create create)) :
    ∃ v, u.unapplyCallStorage crates.blake3 (crates.txid (.create create)) = v ∧ v.Canonical ∧
      v.views = { u.views with
        kind := v.kind, storage := v.contractStorage, storageUndo := v.storageUndo } ∧
      (∀ id, id ≠ crates.txid (.create create) → v.storageUndo[id]? = u.storageUndo[id]?) ∧
      (∀ a, a ≠ address → v.kind a = i.kind a) ∧
      ∀ a : String, a ≠ address → v.contractStorage[a]? = i.contractStorage[a]? := by
  rcases hrecord with hfound | ⟨hnone, create', hcreate, hown⟩
  · obtain ⟨hv, hviews⟩ := unapplyCallStorage_of_flushed hflush hicons hu hstorage hkind
      (hfound.trans hs')
    generalize u.unapplyCallStorage crates.blake3 (crates.txid (.create create)) = v at hv hviews
    have hvkind : v.kind = i.kind := kind_views hviews
    have hvstorage : v.contractStorage = i.contractStorage := storage_views hviews
    have hvundo : v.storageUndo = u.storageUndo.erase (crates.txid (.create create)) :=
      undo_views hviews
    refine ⟨v, rfl, hv, ?_, ?_, fun a _ => by rw [hvkind], fun a _ => by rw [hvstorage]⟩
    · rw [hvkind, hvstorage, hvundo, hviews]
      rfl
    · intro id hid
      rw [hvundo, HashMap.get?_erase, if_neg hid]
  · obtain rfl := Transaction.create.inj hcreate
    have houtside : ∀ a, a ≠ address → a ∉ recorded record := by
      intro a ha hmem
      cases hempty : record.isEmpty with
      | true =>
        rw [List.isEmpty_iff.mp hempty] at hmem
        cases hmem
      | false =>
        rw [hempty, if_neg Bool.false_ne_true] at hs'
        exact ha (Except.ok.inj ((hown record hs' a hmem).symm.trans haddress))
    refine ⟨u, unapplyCallStorage_of_none hnone, hu, rfl, fun _ _ => rfl, ?_, ?_⟩
    · intro a ha
      rw [hkind]
      exact (hflush.outside a (houtside a ha)).2
    · intro a ha
      rw [hstorage]
      exact (hflush.outside a (houtside a ha)).1

/-- **A successful creation is taken back.** -/
theorem unapplyCreate_of_createOk (hs : s.Canonical) (hcons : s.StorageConsistent crates.blake3)
    (hinput : Invertible crates chainId s (.create create))
    (hfresh : s.storageUndo[crates.txid (.create create)]? = none)
    (haddress : crates.deriveContractAddress create.sender (s.getNonce create.sender) chainId =
      .ok address)
    (hdebit : ((installCreate crates s create address).flushStorageWrites crates.blake3 result
      (crates.txid (.create create))).debit create.sender create.endowment = .ok s₁)
    (hcommit : s₁.commitValueTransfers (crates.txid (.create create)) result.valueTransfers =
      .ok s') (hsame : u.Same s')
    (hsuccess : create.endowment = 0 ∨
      u.countsAsSuccess (crates.txid (.create create)) = true)
    (htrail : reversedTrail crates u (.create create) = result.valueTransfers)
    (hrecord : RecordFound crates chainId s s' u (.create create)) :
    ∃ t, unapplyCreate crates u create chainId = .ok t ∧ t.Same s ∧ t.receipts = u.receipts ∧
      SameUndoExcept (crates.txid (.create create)) t u := by
  obtain ⟨hnonce, hhash, hdeploy⟩ := hinput
  obtain ⟨hub, hun, huk⟩ := views_of_balances hsame.1
  obtain ⟨hsender, hvacant, hfree⟩ := hdeploy address haddress
  obtain ⟨hinstall, hiviews⟩ := installCreate_views address hs hhash
  have hicons := installCreate_consistent hs hhash hcons hfree
  obtain ⟨t, record, g, hflush, hfn, hrun, hs', hs'views⟩ := createOk_steps hs hhash hdebit hcommit
  generalize installCreate crates s create address = i at hinstall hiviews hicons hflush hfn
  have hu : u.Canonical := hs'.of_balances hsame.1
  -- what the state after the creation is, in terms of the state before it
  have htundo : t.storageUndo = s.storageUndo :=
    (undo_views hflush.frame).trans (undo_views hiviews)
  have hs'undo : s'.storageUndo[crates.txid (.create create)]? =
      if record.isEmpty then none else some record := by
    have h : s'.storageUndo = keepRecord t.storageUndo (crates.txid (.create create)) record :=
      undo_views hs'views
    rw [h, htundo, keepRecord_self, hfresh]
  have hustorage : u.contractStorage = t.contractStorage :=
    hsame.2.trans (storage_views hs'views)
  have hukind : u.kind = t.kind := huk.trans (kind_views hs'views)
  have hunonce : u.getNonce = update (update s.getNonce address 1) create.sender
      (s.getNonce create.sender + 1) :=
    hun.trans ((nonce_views hs'views).trans
      ((nonce_views hflush.frame).trans (nonce_views hiviews)))
  have hibalance : i.getBalance = update s.getBalance address create.endowment :=
    balance_views hiviews
  have hikind : i.kind = update s.kind address
      (some (crates.blake3 create.initCode, zeroDigest)) := kind_views hiviews
  have historage : i.contractStorage = s.contractStorage := storage_views hiviews
  obtain ⟨v, hdef, hv, hvviews, hvundo, hvkind, hvstorage⟩ :=
    restored_outside hicons hflush hu hustorage hukind haddress hs'undo hrecord
  refine unapplyCreate_of_restored hs hnonce haddress hvacant hfree ?_ ?_ hv hdef hvviews hvundo
    (fun a ha => ?_) (fun a ha => ?_) (x := create.endowment) ?_ htrail (fun a ha => ?_) hfn ?_
  · rw [hunonce, update_self]
  · intro a ha hs
    rw [hunonce, update_of_ne hs, update_of_ne ha]
  · rw [hvkind a ha, hikind, update_of_ne ha]
  · rw [hvstorage a ha, historage]
  · rcases hsuccess with hzero | hcounts
    · rw [hzero]
      split <;> rfl
    · rw [hcounts, if_pos rfl]
  · rw [hibalance, update_of_ne ha]
  · rw [hub]
    exact hrun

/-- **A failed creation is taken back.** -/
theorem unapplyCreate_of_createFailed (hs : s.Canonical)
    (hinput : Invertible crates chainId s (.create create))
    (haddress : crates.deriveContractAddress create.sender (s.getNonce create.sender) chainId =
      .ok address)
    (hsame : u.Same ((installCreate crates s create address).setAccount address Account.default))
    (hsuccess : create.endowment = 0 ∨
      u.countsAsSuccess (crates.txid (.create create)) = false)
    (htrail : reversedTrail crates u (.create create) = [])
    (hrecord : u.storageUndo[crates.txid (.create create)]? = none) :
    ∃ t, unapplyCreate crates u create chainId = .ok t ∧ t.Same s ∧ t.receipts = u.receipts ∧
      SameUndoExcept (crates.txid (.create create)) t u := by
  obtain ⟨hnonce, hhash, hdeploy⟩ := hinput
  obtain ⟨hub, hun, huk⟩ := views_of_balances hsame.1
  obtain ⟨hsender, hvacant, hfree⟩ := hdeploy address haddress
  obtain ⟨hcanonical, hviews⟩ := failedCreate_views address hs hhash
  have hu : u.Canonical := hcanonical.of_balances hsame.1
  have hubalance : u.getBalance = update s.getBalance address 0 :=
    hub.trans (balance_views hviews)
  have hunonce : u.getNonce = update (update (update s.getNonce address 1)
      create.sender (s.getNonce create.sender + 1)) address 0 :=
    hun.trans (nonce_views hviews)
  have hukind : u.kind = update s.kind address none :=
    huk.trans (kind_views hviews)
  have hustorage : u.contractStorage = s.contractStorage :=
    hsame.2.trans (storage_views hviews)
  refine unapplyCreate_of_restored hs hnonce haddress hvacant hfree ?_ ?_ hu
    (unapplyCallStorage_of_none hrecord) rfl (fun _ _ => rfl) (fun a ha => ?_) (fun a ha => ?_)
    (x := 0) ?_ htrail (fun a ha => ?_) (creditFn_iff_debitFn.mp (creditFn_zero u.getBalance _)) rfl
  · rw [hunonce, update_of_ne hsender.symm, update_self]
  · intro a ha hs
    rw [hunonce, update_of_ne ha, update_of_ne hs, update_of_ne ha]
  · rw [hukind, update_of_ne ha]
  · rw [hustorage]
  · rcases hsuccess with hzero | hcounts
    · rw [hzero]
      split <;> rfl
    · rw [hcounts, if_neg Bool.false_ne_true]
  · rw [hubalance, update_of_ne ha]

/-! ### Any transaction -/

theorem unapplyTransfer_of_apply {tx : TransferTx} (hs : s.Canonical)
    (hflag : tx.isCoinbase = false) (happly : applyTransfer s tx = .ok s') (hsame : u.Same s') :
    ∃ t, unapplyTransfer u tx = .ok t ∧ t.Same s ∧ t.receipts = u.receipts ∧
      ∀ txid, SameUndoExcept txid t u := by
  obtain ⟨hfn, hs', hviews⟩ := (actsAs_applyTransfer tx).effect hs happly
  obtain ⟨hub, hun, huk⟩ := views_of_balances hsame.1
  have hback : unmoveFn u.getBalance tx.move = some s.getBalance := by
    rw [hub]
    exact moveFn_iff_unmoveFn.mp hfn
  obtain ⟨t, ht, htc, htviews⟩ :=
    (actsAs_unapplyTransfer hflag).apply (hs'.of_balances hsame.1) hback
  have hnonce : t.getNonce = s.getNonce := by
    have h : t.getNonce = unbumpNonce u.getNonce tx := nonce_views htviews
    have h' : s'.getNonce = bumpNonce s.getNonce tx := nonce_views hviews
    rw [h, hun, h', unbumpNonce_bumpNonce]
  have hkind : t.kind = s.kind :=
    (kind_views htviews : t.kind = u.kind).trans
      (huk.trans (kind_views hviews))
  have hstorage : t.contractStorage = s.contractStorage :=
    (storage_views htviews : t.contractStorage = u.contractStorage).trans
      (hsame.2.trans (storage_views hviews))
  refine ⟨t, ht, ⟨?_, hstorage⟩, receipts_views htviews, fun txid id _ => ?_⟩
  · exact balances_eq_of_views htc hs (balance_views htviews) hnonce hkind
  · have h₁ : t.storageUndo = u.storageUndo := undo_views htviews
    have h₂ : t.valueTransfersUndo = u.valueTransfersUndo :=
      trail_views htviews
    rw [h₁, h₂]
    exact ⟨rfl, rfl⟩

/-- **Any transaction is taken back**, when rollback reverses what was committed and
finds what was recorded. -/
theorem unapplyTx_of_effect (heffect : TxEffect crates chainId s tx frame s') (hs : s.Canonical)
    (hcons : s.StorageConsistent crates.blake3) (hinput : Invertible crates chainId s tx)
    (hfresh : s.storageUndo[crates.txid tx]? = none) (hsame : u.Same s')
    (hsuccess : ∀ create, tx = .create create → create.endowment = 0 ∨
      u.countsAsSuccess (crates.txid tx) = frameSucceeds frame)
    (htrail : reversedTrail crates u tx = committedTrail tx frame)
    (hrecord : RecordFound crates chainId s s' u tx) :
    ∃ t, unapplyTx crates chainId u tx = .ok t ∧ t.Same s ∧ t.receipts = u.receipts ∧
      SameUndoExcept (crates.txid tx) t u := by
  cases tx with
  | transfer tx =>
    cases heffect with
    | transfer hflag happly =>
      obtain ⟨t, ht, htsame, hreceipts, hundo⟩ := unapplyTransfer_of_apply hs hflag happly hsame
      exact ⟨t, ht, htsame, hreceipts, hundo _⟩
  | create create =>
    replace hsuccess := hsuccess create rfl
    cases heffect with
    | createOk haddress hcontract hfunds hstatus hdebit hcommit =>
      rename_i result
      have hframe : frameSucceeds (some (.ok result)) = true := by
        simpa [frameSucceeds] using hstatus
      have hcommitted : committedTrail (.create create) (some (.ok result)) =
          result.valueTransfers := if_pos hstatus
      rw [hframe] at hsuccess
      exact unapplyCreate_of_createOk hs hcons hinput hfresh haddress hdebit hcommit hsame hsuccess
        (htrail.trans hcommitted) hrecord
    | createFailed haddress hcontract hfunds hfailed =>
      rename_i address outcome
      have hviews := (failedCreate_views address hs hinput.2.1).2
      have hundo : ((installCreate crates s create address).setAccount address
          Account.default).storageUndo = s.storageUndo := undo_views hviews
      have hnone : u.storageUndo[crates.txid (.create create)]? = none := by
        rcases hrecord with hfound | ⟨hnone, -⟩
        · rw [hfound, hundo, hfresh]
        · exact hnone
      rw [hfailed] at hsuccess
      exact unapplyCreate_of_createFailed hs hinput haddress hsame hsuccess
        (htrail.trans (committedTrail_of_failed hfailed)) hnone
  | call call =>
    obtain ⟨s₁, t, record, hcommit, hflush, rfl⟩ := call_steps hs heffect
    have hundo : t.storageUndo = s.storageUndo := call_storageUndo hs hcommit hflush
    have hlookup : u.storageUndo[crates.txid (.call call)]? =
        if record.isEmpty then none else some record := by
      rcases hrecord with hfound | ⟨-, create, hcreate, -⟩
      · rw [hfound]
        refine (keepRecord_self _ _ _).trans ?_
        rw [hundo, hfresh]
      · cases hcreate
    exact unapplyCall_of_steps hs hcons hinput hcommit hflush hsame.1 hsame.2 hlookup htrail

/-! ### What a transaction keeps -/

/-- **Invariants of one transaction**: the state stays canonical and its storage
consistent, and only the records under the transaction's id change. -/
theorem effect_invariants (heffect : TxEffect crates chainId s tx frame s') (hs : s.Canonical)
    (hcons : s.StorageConsistent crates.blake3) (hinput : Invertible crates chainId s tx) :
    s'.Canonical ∧ s'.StorageConsistent crates.blake3 ∧ SameUndoExcept (crates.txid tx) s' s ∧
      s'.valueTransfersUndo[crates.txid tx]? =
        if (committedTrail tx frame).isEmpty then s.valueTransfersUndo[crates.txid tx]?
        else some (committedTrail tx frame) := by
  cases tx with
  | transfer tx =>
    cases heffect with
    | transfer hflag happly =>
      obtain ⟨-, hs', hviews⟩ := (actsAs_applyTransfer tx).effect hs happly
      have hundo : s'.storageUndo = s.storageUndo := undo_views hviews
      have htrail : s'.valueTransfersUndo = s.valueTransfersUndo :=
        trail_views hviews
      refine ⟨hs', hcons.congr (kind_views hviews) (storage_views hviews), ?_, ?_⟩
      · intro id _
        rw [hundo, htrail]
        exact ⟨rfl, rfl⟩
      · rw [htrail]
        rfl
  | create create =>
    obtain ⟨-, hhash, hdeploy⟩ := hinput
    cases heffect with
    | createOk haddress hcontract hfunds hstatus hdebit hcommit =>
      rename_i s₁ address result
      have hicons := installCreate_consistent hs hhash hcons (hdeploy address haddress).2.2
      have hiviews := (installCreate_views address hs hhash).2
      obtain ⟨t, record, g, hflush, -, -, hs', hviews⟩ := createOk_steps hs hhash hdebit hcommit
      have hcommitted : committedTrail (.create create) (some (.ok result)) =
          result.valueTransfers := if_pos hstatus
      have hundo : t.storageUndo = s.storageUndo :=
        (undo_views hflush.frame).trans (undo_views hiviews)
      have htrail : t.valueTransfersUndo = s.valueTransfersUndo :=
        (trail_views hflush.frame).trans
          (trail_views hiviews)
      have hsu : s'.storageUndo =
          keepRecord t.storageUndo (crates.txid (.create create)) record :=
        undo_views hviews
      have hvt : s'.valueTransfersUndo =
          keepRecord t.valueTransfersUndo (crates.txid (.create create)) result.valueTransfers :=
        trail_views hviews
      refine ⟨hs', (hflush.consistent hicons).congr (kind_views hviews)
        (storage_views hviews), fun id hid => ?_, ?_⟩
      · rw [hsu, hvt, keepRecord_of_ne _ _ _ hid, keepRecord_of_ne _ _ _ hid, hundo, htrail]
        exact ⟨rfl, rfl⟩
      · rw [hcommitted, hvt, keepRecord_self, htrail]
    | createFailed haddress hcontract hfunds hfailed =>
      rename_i address outcome
      obtain ⟨hs', hviews⟩ := failedCreate_views address hs hhash
      generalize (installCreate crates s create address).setAccount address Account.default = s'
        at hs' hviews
      have hundo : s'.storageUndo = s.storageUndo := undo_views hviews
      have htrail : s'.valueTransfersUndo = s.valueTransfersUndo :=
        trail_views hviews
      have hkind : s'.kind = update s.kind address none := kind_views hviews
      have hstorage : s'.contractStorage = s.contractStorage := storage_views hviews
      refine ⟨hs', ⟨?_, ?_⟩, fun id _ => ?_, ?_⟩
      · intro a m hm
        exact hcons.nonempty a m (hstorage ▸ hm)
      · intro a k hk
        rw [hkind, update_apply] at hk
        rw [hstorage]
        split at hk
        · cases hk
        · exact hcons.root a k hk
      · rw [hundo, htrail]
        exact ⟨rfl, rfl⟩
      · rw [htrail, committedTrail_of_failed hfailed]
        rfl
  | call call =>
    obtain ⟨s₁, t, record, hcommit, hflush, rfl⟩ := call_steps hs heffect
    have hundo := call_storageUndo hs hcommit hflush
    have hs₁ := (commitValueTransfers_views (hs.setNonce _ _) hcommit).2.2
    have henter := hs.views_setNonce call.sender (s.getNonce call.sender + 1)
    have hkind : s₁.kind = s.kind := (kind_views hs₁).trans (kind_views henter)
    have hstorage : s₁.contractStorage = s.contractStorage :=
      (storage_views hs₁).trans (storage_views henter)
    have htrail : t.valueTransfersUndo = keepRecord s.valueTransfersUndo (crates.txid (.call call))
        (committedTrail (.call call) frame) := by
      have h₁ : t.valueTransfersUndo = s₁.valueTransfersUndo :=
        trail_views hflush.frame
      have h₂ : (enterCall s call).valueTransfersUndo = s.valueTransfersUndo :=
        trail_views henter
      rw [h₁, ← h₂]
      exact trail_views hs₁
    refine ⟨hflush.canonical.of_balances rfl,
      (hflush.consistent (hcons.congr hkind hstorage)).congr rfl rfl, fun id hid => ⟨?_, ?_⟩, ?_⟩
    · exact (keepRecord_of_ne _ _ _ hid).trans (by rw [hundo])
    · change t.valueTransfersUndo[id]? = _
      rw [htrail, keepRecord_of_ne _ _ _ hid]
    · change t.valueTransfersUndo[crates.txid (.call call)]? = _
      rw [htrail, keepRecord_self]

end

end Strangecoin
