import Strangecoin.Rollback
import Strangecoin.ReferenceCrates
import Strangecoin.StateBinding

/-! # The storage commitment over runs with rollback

A run applies blocks and takes the last one back, in any interleaving.  Rolling a
creation back removes the contract **at the address derived from its sender's current
nonce**, so the storage stays committed only if nonces come back to what they were.

Two things of a state decide that, its nonces and which addresses hold contracts
(`Shape`).  Each transaction changes the shape in a way rollback inverts
(`ShapeStep.undo`) **as long as no creation deploys to an address with a nonce**.  The
invariant of a run (`Supported`) keeps the transactions still applied, with the shapes
before and after each.
-/
namespace Strangecoin
open List Function State

/-! ### Committed storage -/

namespace State

/-- The storage is committed by the accounts, and only contracts have any. -/
structure Committed (blake3 : List UInt8 → Digest) (s : State) : Prop where
  canonical : s.Canonical
  consistent : s.StorageConsistent blake3
  owned : ∀ a : String, s.kind a = none → s.contractStorage[a]? = none

theorem committed_new (blake3 : List UInt8 → Digest) : State.new.Committed blake3 where
  canonical := canonical_new
  consistent := ⟨fun a m h => by simp [new] at h, fun a k h => by simp [kind, account, new] at h⟩
  owned := fun a _ => by simp [new]

section
variable {blake3 : List UInt8 → Digest} {s t : State}

theorem Committed.congr (h : s.Committed blake3) (ht : t.Canonical) (hkind : t.kind = s.kind)
    (hstorage : t.contractStorage = s.contractStorage) : t.Committed blake3 where
  canonical := ht
  consistent := h.consistent.congr hkind hstorage
  owned := fun a ha => by
    rw [hstorage]
    exact h.owned a (hkind ▸ ha)

/-- Removing the account and the storage of an address. -/
theorem Committed.remove (h : s.Committed blake3) {a : String} (ht : t.Canonical)
    (hkind : t.kind = update s.kind a none)
    (hstorage : t.contractStorage = s.contractStorage.erase a) : t.Committed blake3 := by
  refine ⟨ht, ⟨fun b m hm => ?_, fun b k hk => ?_⟩, fun b hb => ?_⟩
  · rw [hstorage, HashMap.get?_erase] at hm
    split at hm
    · cases hm
    · exact h.consistent.nonempty b m hm
  · rw [hkind, update_apply] at hk
    split at hk
    · cases hk
    · rename_i hb
      rw [h.consistent.root b k hk]
      refine storageRootOf_congr blake3 ?_
      rw [hstorage, HashMap.get?_erase, if_neg hb]
  · rw [hstorage, HashMap.get?_erase]
    split
    · rfl
    · rename_i hne
      rw [hkind, update_of_ne hne] at hb
      exact h.owned b hb

end

end State

/-! ### Shapes -/

/-- What decides which contract a rolled back creation removes. -/
@[ext] structure Shape where
  nonce : String → UInt64
  contract : String → Bool

def State.shape (s : State) : Shape := ⟨s.getNonce, fun a => (s.kind a).isSome⟩

variable {s t : State}

theorem State.shape_congr (hnonce : t.getNonce = s.getNonce) (hkind : t.kind = s.kind) :
    t.shape = s.shape := by
  rw [shape, hnonce, hkind, shape]

section
variable (crates : Crates) (chainId : UInt32)

/-- What a transaction does to the shape of a state. -/
inductive ShapeStep : Shape → Transaction → Shape → Prop
  | skip {sh : Shape} {tx : TransferTx} (hflag : tx.isCoinbase = true) :
      ShapeStep sh (.transfer tx) sh
  | transfer {sh : Shape} {tx : TransferTx} (hflag : tx.isCoinbase = false) :
      ShapeStep sh (.transfer tx)
        { sh with nonce := update sh.nonce tx.sender (sh.nonce tx.sender + 1) }
  | call {sh : Shape} {call : CallTx} :
      ShapeStep sh (.call call)
        { sh with nonce := update sh.nonce call.sender (sh.nonce call.sender + 1) }
  | deploy {sh : Shape} {create : CreateTx} {address : String}
      (haddress : crates.deriveContractAddress create.sender (sh.nonce create.sender) chainId =
        .ok address)
      (hnonce : sh.nonce address = 0) (hcontract : sh.contract address = false) :
      ShapeStep sh (.create create)
        { nonce := update (update sh.nonce address 1) create.sender
            (sh.nonce create.sender + 1)
          contract := update sh.contract address true }
  | abort {sh : Shape} {create : CreateTx} {address : String}
      (haddress : crates.deriveContractAddress create.sender (sh.nonce create.sender) chainId =
        .ok address)
      (hnonce : sh.nonce address = 0) (hcontract : sh.contract address = false) :
      ShapeStep sh (.create create)
        { sh with
          nonce := update (update (update sh.nonce address 1)
            create.sender (sh.nonce create.sender + 1)) address 0 }

/-- What taking a transaction back does to the shape of a state. -/
inductive ShapeUndo : Shape → Transaction → Shape → Prop
  | skip {sh : Shape} {tx : TransferTx} (hflag : tx.isCoinbase = true) :
      ShapeUndo sh (.transfer tx) sh
  | transfer {sh : Shape} {tx : TransferTx} (hflag : tx.isCoinbase = false) :
      ShapeUndo sh (.transfer tx)
        { sh with nonce := update sh.nonce tx.sender (sh.nonce tx.sender - 1) }
  | call {sh : Shape} {call : CallTx} {n : UInt64}
      (hn : checkedSub (sh.nonce call.sender) 1 = some n) :
      ShapeUndo sh (.call call) { sh with nonce := update sh.nonce call.sender n }
  | create {sh : Shape} {create : CreateTx} {n : UInt64} {address : String}
      (hn : checkedSub (sh.nonce create.sender) 1 = some n)
      (haddress : crates.deriveContractAddress create.sender n chainId = .ok address) :
      ShapeUndo sh (.create create)
        { nonce := update (update sh.nonce address 0) create.sender n
          contract := update sh.contract address false }

end

section
variable {crates : Crates} {chainId : UInt32}

/-- A checked decrement undoes an increment, if it succeeds. -/
theorem eq_of_checkedSub_succ {n m : UInt64} (h : checkedSub (n + 1) 1 = some m) : m = n := by
  have hnat := checkedSub_eq_some.mp h
  rw [UInt64.toNat_add, UInt64.toNat_one] at hnat
  have hn := n.toNat_lt
  have hm := m.toNat_lt
  apply UInt64.toNat_inj.mp
  omega

variable {tx : Transaction}

/-- **Rollback brings the shape back.** -/
theorem ShapeStep.undo {sh sh' sh'' : Shape} (h : ShapeStep crates chainId sh tx sh')
    (hundo : ShapeUndo crates chainId sh' tx sh'') : sh'' = sh := by
  cases h with
  | skip hflag =>
    cases hundo with
    | skip => rfl
    | transfer hflag' => simp [hflag] at hflag'
  | transfer hflag =>
    cases hundo with
    | skip hflag' => simp [hflag] at hflag'
    | transfer => simp
  | call =>
    cases hundo with
    | call hn =>
      dsimp only at hn
      rw [update_self] at hn
      rw [eq_of_checkedSub_succ hn]
      simp
  | deploy haddress hnonce hcontract =>
    cases hundo with
    | create hn haddress' =>
      rename_i create address n address'
      dsimp only at hn
      rw [update_self] at hn
      obtain rfl := eq_of_checkedSub_succ hn
      obtain rfl : address = address' := Except.ok.inj (haddress.symm.trans haddress')
      refine Shape.ext (funext fun a => ?_) ?_
      · simp only [update_apply]
        split_ifs <;> simp_all
      · simp [← hcontract]
  | abort haddress hnonce hcontract =>
    cases hundo with
    | create hn haddress' =>
      rename_i create address n address'
      dsimp only at hn
      have hsender : create.sender ≠ address := by
        intro heq
        rw [heq, update_self] at hn
        exact absurd (checkedSub_eq_some.mp hn) (by simp)
      rw [update_of_ne hsender, update_self] at hn
      obtain rfl := eq_of_checkedSub_succ hn
      obtain rfl : address = address' := Except.ok.inj (haddress.symm.trans haddress')
      refine Shape.ext (funext fun a => ?_) ?_
      · simp only [update_apply]
        split_ifs <;> simp_all
      · simp [← hcontract]

/-- Contracts stay until they are rolled back. -/
theorem ShapeStep.contract {sh sh' : Shape} (h : ShapeStep crates chainId sh tx sh') {a : String}
    (ha : sh.contract a = true) : sh'.contract a = true := by
  cases h with
  | deploy =>
    simp only [update_apply]
    split
    · rfl
    · exact ha
  | _ => exact ha

/-! ### Transactions -/

/-- A transaction that runs no code. -/
def Transaction.isTransfer : Transaction → Bool
  | .transfer _ => true
  | _ => false

variable (crates chainId) in
/-- What a creation must find when it is processed: code with a hash, and no nonce at
the address it derives. -/
def DeploysVacant (s : State) : Transaction → Prop
  | .create create => crates.blake3 create.initCode ≠ zeroDigest ∧
      ∀ address, crates.deriveContractAddress create.sender (s.getNonce create.sender) chainId =
        .ok address → s.getNonce address = 0
  | _ => True

instance {s : State} : ∀ {tx : Transaction}, Decidable (DeploysVacant crates chainId s tx)
  | .create _ => inferInstanceAs (Decidable (_ ∧ ∀ _, _ → _))
  | .transfer _ => .isTrue trivial
  | .call _ => .isTrue trivial

/-- A flush keeps the shape and commits what it writes. -/
theorem State.Flushed.committed {record : List StorageUndoEntry}
    (h : Flushed crates.blake3 s t record) (hs : s.Committed crates.blake3) :
    t.Committed crates.blake3 ∧ t.shape = s.shape ∧
      ∀ a ∈ recorded record, t.shape.contract a = true := by
  have hkind : ∀ a, (t.kind a).isSome = (s.kind a).isSome := by
    intro a
    by_cases ha : a ∈ recorded record
    · obtain ⟨k, m, hk, -, -, htk⟩ := h.inside a ha
      rw [hk, htk]
      rfl
    · rw [(h.outside a ha).2]
  refine ⟨⟨h.canonical, h.consistent hs.consistent, fun a ha => ?_⟩, ?_, fun a ha => ?_⟩
  · by_cases hmem : a ∈ recorded record
    · obtain ⟨k, m, -, -, -, htk⟩ := h.inside a hmem
      rw [htk] at ha
      cases ha
    · obtain ⟨hstorage, hk⟩ := h.outside a hmem
      rw [hstorage]
      exact hs.owned a (hk ▸ ha)
  · exact Shape.ext (nonce_views h.frame) (funext hkind)
  · obtain ⟨k, m, -, -, -, htk⟩ := h.inside a ha
    change (t.kind a).isSome = true
    rw [htk]
    rfl

/-- What a processed transaction leaves for rollback: its storage record, about
contracts only. -/
def Recorded (crates : Crates) (tx : Transaction) (s s' : State) : Prop :=
  ∃ record, s'.storageUndo = keepRecord s.storageUndo (crates.txid tx) record ∧
    (tx.isTransfer = true → record = []) ∧ ∀ a ∈ State.recorded record, s'.shape.contract a = true

variable {s' : State}

theorem Recorded.refl (h : s'.storageUndo = s.storageUndo) :
    Recorded crates tx s s' :=
  ⟨[], h, fun _ => rfl, fun _ ha => by cases ha⟩

variable {create : CreateTx}

/-- The contract a creation installs has no storage yet. -/
theorem installCreate_committed {address : String} (hs : s.Committed crates.blake3)
    (hhash : crates.blake3 create.initCode ≠ zeroDigest) (hvacant : s.kind address = none) :
    (installCreate crates s create address).Committed crates.blake3 := by
  obtain ⟨hcanonical, hviews⟩ := installCreate_views address hs.canonical hhash
  have hkind : (installCreate crates s create address).kind = update s.kind address
      (some (crates.blake3 create.initCode, zeroDigest)) := kind_views hviews
  have hstorage : (installCreate crates s create address).contractStorage = s.contractStorage :=
    storage_views hviews
  refine ⟨hcanonical, installCreate_consistent hs.canonical hhash hs.consistent
    (hs.owned address hvacant), fun a ha => ?_⟩
  rw [hkind, update_apply] at ha
  rw [hstorage]
  split at ha
  · cases ha
  · exact hs.owned a ha

theorem installCreate_shape (address : String) (hs : s.Canonical)
    (hhash : crates.blake3 create.initCode ≠ zeroDigest) :
    (installCreate crates s create address).shape =
      { nonce := update (update s.shape.nonce address 1) create.sender
          (s.shape.nonce create.sender + 1)
        contract := update s.shape.contract address true } := by
  have hviews := (installCreate_views address hs hhash).2
  have hkind : (installCreate crates s create address).kind = update s.kind address
      (some (crates.blake3 create.initCode, zeroDigest)) := kind_views hviews
  refine Shape.ext (nonce_views hviews) (funext fun a => ?_)
  dsimp only [shape]
  rw [hkind, update_apply, update_apply]
  split <;> rfl

/-- **A processed transaction keeps the storage committed** and changes the shape as
`ShapeStep` says. -/
theorem TxEffect.committed {frame : Frame} (h : TxEffect crates chainId s tx frame s')
    (hs : s.Committed crates.blake3) (hdeploy : DeploysVacant crates chainId s tx) :
    s'.Committed crates.blake3 ∧ ShapeStep crates chainId s.shape tx s'.shape ∧
      Recorded crates tx s s' := by
  cases tx with
  | transfer tx =>
    cases h with
    | transfer hflag happly =>
      obtain ⟨-, hs', hviews⟩ := (actsAs_applyTransfer tx).effect hs.canonical happly
      have hnonce : s'.getNonce = bumpNonce s.getNonce tx := nonce_views hviews
      have hkind : s'.kind = s.kind := kind_views hviews
      refine ⟨hs.congr hs' hkind (storage_views hviews), ?_,
        .refl (undo_views hviews)⟩
      rw [shape, shape, hnonce, hkind]
      exact .transfer hflag
  | create create =>
    obtain ⟨hhash, hzero⟩ := hdeploy
    cases h with
    | createOk haddress hvacant hfunds hstatus hdebit hcommit =>
      rename_i s₁ address result
      have hfree : (s.kind address).isSome = false := by
        rw [← isContractAt_eq_kind, hvacant]
      have hinstall := installCreate_committed hs hhash (Option.not_isSome_iff_eq_none.mp
        (by rw [hfree]; exact Bool.false_ne_true))
      have hiviews := (installCreate_views address hs.canonical hhash).2
      obtain ⟨t, record, g, hflush, -, -, hs', hviews⟩ :=
        createOk_steps hs.canonical hhash hdebit hcommit
      obtain ⟨ht, hshape, hcontracts⟩ := hflush.committed hinstall
      have hs'shape : s'.shape = t.shape :=
        shape_congr (nonce_views hviews) (kind_views hviews)
      have hundo : t.storageUndo = s.storageUndo :=
        (undo_views hflush.frame).trans (undo_views hiviews)
      refine ⟨ht.congr hs' (kind_views hviews) (storage_views hviews), ?_,
        record, ?_, (by rintro ⟨⟩), ?_⟩
      · rw [hs'shape, hshape, installCreate_shape address hs.canonical hhash]
        exact .deploy haddress (hzero address haddress) hfree
      · rw [← hundo]
        exact undo_views hviews
      · rw [hs'shape]
        exact hcontracts
    | createFailed haddress hvacant hfunds hfailed =>
      rename_i address outcome
      have hfree : (s.kind address).isSome = false := by
        rw [← isContractAt_eq_kind, hvacant]
      obtain ⟨hs', hviews⟩ := failedCreate_views address hs.canonical hhash
      generalize (installCreate crates s create address).setAccount address Account.default = s'
        at hs' hviews
      have hnonce : s'.getNonce = update (update (update s.getNonce
          address 1) create.sender (s.getNonce create.sender + 1)) address 0 :=
        nonce_views hviews
      have hkind : s'.kind = s.kind := by
        refine (kind_views hviews).trans ?_
        change update s.kind address none = s.kind
        rw [update_eq_self_iff, eq_comm]
        simpa using hfree
      refine ⟨hs.congr hs' hkind (storage_views hviews), ?_,
        .refl (undo_views hviews)⟩
      rw [shape, shape, hnonce, hkind]
      exact .abort haddress (hzero address haddress) hfree
  | call call =>
    obtain ⟨s₁, t, record, hcommit, hflush, rfl⟩ := call_steps hs.canonical h
    have hundo := call_storageUndo hs.canonical hcommit hflush
    obtain ⟨hs₁, -, hs₁views⟩ :=
      commitValueTransfers_views (hs.canonical.setNonce _ _) hcommit
    have henter := hs.canonical.views_setNonce call.sender (s.getNonce call.sender + 1)
    have hkind : s₁.kind = s.kind :=
      (kind_views hs₁views).trans (kind_views henter)
    have hnonce : s₁.getNonce =
        update s.getNonce call.sender (s.getNonce call.sender + 1) :=
      (nonce_views hs₁views).trans (nonce_views henter)
    have hstorage : s₁.contractStorage = s.contractStorage :=
      (storage_views hs₁views).trans (storage_views henter)
    obtain ⟨ht, hshape, hcontracts⟩ := hflush.committed (hs.congr hs₁ hkind hstorage)
    refine ⟨ht.congr (ht.canonical.of_balances rfl) rfl rfl, ?_, record, ?_,
      (by rintro ⟨⟩), hcontracts⟩
    · change ShapeStep crates chainId s.shape (.call call) t.shape
      rw [hshape, shape, shape, hnonce, hkind]
      exact .call
    · rw [← hundo]

/-! ### Taking a transaction back -/

/-- Balances, receipts and trail records may differ, nothing else. -/
structure State.SameLayout (s t : State) : Prop where
  canonical : t.Canonical
  nonce : t.getNonce = s.getNonce
  kind : t.kind = s.kind
  storage : t.contractStorage = s.contractStorage
  undo : t.storageUndo = s.storageUndo

theorem State.SameLayout.trans {u : State} (h : s.SameLayout t) (h' : t.SameLayout u) :
    s.SameLayout u :=
  ⟨h'.canonical, h'.nonce.trans h.nonce, h'.kind.trans h.kind, h'.storage.trans h.storage,
    h'.undo.trans h.undo⟩

/-- A step that acts on the balances only. -/
theorem ActsAs.sameLayout {α : Type} {step : State → α → Except CoreError State}
    {fn : (String → UInt64) → α → Option (String → UInt64)} {x : α}
    (h : ActsAs step fn (fun n _ => n) x) (hs : s.Canonical) (hstep : step s x = .ok t) :
    s.SameLayout t := by
  obtain ⟨-, ht, hviews⟩ := h.effect hs hstep
  exact ⟨ht, nonce_views hviews, kind_views hviews,
    storage_views hviews, undo_views hviews⟩

theorem reverseValueTransfers_sameLayout {trail : List ValueTransfer} (hs : s.Canonical)
    (h : s.reverseValueTransfers trail = .ok t) : s.SameLayout t := by
  obtain ⟨-, ht, hviews⟩ := (ActsAs.run fun t _ => actsAs_unmoveValue t).effect hs h
  rw [foldl_fixed] at hviews
  exact ⟨ht, nonce_views hviews, kind_views hviews,
    storage_views hviews, undo_views hviews⟩

theorem reverseCreate_sameLayout {wasSuccess : Bool} (hs : s.Canonical)
    (h : reverseCreate crates s create wasSuccess = .ok t) : s.SameLayout t := by
  unfold reverseCreate at h
  dsimp only at h
  have hstart : s.SameLayout { s with
      valueTransfersUndo := s.valueTransfersUndo.erase (crates.txid (.create create)) } :=
    ⟨hs.of_balances rfl, rfl, rfl, rfl, rfl⟩
  split at h
  · obtain ⟨m, hm, ht⟩ := bind_eq_ok.mp h
    have hmid := reverseValueTransfers_sameLayout hstart.canonical hm
    have hlast := (actsAs_credit CreateTx.sender CreateTx.endowment create).sameLayout
      hmid.canonical ht
    exact (hstart.trans hmid).trans hlast
  · exact Except.ok.inj h ▸ hstart

theorem reverseCall_sameLayout {call : CallTx} (hs : s.Canonical)
    (h : reverseCall crates s call = .ok t) : s.SameLayout t := by
  unfold reverseCall at h
  dsimp only at h
  split at h
  · split at h
    · have hstart : s.SameLayout { s with
          valueTransfersUndo := s.valueTransfersUndo.erase (crates.txid (.call call)) } :=
        ⟨hs.of_balances rfl, rfl, rfl, rfl, rfl⟩
      exact hstart.trans (reverseValueTransfers_sameLayout hstart.canonical h)
    · exact reverseValueTransfers_sameLayout hs h
  · exact Except.ok.inj h ▸ ⟨hs, rfl, rfl, rfl, rfl⟩

/-- Reversing storage writes commits what it restores, if they were a contract's. -/
theorem unapplyCallStorage_committed {u : State} {txid : Digest} (hu : u.Committed crates.blake3)
    (hrecord : ∀ record, u.storageUndo[txid]? = some record →
      ∀ a ∈ recorded record, u.shape.contract a = true) :
    (u.unapplyCallStorage crates.blake3 txid).Committed crates.blake3 ∧
      (u.unapplyCallStorage crates.blake3 txid).shape = u.shape ∧
      (u.unapplyCallStorage crates.blake3 txid).storageUndo = u.storageUndo.erase txid := by
  cases hget : u.storageUndo[txid]? with
  | none =>
    rw [unapplyCallStorage_of_none hget, HashMap.erase_of_none hget]
    exact ⟨hu, rfl, rfl⟩
  | some entries =>
    replace hrecord := hrecord entries hget
    unfold unapplyCallStorage
    rw [hget]
    dsimp only
    have hstart : Canonical { u with
        storageUndo := u.storageUndo.erase txid
        contractStorage := entries.foldl restoreSlot u.contractStorage } :=
      hu.canonical.of_balances rfl
    have hrefresh := refreshed crates.blake3 (entries.map fun e => e.1).dedup hstart
    generalize (entries.map fun e => e.1).dedup.foldl (refreshStorage crates.blake3) _ = r
      at hrefresh
    have hmem : ∀ a, a ∈ (entries.map fun e => e.1).dedup ↔ a ∈ recorded entries :=
      fun a => mem_dedup
    have houtside : ∀ a : String, a ∉ recorded entries →
        r.contractStorage[a]? = u.contractStorage[a]? ∧ r.kind a = u.kind a := by
      intro a ha
      obtain ⟨hstorage, hkind⟩ := hrefresh.outside a fun h => ha ((hmem a).mp h)
      exact ⟨hstorage.trans (getElem?_restore_of_not_mem ha _), hkind⟩
    have hinside : ∀ a ∈ recorded entries, ∃ k, u.kind a = some k ∧
        r.kind a = some (k.1, storageRootOf crates.blake3 r.contractStorage a) := by
      intro a ha
      obtain ⟨k, hk⟩ := Option.isSome_iff_exists.mp (hrecord a ha)
      refine ⟨k, hk, ?_⟩
      rw [hrefresh.kind a ((hmem a).mpr ha)]
      change (u.kind a).map _ = _
      rw [hk]
      rfl
    refine ⟨⟨hrefresh.canonical, ⟨fun a m hm => ?_, fun a k hk => ?_⟩, fun a hk => ?_⟩, ?_, ?_⟩
    · by_cases ha : a ∈ recorded entries
      · rw [hrefresh.storage a ((hmem a).mpr ha), Option.filter_eq_some_iff] at hm
        simpa using hm.2
      · rw [(houtside a ha).1] at hm
        exact hu.consistent.nonempty a m hm
    · by_cases ha : a ∈ recorded entries
      · obtain ⟨k', -, hk'⟩ := hinside a ha
        rw [← Option.some.inj (hk'.symm.trans hk)]
      · obtain ⟨hstorage, hkind⟩ := houtside a ha
        rw [storageRootOf_congr crates.blake3 hstorage]
        exact hu.consistent.root a k (hkind ▸ hk)
    · by_cases ha : a ∈ recorded entries
      · obtain ⟨k', -, hk'⟩ := hinside a ha
        rw [hk'] at hk
        cases hk
      · obtain ⟨hstorage, hkind⟩ := houtside a ha
        rw [hstorage]
        exact hu.owned a (hkind ▸ hk)
    · refine Shape.ext (nonce_views hrefresh.frame) (funext fun a => ?_)
      dsimp only [shape]
      by_cases ha : a ∈ recorded entries
      · obtain ⟨k', hk, hk'⟩ := hinside a ha
        rw [hk, hk']
        rfl
      · rw [(houtside a ha).2]
    · exact undo_views hrefresh.frame

/-- **Taking a transaction back keeps the storage committed** and changes the shape as
`ShapeUndo` says. -/
theorem unapplyTx_committed {u u' : State} (h : unapplyTx crates chainId u tx = .ok u')
    (hu : u.Committed crates.blake3)
    (hrecord : ∀ record, u.storageUndo[crates.txid tx]? = some record →
      ∀ a ∈ recorded record, u.shape.contract a = true) :
    u'.Committed crates.blake3 ∧ ShapeUndo crates chainId u.shape tx u'.shape ∧
      u'.storageUndo =
        if tx.isTransfer then u.storageUndo else u.storageUndo.erase (crates.txid tx) := by
  cases tx with
  | transfer tx =>
    cases hflag : tx.isCoinbase with
    | true =>
      have hsame := (actsAs_unapplyCoinbase hflag).sameLayout hu.canonical h
      refine ⟨hu.congr hsame.canonical hsame.kind hsame.storage, ?_, hsame.undo⟩
      rw [shape_congr hsame.nonce hsame.kind]
      exact .skip hflag
    | false =>
      obtain ⟨-, hu', hviews⟩ := (actsAs_unapplyTransfer hflag).effect hu.canonical h
      have hnonce : u'.getNonce = unbumpNonce u.getNonce tx := nonce_views hviews
      have hkind : u'.kind = u.kind := kind_views hviews
      refine ⟨hu.congr hu' hkind (storage_views hviews), ?_,
        undo_views hviews⟩
      rw [shape, shape, hnonce, hkind]
      exact .transfer hflag
  | create create =>
    unfold unapplyTx unapplyCreate at h
    obtain ⟨n, hn, h⟩ := bind_eq_ok.mp h
    obtain ⟨address, haddress, h⟩ := bind_eq_ok.mp h
    obtain ⟨w, hw, h⟩ := bind_eq_ok.mp h
    obtain rfl := Except.ok.inj h
    obtain ⟨hv, hvshape, hvundo⟩ := unapplyCallStorage_committed hu hrecord
    generalize u.unapplyCallStorage crates.blake3 (crates.txid (.create create)) = v
      at hw hv hvshape hvundo
    have hsame := reverseCreate_sameLayout hv.canonical hw
    have hremoved := w.views_setAccount address Account.coded_default
    have hcanonical : Canonical { w.setAccount address Account.default with
        contractStorage := (w.setAccount address Account.default).contractStorage.erase address } :=
      (hsame.canonical.setAccount address Account.coded_default).of_balances rfl
    have hviews := hcanonical.views_setNonce create.sender n
    have hcanonical' := hcanonical.setNonce create.sender n
    change Committed crates.blake3 (setNonce { w.setAccount address Account.default with
      contractStorage := (w.setAccount address Account.default).contractStorage.erase address }
        create.sender n) ∧ _
    generalize setNonce { w.setAccount address Account.default with
      contractStorage := (w.setAccount address Account.default).contractStorage.erase address }
        create.sender n = x at hviews hcanonical' ⊢
    have hkind : x.kind = update v.kind address none := by
      rw [← hsame.kind]
      exact (kind_views hviews).trans (kind_views hremoved)
    have hnonce : x.getNonce =
        update (update u.shape.nonce address 0) create.sender n := by
      rw [← hvshape]
      change _ = update (update v.getNonce address 0) create.sender n
      rw [← hsame.nonce]
      refine (nonce_views hviews).trans ?_
      exact congrArg (fun f => update f create.sender n) (nonce_views hremoved)
    have hstorage : x.contractStorage = v.contractStorage.erase address := by
      rw [← hsame.storage]
      exact storage_views hviews
    have hshape : x.shape =
        { nonce := update (update u.shape.nonce address 0) create.sender n
          contract := update u.shape.contract address false } := by
      refine Shape.ext hnonce (funext fun a => ?_)
      rw [← hvshape]
      dsimp only [shape]
      rw [hkind, update_apply, update_apply]
      split <;> rfl
    refine ⟨hv.remove hcanonical' hkind hstorage, ?_, ?_⟩
    · rw [hshape]
      exact .create (okOr_eq_ok.mp hn) haddress
    · refine Eq.trans ?_ hvundo
      rw [← hsame.undo]
      exact (undo_views hviews).trans (undo_views hremoved)
  | call call =>
    unfold unapplyTx unapplyCall at h
    obtain ⟨n, hn, h⟩ := bind_eq_ok.mp h
    obtain ⟨w, hw, h⟩ := bind_eq_ok.mp h
    obtain rfl := Except.ok.inj h
    have hviews := hu.canonical.views_setNonce call.sender n
    have hsame := reverseCall_sameLayout (hu.canonical.setNonce _ _) hw
    have hkind : w.kind = u.kind := hsame.kind.trans (kind_views hviews)
    have hstorage : w.contractStorage = u.contractStorage :=
      hsame.storage.trans (storage_views hviews)
    have hundo : w.storageUndo = u.storageUndo :=
      hsame.undo.trans (undo_views hviews)
    have hnonce : w.getNonce = update u.getNonce call.sender n :=
      hsame.nonce.trans (nonce_views hviews)
    have hwshape : w.shape =
        { u.shape with nonce := update u.shape.nonce call.sender n } := by
      rw [shape, hnonce, hkind, shape]
    obtain ⟨hv, hvshape, hvundo⟩ := @unapplyCallStorage_committed crates w
      (crates.txid (.call call)) (hu.congr hsame.canonical hkind hstorage)
      (by rw [hundo, hwshape]; exact hrecord)
    refine ⟨hv, ?_, ?_⟩
    · rw [hvshape, hwshape]
      exact .call (okOr_eq_ok.mp hn)
    · rw [hvundo, hundo]
      rfl

/-! ### The transactions still applied -/

/-- A transaction that has been applied, with the shapes before and after it. -/
structure Pending where
  tx : Transaction
  before : Shape
  after : Shape

variable (crates chainId) in
/-- The transactions still applied, the last first, lead from the empty state to a
shape. -/
inductive Linked : List Pending → Shape → Prop
  | start : Linked [] State.new.shape
  | step {pending : List Pending} {e : Pending} (hrest : Linked pending e.before)
      (hstep : ShapeStep crates chainId e.before e.tx e.after) : Linked (e :: pending) e.after

variable {pending : List Pending}

/-- A contract some transaction has left is still there. -/
theorem Linked.contract {sh : Shape} (h : Linked crates chainId pending sh) {e : Pending}
    (he : e ∈ pending) {a : String} (ha : e.after.contract a = true) : sh.contract a = true := by
  induction h with
  | start => cases he
  | step hrest hstep ih =>
    rcases mem_cons.mp he with rfl | he
    · exact ha
    · exact hstep.contract (ih he)

variable (crates chainId) in
/-- **The invariant of a run**: the storage is committed, the transactions still
applied lead to the shape of the state, and every storage record belongs to one of them
that left contracts wherever the record has slots. -/
structure Supported (pending : List Pending) (s : State) : Prop where
  committed : s.Committed crates.blake3
  linked : Linked crates chainId pending s.shape
  records : ∀ id record, s.storageUndo[id]? = some record →
    ∃ e ∈ pending, crates.txid e.tx = id ∧ e.tx.isTransfer = false ∧
      ∀ a ∈ State.recorded record, e.after.contract a = true

theorem Supported.sameLayout (h : Supported crates chainId pending s) (hsame : s.SameLayout t) :
    Supported crates chainId pending t where
  committed := h.committed.congr hsame.canonical hsame.kind hsame.storage
  linked := by
    rw [shape_congr hsame.nonce hsame.kind]
    exact h.linked
  records := by
    rw [hsame.undo]
    exact h.records

theorem Supported.push (h : Supported crates chainId pending s) (hs' : s'.Committed crates.blake3)
    (hstep : ShapeStep crates chainId s.shape tx s'.shape) (hrecorded : Recorded crates tx s s') :
    Supported crates chainId (⟨tx, s.shape, s'.shape⟩ :: pending) s' where
  committed := hs'
  linked := .step h.linked hstep
  records := by
    intro id record hget
    obtain ⟨own, hundo, htransfer, hcontracts⟩ := hrecorded
    rw [hundo] at hget
    by_cases hown : own.isEmpty = false ∧ id = crates.txid tx
    · obtain ⟨hempty, rfl⟩ := hown
      rw [keepRecord_self, hempty, if_neg Bool.false_ne_true] at hget
      obtain rfl := Option.some.inj hget
      refine ⟨_, mem_cons_self, rfl, ?_, hcontracts⟩
      rw [← Bool.not_eq_true]
      intro ht
      rw [htransfer ht] at hempty
      cases hempty
    · have hold : s.storageUndo[id]? = some record := by
        by_cases hid : id = crates.txid tx
        · have hempty : own.isEmpty = true := by simpa [hid] using hown
          rwa [keepRecord, if_pos hempty] at hget
        · rwa [keepRecord_of_ne _ _ _ hid] at hget
      obtain ⟨e, he, hrest⟩ := h.records id record hold
      exact ⟨e, mem_cons_of_mem _ he, hrest⟩

theorem Supported.pop {u u' : State} {e : Pending} (h : Supported crates chainId (e :: pending) u)
    (hunapply : unapplyTx crates chainId u e.tx = .ok u') :
    Supported crates chainId pending u' := by
  have hrecord : ∀ record, u.storageUndo[crates.txid e.tx]? = some record →
      ∀ a ∈ recorded record, u.shape.contract a = true := by
    intro record hget a ha
    obtain ⟨e', he', -, -, hcontracts⟩ := h.records _ record hget
    exact h.linked.contract he' (hcontracts a ha)
  obtain ⟨hu', hundo, hrecords⟩ := unapplyTx_committed hunapply h.committed hrecord
  obtain ⟨hrest, hstep, hshape⟩ : Linked crates chainId pending e.before ∧
      ShapeStep crates chainId e.before e.tx e.after ∧ e.after = u.shape := by
    have hlinked := h.linked
    generalize u.shape = sh at hlinked
    cases hlinked with
    | step hrest hstep => exact ⟨hrest, hstep, rfl⟩
  rw [← hshape] at hundo
  refine ⟨hu', hstep.undo hundo ▸ hrest, fun id record hget => ?_⟩
  -- a record that is left is not of the transaction taken back
  rw [hrecords] at hget
  have hold : u.storageUndo[id]? = some record ∧
      ¬ (crates.txid e.tx = id ∧ e.tx.isTransfer = false) := by
    cases ht : e.tx.isTransfer with
    | true =>
      rw [ht, if_pos rfl] at hget
      exact ⟨hget, by simp⟩
    | false =>
      rw [ht, if_neg Bool.false_ne_true, HashMap.get?_erase] at hget
      split at hget
      · cases hget
      · rename_i hne
        exact ⟨hget, fun hid => hne hid.1.symm⟩
  obtain ⟨e', he', hid, ht, hcontracts⟩ := h.records id record hold.1
  rcases mem_cons.mp he' with rfl | he'
  · exact absurd ⟨hid, ht⟩ hold.2
  · exact ⟨e', he', hid, ht, hcontracts⟩

/-! ### Blocks -/

section
variable {V : Type} {exec : VmExecutor V} {block : Block}

variable (crates chainId) in
/-- What a transaction must find in the progress in which it is processed. -/
def DeployStep (p : Progress V) (e : Transaction × Nat) : Prop :=
  DeploysVacant crates chainId p.state e.1

instance {p : Progress V} {e : Transaction × Nat} : Decidable (DeployStep crates chainId p e) :=
  inferInstanceAs (Decidable (DeploysVacant crates chainId p.state e.1))

theorem Supported.run {pending : List Pending} {p p' : Progress V} {es : List (Transaction × Nat)}
    (h : Supported crates chainId pending p.state)
    (hrun : es.foldlM (applyTx crates exec chainId block) p = .ok p')
    (hsteps : EachStep (applyTx crates exec chainId block) (DeployStep crates chainId) p es) :
    ∃ new, new.map Pending.tx = (es.map Prod.fst).reverse ∧
      Supported crates chainId (new ++ pending) p'.state := by
  induction es generalizing p pending with
  | nil =>
    obtain rfl := foldlM_nil_ok.mp hrun
    exact ⟨[], rfl, h⟩
  | cons e es ih =>
    obtain ⟨m, hstep, hrest⟩ := foldlM_cons_ok.mp hrun
    obtain ⟨hdeploy, hnext⟩ := (eachStep_cons hstep).mp hsteps
    have hpush : Supported crates chainId (⟨e.1, p.state.shape, m.state.shape⟩ :: pending)
        m.state := by
      rcases applyTx_ok hstep with ⟨hcb, rfl⟩ | ⟨-, receipt, -, -, -, heffect⟩
      · refine h.push h.committed ?_ (.refl rfl)
        cases htx : e.1 with
        | transfer tx =>
          rw [htx] at hcb
          exact .skip hcb
        | create create =>
          rw [htx] at hcb
          cases hcb
        | call call =>
          rw [htx] at hcb
          cases hcb
      · obtain ⟨hm, hshape, hrecorded⟩ := heffect.committed h.committed hdeploy
        exact h.push hm hshape hrecorded
    obtain ⟨new, hnew, hsupported⟩ := ih hpush hrest hnext
    refine ⟨new ++ [⟨e.1, p.state.shape, m.state.shape⟩], ?_, ?_⟩
    · rw [map_append, hnew]
      simp
    · simpa using hsupported

theorem Supported.unrun {top : List Pending} {u u' : State}
    (h : Supported crates chainId (top ++ pending) u)
    (hrun : (top.map Pending.tx).foldlM (unapplyTx crates chainId) u = .ok u') :
    Supported crates chainId pending u' := by
  induction top generalizing u with
  | nil => exact foldlM_nil_ok.mp hrun ▸ h
  | cons e top ih =>
    obtain ⟨m, hstep, hrest⟩ := foldlM_cons_ok.mp hrun
    exact ih (h.pop hstep) hrest

/-- The transactions of a block that rollback inverts, the last first; those of a block
of index 0 are plain credits. -/
def Block.stacked (block : Block) : List Transaction :=
  if block.index = 0 then [] else block.transactions.reverse

theorem Supported.pushBlock {vm vm' : V} (h : Supported crates chainId pending s)
    (happly : applyBlockWithVm crates exec s block chainId vm = .ok (s', vm'))
    (hsteps : AtEachTx crates exec chainId block s (some vm) (DeployStep crates chainId)) :
    ∃ new, new.map Pending.tx = block.stacked ∧ Supported crates chainId (new ++ pending) s' := by
  obtain ⟨⟨s₂, vm₂⟩, hinner, hret⟩ := bind_eq_ok.mp happly
  obtain ⟨rfl, -⟩ := ok_pair hret
  have hstart : s.SameLayout { s with receipts := [] } :=
    ⟨h.committed.canonical.of_balances rfl, rfl, rfl, rfl, rfl⟩
  have hfinish : ∀ (t : State) (receipts : List Receipt), t.Canonical →
      t.SameLayout { t with receipts := receipts } :=
    fun t receipts ht => ⟨ht.of_balances rfl, rfl, rfl, rfl, rfl⟩
  by_cases hzero : block.index = 0
  · refine ⟨[], by rw [Block.stacked, if_pos hzero]; rfl, ?_⟩
    unfold applyBlockInner at hinner
    rw [if_pos hzero] at hinner
    obtain ⟨p, hrun, hret⟩ := bind_eq_ok.mp hinner
    obtain ⟨rfl, -⟩ := ok_pair hret
    have hp : Supported crates chainId pending p.state := by
      refine run_invariant (I := fun q : Progress V => Supported crates chainId pending q.state)
        (fun q e q' hq hstep => ?_) (h.sameLayout hstart) hrun
      unfold applyGenesisTx at hstep
      obtain ⟨_, -, hstep⟩ := bind_eq_ok.mp hstep
      split at hstep
      · rename_i tx htx
        obtain ⟨m, hcredit, hstep⟩ := bind_eq_ok.mp hstep
        obtain rfl := Except.ok.inj hstep
        exact hq.sameLayout ((actsAs_credit TransferTx.receiver TransferTx.amount tx).sameLayout
          hq.committed.canonical hcredit)
      · cases hstep
    exact hp.sameLayout (hfinish _ _ hp.committed.canonical)
  · have hindex : 0 < block.index := UInt64.pos_iff_ne_zero.mpr hzero
    obtain ⟨-, cb, i, s₁, p, hcb, hle, hcredit, hrun, hret⟩ := (applyBlockInner_ok hindex).mp hinner
    obtain ⟨rfl, -⟩ := Prod.mk.inj hret
    have hs₁ := (h.sameLayout hstart).sameLayout
      ((actsAs_credit TransferTx.receiver TransferTx.amount cb).sameLayout hstart.canonical hcredit)
    obtain ⟨new, hnew, hsupported⟩ := Supported.run hs₁ hrun
      (hsteps _ (applyCoinbase_ok.mpr ⟨cb, i, s₁, hcb, hle, hcredit, rfl⟩))
    rw [zipIdx_map_fst] at hnew
    refine ⟨new, by rw [hnew, Block.stacked, if_neg hzero], ?_⟩
    exact hsupported.sameLayout (hfinish _ _ hsupported.committed.canonical)

theorem Supported.popBlock {top : List Pending} (h : Supported crates chainId (top ++ pending) s)
    (htop : top.map Pending.tx = block.stacked)
    (hunapply : unapplyBlock crates s block chainId = .ok s') :
    Supported crates chainId pending s' := by
  have hfinish : ∀ t : State, Supported crates chainId pending t →
      Supported crates chainId pending { t with receipts := [] } :=
    fun t ht => ht.sameLayout ⟨ht.committed.canonical.of_balances rfl, rfl, rfl, rfl, rfl⟩
  unfold unapplyBlock at hunapply
  by_cases hzero : block.index = 0
  · rw [Block.stacked, if_pos hzero, map_eq_nil_iff] at htop
    rw [if_pos hzero] at hunapply
    rw [htop, nil_append] at h
    obtain ⟨t, hrun, hret⟩ := bind_eq_ok.mp hunapply
    obtain rfl := Except.ok.inj hret
    refine hfinish t (run_invariant (fun q tx q' hq hstep => ?_) h hrun)
    cases tx with
    | transfer tx =>
      exact hq.sameLayout ((actsAs_debit TransferTx.receiver TransferTx.amount tx).sameLayout
        hq.committed.canonical hstep)
    | create create => cases hstep
    | call call => cases hstep
  · rw [Block.stacked, if_neg hzero] at htop
    rw [if_neg hzero, ← htop] at hunapply
    obtain ⟨t, hrun, hret⟩ := bind_eq_ok.mp hunapply
    obtain rfl := Except.ok.inj hret
    exact hfinish t (h.unrun hrun)

end

/-! ### Runs -/

variable (crates chainId) in
/-- **Runs with rollback**: from the empty state, blocks are applied, each with any
executor in any state, and the last one still applied is taken back.  `Meets` restricts
the blocks that are applied. -/
inductive LifoRun (Meets : (V : Type) → VmExecutor V → V → State → Block → Prop) :
    List Block → State → Prop
  | start : LifoRun Meets [] State.new
  | apply {V : Type} {exec : VmExecutor V} {vm vm' : V} {blocks : List Block} {block : Block}
      {s s' : State} (hrun : LifoRun Meets blocks s) (hmeets : Meets V exec vm s block)
      (happly : applyBlockWithVm crates exec s block chainId vm = .ok (s', vm')) :
      LifoRun Meets (block :: blocks) s'
  | unapply {blocks : List Block} {block : Block} {s s' : State}
      (hrun : LifoRun Meets (block :: blocks) s)
      (hunapply : unapplyBlock crates s block chainId = .ok s') : LifoRun Meets blocks s'

variable (crates chainId) in
/-- Every creation of the block, when it is processed, has code with a hash and derives
an address without a nonce. -/
def DeploysToFreshNonce (V : Type) (exec : VmExecutor V) (vm : V) (s : State) (block : Block) :
    Prop :=
  AtEachTx crates exec chainId block s (some vm) (DeployStep crates chainId)

instance {V : Type} {exec : VmExecutor V} {vm : V} {s : State} {block : Block} :
    Decidable (DeploysToFreshNonce crates chainId V exec vm s block) :=
  inferInstanceAs (Decidable (AtEachTx crates exec chainId block s (some vm) _))

/-- The invariant holds along a run. -/
theorem LifoRun.supported {blocks : List Block}
    (h : LifoRun crates chainId (DeploysToFreshNonce crates chainId) blocks s) :
    ∃ pending, pending.map Pending.tx = blocks.flatMap Block.stacked ∧
      Supported crates chainId pending s := by
  induction h with
  | start =>
    refine ⟨[], rfl, committed_new _, .start, fun id record hget => ?_⟩
    simp [State.new] at hget
  | apply hrun hmeets happly ih =>
    obtain ⟨pending, htxs, hsupported⟩ := ih
    obtain ⟨new, hnew, hs'⟩ := hsupported.pushBlock happly hmeets
    exact ⟨new ++ pending, by rw [map_append, hnew, htxs, flatMap_cons], hs'⟩
  | unapply hrun hunapply ih =>
    obtain ⟨pending, htxs, hsupported⟩ := ih
    rw [flatMap_cons] at htxs
    obtain ⟨top, rest, rfl, htop, hrest⟩ := map_eq_append_iff.mp htxs
    exact ⟨rest, hrest, hsupported.popBlock htop hunapply⟩

/-- **The storage commitment over runs with rollback.**  In every state a run reaches,
if every creation met an address without a nonce when it was applied: each contract's
storage root is the root of its storage, zero when it has none, and no storage entry is
empty. -/
theorem storage_committed_of_run {blocks : List Block} {s : State}
    (h : LifoRun crates chainId (DeploysToFreshNonce crates chainId) blocks s) :
    s.StorageConsistent crates.blake3 := by
  obtain ⟨pending, -, hsupported⟩ := h.supported
  exact hsupported.committed.consistent

end

/-! ### Concrete runs -/

/-- One step of a concrete run: a block is applied, or the last one taken back. -/
def lifoStep (crates : Crates) (r : List Block × State) (block : Option Block) :
    Except CoreError (List Block × State) :=
  match block, r.1 with
  | some block, blocks => do
    let applied ← applyBlockWithVm crates storingVm r.2 block CHAIN_ID_REGTEST ()
    return (block :: blocks, applied.1)
  | none, block :: blocks => do
    let s ← unapplyBlock crates r.2 block CHAIN_ID_REGTEST
    return (blocks, s)
  | none, [] => .error .stateOverflow

/-- A regtest block with these transactions after its coinbase. -/
def Block.regtest (index : UInt64) (txs : List Transaction) : Block :=
  .ofTransactions index (.transfer (.reward CHAIN_ID_REGTEST "miner" 0) :: txs)

theorem lifoRun_of_steps {crates : Crates}
    {Meets : (V : Type) → VmExecutor V → V → State → Block → Prop} {steps : List (Option Block)}
    {r : List Block × State}
    (hmeets : EachStep (lifoStep crates) (fun r block => ∀ b ∈ block,
      Meets Unit storingVm () r.2 b) ([], State.new) steps)
    (hrun : steps.foldlM (lifoStep crates) ([], State.new) = .ok r) :
    LifoRun crates CHAIN_ID_REGTEST Meets r.1 r.2 := by
  refine run_invariant_each (I := fun r => LifoRun crates CHAIN_ID_REGTEST Meets r.1 r.2)
    (fun r block r' hr hblock hstep => ?_) .start hmeets hrun
  obtain ⟨blocks, s⟩ := r
  cases block with
  | some block =>
    obtain ⟨⟨s', ⟨⟩⟩, happly, hret⟩ := bind_eq_ok.mp hstep
    obtain rfl := Except.ok.inj hret
    exact .apply hr (hblock block rfl) happly
  | none =>
    cases blocks with
    | nil => cases hstep
    | cons block blocks =>
      obtain ⟨s', hunapply, hret⟩ := bind_eq_ok.mp hstep
      obtain rfl := Except.ok.inj hret
      exact .unapply hr hunapply

/-- A deployment whose constructor stores its arguments. -/
def Transaction.storingDeployment (sender : String) (initArgs : List UInt8) (nonce : UInt64) :
    Transaction :=
  .create ⟨sender, [0], initArgs, [], 0, 0, 0, nonce, CHAIN_ID_REGTEST, []⟩

/-- A call that stores its data. -/
def Transaction.storingCall (sender receiver : String) (data : List UInt8) : Transaction :=
  .call ⟨sender, receiver, data, 0, 1, 0, 1, CHAIN_ID_REGTEST, []⟩

/-- A deployment that stores a value, and an empty block taken back. -/
theorem storage_committed_alice :
    ∃ blocks s, LifoRun referenceCrates CHAIN_ID_REGTEST
        (DeploysToFreshNonce referenceCrates CHAIN_ID_REGTEST) blocks s ∧
      (s.kind firstContract).isSome = true ∧ s.StorageConsistent referenceCrates.blake3 := by
  let steps : List (Option Block) := [
    some (.regtest 1 [.storingDeployment "alice" [1] 1]),
    some (.regtest 2 []),
    none]
  have hmeets : EachStep (lifoStep referenceCrates) (fun r block => ∀ b ∈ block,
      DeploysToFreshNonce referenceCrates CHAIN_ID_REGTEST Unit storingVm () r.2 b)
      ([], State.new) steps := by
    rw [referenceCrates_eq]
    decide +kernel
  have hrun : (steps.foldlM (lifoStep referenceCrates) ([], State.new)).map
      (fun r => (r.2.kind firstContract).isSome) = .ok true := by
    rw [referenceCrates_eq]
    decide +kernel
  obtain ⟨⟨blocks, s⟩, hr, hcontract⟩ := map_eq_ok.mp hrun
  have hlifo := lifoRun_of_steps hmeets hr
  exact ⟨blocks, s, hlifo, hcontract, storage_committed_of_run hlifo⟩

/-- The contract the account at `firstContract` deploys with the nonce two below zero. -/
def wrappedContract : String := "rsc1h724y6erqc4j3gvertxypa3wkm7l49qlla9hcdzt3mnj96x4ee0s6xck99"

/-- A payment of nothing by the account at `firstContract`. -/
def emptyPayment : Transaction := .transfer (.payment CHAIN_ID_REGTEST firstContract "bob" 0 1)

/-- A run that wraps a nonce.  Deploying over the account at `firstContract` and taking
the deployment and the account's two payments back leaves its nonce at -2, from which it
deploys; the same once more takes the first of two deployments back in place of the
second, and a call that is taken back last restores a slot of a contract that is gone. -/
def wrappingRun : List (Option Block) := [
  some (.regtest 1 [emptyPayment, emptyPayment]),
  some (.regtest 2 [.storingDeployment "alice" [] 1]),
  none,
  none,
  some (.regtest 1 [.storingDeployment firstContract [1] 1]),
  some (.regtest 2 [.storingCall "bob" wrappedContract [2]]),
  some (.regtest 3 [.storingDeployment firstContract [] 2, emptyPayment]),
  some (.regtest 4 [.storingDeployment "alice" [] 1]),
  none,
  none,
  none,
  some (.regtest 2 [.storingDeployment firstContract [] 1])]

/-- **A contract can come to storage its account does not commit to.** -/
theorem storage_root_stale_after_rollback :
    ¬ ∀ blocks s, LifoRun nonzeroCrates CHAIN_ID_REGTEST (fun _ _ _ _ _ => True) blocks s →
      s.StorageConsistent nonzeroCrates.blake3 := by
  intro h
  have hrun : (wrappingRun.foldlM (lifoStep nonzeroCrates) ([], State.new)).map
      (fun r => (r.2.contractStorage[wrappedContract]?.isSome,
        (r.2.kind wrappedContract).map Prod.snd)) = .ok (true, some zeroDigest) := by
    rw [nonzeroCrates_eq]
    decide +kernel
  obtain ⟨⟨blocks, s⟩, hr, hres⟩ := map_eq_ok.mp hrun
  obtain ⟨hstorage, hkind⟩ := Prod.mk.inj hres
  obtain ⟨m, hm⟩ := Option.isSome_iff_exists.mp hstorage
  obtain ⟨k, hk, hroot⟩ := Option.map_eq_some_iff.mp hkind
  have hmeets : EachStep (lifoStep nonzeroCrates) (fun r block => ∀ b ∈ block, True)
      ([], State.new) wrappingRun :=
    .of_forall fun _ _ _ _ => trivial
  have hcons := h blocks s (lifoRun_of_steps hmeets hr)
  have hzero := hcons.root wrappedContract k hk
  rw [hroot, storageRootOf, hm] at hzero
  exact contractStorageRoot_ne_zero (hcons.nonempty wrappedContract m hm)
    (by rintro ⟨x, -, hx⟩; exact nonzeroCrates_ne x hx) hzero.symm

end Strangecoin
