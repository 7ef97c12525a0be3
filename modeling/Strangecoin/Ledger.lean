import Strangecoin.UnapplyBlock

/-! # The ledger behind the account map

An account map is three functions of the address: the balance, the nonce and the
kind (for a contract, its code hash and storage root).  On a **canonical** state
(no empty account stored, every contract with a code hash) the three functions
determine the map (`balances_eq_of_views`), and each operation of the state
transition changes one of them at one address and leaves the others alone.
-/
namespace Strangecoin
open Function Account

/-! ### Balances as a function -/

/-- A balance function with one balance raised, checked. -/
def creditFn (f : String → UInt64) (a : String) (x : UInt64) : Option (String → UInt64) :=
  (checkedAdd (f a) x).map (update f a)

/-- A balance function with one balance lowered, checked. -/
def debitFn (f : String → UInt64) (a : String) (x : UInt64) : Option (String → UInt64) :=
  (checkedSub (f a) x).map (update f a)

/-- **A credit and a debit undo each other.** -/
theorem creditFn_iff_debitFn {f g : String → UInt64} {a : String} {x : UInt64} :
    creditFn f a x = some g ↔ debitFn g a x = some f := by
  unfold creditFn debitFn
  simp only [Option.map_eq_some_iff]
  constructor
  · rintro ⟨b, hb, rfl⟩
    refine ⟨f a, ?_, by simp⟩
    rw [update_self]
    exact checkedSub_iff_checkedAdd.mpr hb
  · rintro ⟨b, hb, rfl⟩
    refine ⟨g a, ?_, by simp⟩
    rw [update_self]
    exact checkedSub_iff_checkedAdd.mp hb

theorem creditFn_zero (f : String → UInt64) (a : String) : creditFn f a 0 = some f := by
  have h : checkedAdd (f a) 0 = some (f a) := checkedAdd_eq_some.mpr (by simp)
  rw [creditFn, h, Option.map_some, update_eq_self]

/-- One move between balances. -/
def moveFn (f : String → UInt64) (t : ValueTransfer) : Option (String → UInt64) :=
  (debitFn f t.payer t.amount).bind fun g => creditFn g t.payee t.amount

def unmoveFn (f : String → UInt64) (t : ValueTransfer) : Option (String → UInt64) :=
  (debitFn f t.payee t.amount).bind fun g => creditFn g t.payer t.amount

theorem moveFn_iff_unmoveFn {f g : String → UInt64} {t : ValueTransfer} :
    moveFn f t = some g ↔ unmoveFn g t = some f := by
  unfold moveFn unmoveFn
  simp only [Option.bind_eq_some_iff]
  constructor
  · rintro ⟨h, hd, hc⟩
    exact ⟨h, creditFn_iff_debitFn.mp hc, creditFn_iff_debitFn.mpr hd⟩
  · rintro ⟨h, hd, hc⟩
    exact ⟨h, creditFn_iff_debitFn.mp hc, creditFn_iff_debitFn.mpr hd⟩

/-- **A trail and its reversal undo each other.** -/
theorem moveFns_iff_unmoveFns {trail : List ValueTransfer} {f g : String → UInt64} :
    trail.foldlM moveFn f = some g ↔ trail.reverse.foldlM unmoveFn g = some f :=
  foldlM_iff_reverse fun f g t => @moveFn_iff_unmoveFn f g t

/-! ### Kinds -/

/-- Code hash and storage root of a contract. -/
def Account.kind : Account → Option (Digest × Digest)
  | .eoa _ => none
  | .contract account => some (account.codeHash, account.storageRoot)

@[simp] theorem Account.kind_setBalance (a : Account) (b : UInt64) :
    (a.setBalance b).kind = a.kind := by
  cases a <;> rfl

@[simp] theorem Account.kind_setNonce (a : Account) (n : UInt64) : (a.setNonce n).kind = a.kind := by
  cases a <;> rfl

@[simp] theorem Account.kind_default : Account.default.kind = none := rfl

theorem Account.isContract_eq_kind (a : Account) : a.isContract = a.kind.isSome := by
  cases a <;> rfl

/-- An account is its balance, its nonce and its kind. -/
theorem Account.ext_views {a b : Account} (hb : a.balance = b.balance) (hn : a.nonce = b.nonce)
    (hk : a.kind = b.kind) : a = b := by
  cases a with
  | eoa a =>
    cases b with
    | eoa b =>
      cases a
      cases b
      simp_all [balance, nonce]
    | contract b => simp [kind] at hk
  | contract a =>
    cases b with
    | eoa b => simp [kind] at hk
    | contract b =>
      cases a
      cases b
      simp_all [balance, nonce, kind]

/-- A contract has a code hash. -/
def Account.Coded (a : Account) : Prop := ∀ k, a.kind = some k → k.1 ≠ zeroDigest

theorem Account.Coded.of_kind {a b : Account} (h : a.Coded) (hk : b.kind = a.kind) : b.Coded :=
  fun k hb => h k (hk ▸ hb)

theorem Account.coded_default : Account.default.Coded := fun _ h => by simp at h

/-- The only empty account with a proper kind is the default one. -/
theorem Account.Coded.eq_default {a : Account} (h : a.Coded) (he : a.isEmpty = true) :
    a = Account.default := by
  cases a with
  | eoa a => exact eq_default_of_isEmpty he rfl
  | contract a =>
    have hzero : a.codeHash = zeroDigest := by simp_all [isEmpty]
    exact absurd hzero (h _ rfl)

variable {s : State} {account : Account}

namespace State

/-- The kind of the account at an address. -/
def kind (s : State) (a : String) : Option (Digest × Digest) := (s.account a).kind

theorem isContractAt_eq_kind (s : State) (a : String) : s.isContractAt a = (s.kind a).isSome := by
  rw [isContractAt_eq, isContract_eq_kind]
  rfl

/-- No empty account is stored, and every contract has a code hash. -/
structure Canonical (s : State) : Prop where
  nonempty : ∀ (a : String) (account : Account), s.balances[a]? = some account → account.isEmpty = false
  coded : ∀ (a : String) (account : Account), s.balances[a]? = some account → account.Coded

theorem Canonical.account_coded (h : s.Canonical) (a : String) : (s.account a).Coded := by
  unfold State.account
  cases hget : s.balances[a]? with
  | none => exact coded_default
  | some account => exact h.coded a account hget

theorem Canonical.of_balances {t : State} (h : s.Canonical) (ht : t.balances = s.balances) :
    t.Canonical :=
  ⟨fun a account hget => h.nonempty a account (ht ▸ hget),
    fun a account hget => h.coded a account (ht ▸ hget)⟩

/-- The views of the accounts depend on the account map only. -/
theorem views_of_balances {t : State} (h : s.balances = t.balances) :
    s.getBalance = t.getBalance ∧ s.getNonce = t.getNonce ∧ s.kind = t.kind := by
  refine ⟨funext fun a => ?_, funext fun a => ?_, funext fun a => ?_⟩
  · rw [getBalance, h, getBalance]
  · rw [getNonce, h, getNonce]
  · rw [kind, State.account, h, kind, State.account]

/-- **The three views determine a canonical account map.** -/
theorem balances_eq_of_views {t : State} (hs : s.Canonical) (ht : t.Canonical)
    (hb : s.getBalance = t.getBalance) (hn : s.getNonce = t.getNonce) (hk : s.kind = t.kind) :
    s.balances = t.balances := by
  have hacc : ∀ a, s.account a = t.account a := by
    intro a
    apply ext_views
    · rw [← getBalance_eq, ← getBalance_eq, hb]
    · rw [← getNonce_eq, ← getNonce_eq, hn]
    · exact congrFun hk a
  apply HashMap.ext_get?
  intro a
  have ha := hacc a
  unfold State.account at ha
  cases hsa : s.balances[a]? with
  | none =>
    cases hta : t.balances[a]? with
    | none => rfl
    | some account =>
      rw [hsa, hta] at ha
      have := ht.nonempty a account hta
      simp [← show Account.default = account from ha] at this
  | some account =>
    cases hta : t.balances[a]? with
    | none =>
      rw [hsa, hta] at ha
      have := hs.nonempty a account hsa
      simp [show account = Account.default from ha] at this
    | some account' =>
      rw [hsa, hta] at ha
      exact congrArg some ha

/-! ### Writes in terms of the views -/

theorem Canonical.setAccount (h : s.Canonical) (addr : String) (hc : account.Coded) :
    (s.setAccount addr account).Canonical := by
  have hall : ∀ (a : String) account', (s.setAccount addr account).balances[a]? = some account' →
      account'.isEmpty = false ∧ account'.Coded := by
    intro a account' hget
    rw [get?_setAccount] at hget
    split at hget
    · cases he : account.isEmpty with
      | true => simp [he] at hget
      | false =>
        rw [he] at hget
        rw [← Option.some.inj hget]
        exact ⟨he, hc⟩
    · exact ⟨h.nonempty a account' hget, h.coded a account' hget⟩
  exact ⟨fun a account' hget => (hall a account' hget).1,
    fun a account' hget => (hall a account' hget).2⟩

/-- With a proper kind the account read back is the one written. -/
theorem account_setAccount_of_coded (s : State) (addr a : String) (hc : account.Coded) :
    (s.setAccount addr account).account a = if a = addr then account else s.account a := by
  rw [account_setAccount]
  cases he : account.isEmpty with
  | true => rw [hc.eq_default he]; simp
  | false => simp

theorem kind_setAccount (s : State) (addr : String) (hc : account.Coded) :
    (s.setAccount addr account).kind = update s.kind addr account.kind := by
  funext a
  unfold kind
  rw [account_setAccount_of_coded s addr a hc]
  rcases eq_or_ne a addr with rfl | hne
  · simp
  · simp [hne]

theorem getBalance_setAccount_eq (s : State) (addr : String) (account : Account) :
    (s.setAccount addr account).getBalance = update s.getBalance addr account.balance := by
  funext a
  rw [getBalance_setAccount, update_apply]

theorem getNonce_setAccount_eq (s : State) (addr : String) (account : Account) :
    (s.setAccount addr account).getNonce = update s.getNonce addr account.nonce := by
  funext a
  rw [getNonce_setAccount, update_apply]

section
variable {s : State} (h : s.Canonical) (addr : String)
include h

theorem Canonical.setBalance (b : UInt64) : (s.setBalance addr b).Canonical := by
  rw [setBalance_eq]
  exact h.setAccount addr ((h.account_coded addr).of_kind (kind_setBalance _ _))

theorem Canonical.setNonce (n : UInt64) : (s.setNonce addr n).Canonical := by
  rw [setNonce_eq]
  exact h.setAccount addr ((h.account_coded addr).of_kind (kind_setNonce _ _))

end

theorem canonical_new : State.new.Canonical :=
  ⟨fun a account h => by simp [new] at h, fun a account h => by simp [new] at h⟩

/-- The state in which the listed accounts have been funded and nothing else has
happened. -/
def funded (accounts : List (String × UInt64)) : State :=
  accounts.foldl (fun s e => s.setBalance e.1 e.2) State.new

theorem funded_induction {P : State → Prop} (hnew : P State.new)
    (hset : ∀ s a b, P s → P (s.setBalance a b)) (accounts : List (String × UInt64)) :
    P (funded accounts) :=
  List.foldlRecOn accounts _ hnew fun s hs e _ => hset s e.1 e.2 hs

theorem canonical_funded (accounts : List (String × UInt64)) : (funded accounts).Canonical :=
  funded_induction canonical_new (fun _ a b hs => hs.setBalance a b) accounts

theorem getBalance_setBalance_eq (s : State) (addr : String) (b : UInt64) :
    (s.setBalance addr b).getBalance = update s.getBalance addr b := by
  rw [setBalance_eq, getBalance_setAccount_eq, balance_setBalance]

theorem getNonce_setBalance_eq (s : State) (addr : String) (b : UInt64) :
    (s.setBalance addr b).getNonce = s.getNonce := by
  funext a
  exact getNonce_setBalance s a addr b

theorem getBalance_setNonce_eq (s : State) (addr : String) (n : UInt64) :
    (s.setNonce addr n).getBalance = s.getBalance := by
  funext a
  exact getBalance_setNonce s a addr n

end State

/-! ### All views together -/

/-- A state with its account map as three functions. -/
@[ext] structure Views where
  balance : String → UInt64
  nonce : String → UInt64
  kind : String → Option (Digest × Digest)
  storage : ContractStorageMap
  receipts : List Receipt
  storageUndo : HashMap Digest (List StorageUndoEntry)
  valueTransfersUndo : HashMap Digest (List ValueTransfer)

/-- The kinds and the contract storage replaced. -/
def Views.withStorage (v : Views) (kind : String → Option (Digest × Digest))
    (storage : ContractStorageMap) : Views :=
  ⟨v.balance, v.nonce, kind, storage, v.receipts, v.storageUndo, v.valueTransfersUndo⟩

namespace State

def views (s : State) : Views where
  balance := s.getBalance
  nonce := s.getNonce
  kind := s.kind
  storage := s.contractStorage
  receipts := s.receipts
  storageUndo := s.storageUndo
  valueTransfersUndo := s.valueTransfersUndo

theorem views_setAccount (s : State) (addr : String) (hc : account.Coded) :
    (s.setAccount addr account).views = { s.views with
      balance := update s.getBalance addr account.balance
      nonce := update s.getNonce addr account.nonce
      kind := update s.kind addr account.kind } := by
  simp only [views, getBalance_setAccount_eq, getNonce_setAccount_eq, kind_setAccount s addr hc,
    contractStorage_setAccount, receipts_setAccount, storageUndo_setAccount,
    valueTransfersUndo_setAccount]

theorem Canonical.views_setBalance (h : s.Canonical) (addr : String) (b : UInt64) :
    (s.setBalance addr b).views =
      { s.views with balance := update s.getBalance addr b } := by
  have hc := (h.account_coded addr).of_kind (kind_setBalance (s.account addr) b)
  rw [setBalance_eq, views_setAccount s addr hc, balance_setBalance,
    nonce_setBalance, kind_setBalance, ← getNonce_eq, update_eq_self]
  rw [show (s.account addr).kind = s.kind addr from rfl, update_eq_self]
  rfl

theorem Canonical.views_setNonce (h : s.Canonical) (addr : String) (n : UInt64) :
    (s.setNonce addr n).views = { s.views with nonce := update s.getNonce addr n } := by
  have hc := (h.account_coded addr).of_kind (kind_setNonce (s.account addr) n)
  rw [setNonce_eq, views_setAccount s addr hc, balance_setNonce,
    nonce_setNonce, kind_setNonce, ← getBalance_eq, update_eq_self]
  rw [show (s.account addr).kind = s.kind addr from rfl, update_eq_self]
  rfl

end State

/-! ### The views one by one -/

section
variable {s : State} {v : Views} (h : s.views = v)
include h

theorem balance_views : s.getBalance = v.balance := h ▸ rfl
theorem nonce_views : s.getNonce = v.nonce := h ▸ rfl
theorem kind_views : s.kind = v.kind := h ▸ rfl
theorem storage_views : s.contractStorage = v.storage := h ▸ rfl
theorem receipts_views : s.receipts = v.receipts := h ▸ rfl
theorem undo_views : s.storageUndo = v.storageUndo := h ▸ rfl
theorem trail_views : s.valueTransfersUndo = v.valueTransfersUndo := h ▸ rfl

end

end Strangecoin
