import Strangecoin.Ledger

/-! # Storage writes and their reversal

Flushing the staged writes of a frame changes slots of contracts and the storage
roots in their accounts, and leaves a record of pre-images.  `Flushed` says what a
flush did in terms of the state before, the state after and the record; reversing
that record restores both, **provided the storage before was consistent**.
-/
namespace Strangecoin
open List Function Std

/-! ### Records -/

/-- A record kept under an id; an empty one is not. -/
def keepRecord {β : Type} (records : HashMap Digest (List β)) (txid : Digest) (record : List β) :
    HashMap Digest (List β) :=
  if record.isEmpty then records else records.insert txid record

section
variable {β : Type} (records : HashMap Digest (List β)) (txid : Digest) (record : List β)

theorem keepRecord_self : (keepRecord records txid record)[txid]? =
    if record.isEmpty then records[txid]? else some record := by
  unfold keepRecord
  split
  · rfl
  · exact (HashMap.get?_insert _ _ _ _).trans (if_pos rfl)

theorem keepRecord_of_ne {id : Digest} (h : id ≠ txid) :
    (keepRecord records txid record)[id]? = records[id]? := by
  unfold keepRecord
  split
  · rfl
  · exact (HashMap.get?_insert _ _ _ _).trans (if_neg h)

end

/-! ### Slots -/

/-- The value of a slot. -/
def slotAt (storage : ContractStorageMap) (a : String) (k : Digest) : Option (List UInt8) :=
  (storage[a]?.getD ∅)[k]?

/-- The storage root an account should have. -/
def storageRootOf (blake3 : List UInt8 → Digest) (storage : ContractStorageMap) (a : String) :
    Digest :=
  (storage[a]?.map (contractStorageRoot blake3)).getD zeroDigest

variable {a : String}

theorem storageRootOf_congr (blake3 : List UInt8 → Digest) {m m' : ContractStorageMap}
    (h : m[a]? = m'[a]?) : storageRootOf blake3 m a = storageRootOf blake3 m' a := by
  rw [storageRootOf, storageRootOf, h]

variable {writes : List (Digest × List UInt8)}

namespace State

theorem applyWrites_of_not_mem {k : Digest} (h : k ∉ writes.map Prod.fst)
    (storage : ContractStorage) : (applyWrites storage writes)[k]? = storage[k]? := by
  induction writes generalizing storage with
  | nil => rfl
  | cons e writes ih =>
    rw [map_cons, mem_cons, not_or] at h
    have := ih h.2 (storage.insert e.1 e.2)
    rw [HashMap.get?_insert, if_neg h.1] at this
    exact this

theorem applyWrites_isSome {k : Digest} (h : k ∈ writes.map Prod.fst) (storage : ContractStorage) :
    (applyWrites storage writes)[k]?.isSome = true := by
  induction writes generalizing storage with
  | nil => cases h
  | cons e writes ih =>
    by_cases hmem : k ∈ writes.map Prod.fst
    · exact ih hmem _
    · rw [map_cons, mem_cons] at h
      obtain rfl := h.resolve_right hmem
      have := applyWrites_of_not_mem hmem (storage.insert e.1 e.2)
      rw [HashMap.get?_insert, if_pos rfl] at this
      rw [show applyWrites storage (e :: writes) = applyWrites (storage.insert e.1 e.2) writes
        from rfl, this]
      rfl

end State

/-! ### Setting a storage root -/

/-- A contract with another storage root; other accounts as they are. -/
def Account.withStorageRoot (root : Digest) : Account → Account
  | .eoa account => .eoa account
  | .contract account => .contract { account with storageRoot := root }

section
variable (root : Digest) (account : Account)

theorem Account.balance_withStorageRoot : (account.withStorageRoot root).balance = account.balance := by
  cases account <;> rfl

theorem Account.nonce_withStorageRoot : (account.withStorageRoot root).nonce = account.nonce := by
  cases account <;> rfl

theorem Account.kind_withStorageRoot :
    (account.withStorageRoot root).kind = account.kind.map fun k => (k.1, root) := by
  cases account <;> rfl

end

namespace State

section
variable {s : State} (hs : s.Canonical) (a : String) (root : Digest)

theorem getElem?_setStorageRoot (b : String) :
    (s.setStorageRoot a root).balances[b]? =
      if b = a then s.balances[a]?.map (Account.withStorageRoot root) else s.balances[b]? := by
  unfold setStorageRoot
  split
  · rename_i account hget
    rw [HashMap.get?_insert, hget]
    rfl
  · rename_i hnot
    by_cases hb : b = a
    · subst hb
      rw [if_pos rfl]
      cases hget : s.balances[b]? with
      | none => rfl
      | some account =>
        cases account with
        | eoa account => rfl
        | contract account => exact absurd hget (hnot account)
    · rw [if_neg hb]

theorem account_setStorageRoot (b : String) :
    (s.setStorageRoot a root).account b =
      if b = a then (s.account a).withStorageRoot root else s.account b := by
  rw [State.account, getElem?_setStorageRoot, State.account]
  split
  · cases s.balances[a]? <;> rfl
  · rfl

include hs in
theorem Canonical.setStorageRoot : (s.setStorageRoot a root).Canonical := by
  have hcoded : ∀ (b : String) (account : Account),
      (s.setStorageRoot a root).balances[b]? = some account → account.Coded ∧ (s.balances[b]? = some account ∨ account.isContract = true) := by
    intro b account h
    rw [getElem?_setStorageRoot] at h
    split at h
    · obtain ⟨old, hold, rfl⟩ := Option.map_eq_some_iff.mp h
      rename_i hb
      subst hb
      have hold' := hs.coded b old hold
      cases old with
      | eoa old => exact ⟨hold', .inl hold⟩
      | contract old =>
        have hcode : old.codeHash ≠ zeroDigest := hold' _ rfl
        refine ⟨fun k hk => ?_, .inr rfl⟩
        obtain rfl := Option.some.inj hk
        exact hcode
    · exact ⟨hs.coded b account h, .inl h⟩
  constructor
  · intro b account h
    obtain ⟨hc, hold | hcontract⟩ := hcoded b account h
    · exact hs.nonempty b account hold
    · cases hempty : account.isEmpty with
      | false => rfl
      | true =>
        rw [hc.eq_default hempty] at hcontract
        cases hcontract
  · intro b account h
    exact (hcoded b account h).1

theorem views_setStorageRoot :
    (s.setStorageRoot a root).views =
      s.views.withStorage (update s.kind a ((s.kind a).map fun k => (k.1, root)))
        s.contractStorage := by
  have haccount := @account_setStorageRoot s a root
  have hframe : (s.setStorageRoot a root).contractStorage = s.contractStorage ∧
      (s.setStorageRoot a root).receipts = s.receipts ∧
      (s.setStorageRoot a root).storageUndo = s.storageUndo ∧
      (s.setStorageRoot a root).valueTransfersUndo = s.valueTransfersUndo := by
    unfold setStorageRoot
    split <;> exact ⟨rfl, rfl, rfl, rfl⟩
  have hbalance : (s.setStorageRoot a root).getBalance = s.getBalance := by
    funext b
    rw [getBalance_eq, haccount, getBalance_eq]
    split
    · rename_i hb
      rw [hb, Account.balance_withStorageRoot]
    · rfl
  have hnonce : (s.setStorageRoot a root).getNonce = s.getNonce := by
    funext b
    rw [getNonce_eq, haccount, getNonce_eq]
    split
    · rename_i hb
      rw [hb, Account.nonce_withStorageRoot]
    · rfl
  have hkind : (s.setStorageRoot a root).kind =
      update s.kind a ((s.kind a).map fun k => (k.1, root)) := by
    funext b
    rw [kind, haccount, update_apply]
    split
    · exact Account.kind_withStorageRoot root _
    · rfl
  exact Views.ext hbalance hnonce hkind hframe.1 hframe.2.1 hframe.2.2.1 hframe.2.2.2

end

/-! ### Flushing -/

/-- The contracts a record is about. -/
def recorded (record : List StorageUndoEntry) : List String := record.map fun e => e.1

/-- **What a flush does**: contracts outside the record stay, the record holds the
slots before, other slots stay, and every recorded contract keeps its code and gets
the root of its new, non-empty storage. -/
structure Flushed (blake3 : List UInt8 → Digest) (s t : State) (record : List StorageUndoEntry) :
    Prop where
  canonical : t.Canonical
  frame : t.views = s.views.withStorage t.kind t.contractStorage
  outside : ∀ a : String, a ∉ recorded record →
    t.contractStorage[a]? = s.contractStorage[a]? ∧ t.kind a = s.kind a
  preimage : ∀ e ∈ record, e.2.2 = slotAt s.contractStorage e.1 e.2.1
  kept : ∀ (a : String) (k : Digest), (∀ v, (a, k, v) ∉ record) →
    slotAt t.contractStorage a k = slotAt s.contractStorage a k
  inside : ∀ a ∈ recorded record, ∃ (k : Digest × Digest) (m : ContractStorage),
    s.kind a = some k ∧ t.contractStorage[a]? = some m ∧ m.isEmpty = false ∧
      t.kind a = some (k.1, contractStorageRoot blake3 m)

variable {s : State}

theorem Flushed.refl (blake3 : List UInt8 → Digest) (hs : s.Canonical) :
    Flushed blake3 s s [] where
  canonical := hs
  frame := rfl
  outside := fun _ _ => ⟨rfl, rfl⟩
  preimage := fun _ h => by cases h
  kept := fun _ _ _ => rfl
  inside := fun _ h => by cases h

/-- The entries a contract's writes add to the record. -/
theorem mem_preimages {b : String} {k : Digest} {v : Option (List UInt8)}
    {storage : ContractStorage} :
    (b, k, v) ∈ (preimagesOf storage writes).map (fun p => (a, p.1, p.2)) ↔
      b = a ∧ k ∈ writes.map Prod.fst ∧ v = storage[k]? := by
  simp only [preimagesOf, map_map, mem_map, comp_apply, Prod.mk.injEq]
  constructor
  · rintro ⟨e, he, rfl, rfl, rfl⟩
    exact ⟨rfl, ⟨e, he, rfl⟩, rfl⟩
  · rintro ⟨rfl, ⟨e, he, rfl⟩, rfl⟩
    exact ⟨e, he, rfl, rfl, rfl⟩

theorem slotAt_insert (storage : ContractStorageMap) (a b : String) (m : ContractStorage)
    (k : Digest) : slotAt (storage.insert a m) b k = if b = a then m[k]? else slotAt storage b k := by
  rw [slotAt, HashMap.get?_insert]
  split <;> rfl

variable {record : List StorageUndoEntry} {blake3 : List UInt8 → Digest}

theorem Flushed.step {m : State} (h : Flushed blake3 s m record) {e : String × ContractStorage}
    (hfresh : e.1 ∉ recorded record) :
    Flushed blake3 s (flushContract blake3 (m, record) e).1 (flushContract blake3 (m, record) e).2 ∧
      ∀ a ∈ recorded (flushContract blake3 (m, record) e).2, a = e.1 ∨ a ∈ recorded record := by
  obtain ⟨a, writes⟩ := e
  obtain ⟨hstorage, hkind⟩ := h.outside a hfresh
  unfold flushContract
  dsimp only
  split
  · exact ⟨h, fun b hb => .inr hb⟩
  · split
    · exact ⟨h, fun b hb => .inr hb⟩
    · rename_i hwrites hcontract
      obtain ⟨k₀, hk₀⟩ : ∃ k, m.kind a = some k := by
        rw [← Option.isSome_iff_exists, ← isContractAt_eq_kind]
        simpa using hcontract
      have hwritten : ∃ k, k ∈ writes.toList.map Prod.fst := by
        obtain ⟨e, he⟩ := exists_mem_of_ne_nil writes.toList fun hnil =>
          hwrites (by rw [← ExtTreeMap.isEmpty_toList, hnil]; rfl)
        exact ⟨e.1, mem_map_of_mem he⟩
      generalize hold : m.contractStorage[a]?.getD ∅ = old
      have hslot : ∀ k : Digest, old[k]? = slotAt s.contractStorage a k := by
        intro k
        rw [slotAt, ← hstorage, hold]
      generalize hnew : applyWrites old writes.toList = new
      have hnonempty : new.isEmpty = false := by
        obtain ⟨k, hk⟩ := hwritten
        have hsome := applyWrites_isSome hk old
        rw [hnew] at hsome
        rw [ExtTreeMap.isEmpty_eq_false_iff]
        rintro rfl
        simp at hsome
      have hviews := @views_setStorageRoot
        { m with contractStorage := m.contractStorage.insert a new } a
        (contractStorageRoot blake3 new)
      have hm : State.Canonical { m with contractStorage := m.contractStorage.insert a new } :=
        h.canonical.of_balances rfl
      have hcanonical := hm.setStorageRoot a (contractStorageRoot blake3 new)
      generalize State.setStorageRoot { m with contractStorage := m.contractStorage.insert a new } a
        (contractStorageRoot blake3 new) = t at hviews hcanonical
      have htstorage : t.contractStorage = m.contractStorage.insert a new :=
        storage_views hviews
      have htkind : t.kind = update m.kind a (some (k₀.1, contractStorageRoot blake3 new)) := by
        have hkinds : t.kind = update m.kind a
          ((m.kind a).map fun k => (k.1, contractStorageRoot blake3 new)) := kind_views hviews
        rw [hkinds, hk₀]
        rfl
      have hmem : ∀ b k v, (b, k, v) ∈ record ++ (preimagesOf old writes.toList).map
          (fun p => (a, p.1, p.2)) ↔ (b, k, v) ∈ record ∨
            (b = a ∧ k ∈ writes.toList.map Prod.fst ∧ v = old[k]?) := by
        intro b k v
        rw [mem_append, mem_preimages]
      have hrecorded : ∀ b, b ∈ recorded (record ++ (preimagesOf old writes.toList).map
          (fun p => (a, p.1, p.2))) ↔ b ∈ recorded record ∨ b = a := by
        intro b
        simp only [recorded, mem_map, Prod.exists]
        constructor
        · rintro ⟨b', k, v, hentry, rfl⟩
          rcases (hmem b' k v).mp hentry with hentry | ⟨rfl, -, -⟩
          · exact .inl ⟨b', k, v, hentry, rfl⟩
          · exact .inr rfl
        · rintro (⟨b', k, v, hentry, rfl⟩ | rfl)
          · exact ⟨b', k, v, (hmem b' k v).mpr (.inl hentry), rfl⟩
          · obtain ⟨k, hk⟩ := hwritten
            exact ⟨b, k, _, (hmem b k _).mpr (.inr ⟨rfl, hk, rfl⟩), rfl⟩
      refine ⟨⟨hcanonical, ?_, ?_, ?_, ?_, ?_⟩, fun b hb => ((hrecorded b).mp hb).symm⟩
      · calc t.views = m.views.withStorage t.kind t.contractStorage := by
              rw [hviews, htstorage]
              exact congrArg (fun k => m.views.withStorage k _) (kind_views hviews).symm
          _ = s.views.withStorage t.kind t.contractStorage := by
              rw [h.frame]
              rfl
      · intro b hb
        rw [hrecorded, not_or] at hb
        rw [htstorage, htkind, HashMap.get?_insert, if_neg hb.2, update_of_ne hb.2]
        exact h.outside b hb.1
      · rintro ⟨b, k, v⟩ hentry
        rcases (hmem b k v).mp hentry with hentry | ⟨rfl, -, rfl⟩
        · exact h.preimage _ hentry
        · exact hslot k
      · intro b k hnot
        rw [htstorage, slotAt_insert]
        split
        · rename_i hb
          subst hb
          have hk : k ∉ writes.toList.map Prod.fst := fun hk =>
            hnot _ ((hmem b k _).mpr (.inr ⟨rfl, hk, rfl⟩))
          rw [← hnew, applyWrites_of_not_mem hk, hslot]
        · exact h.kept b k fun v hv => hnot v ((hmem b k v).mpr (.inl hv))
      · intro b hb
        rw [htstorage, htkind]
        by_cases hba : b = a
        · subst hba
          refine ⟨k₀, new, hkind ▸ hk₀, ?_, hnonempty, ?_⟩
          · simp
          · simp
        · obtain ⟨k, st, h₁, h₂, h₃, h₄⟩ := h.inside b (((hrecorded b).mp hb).resolve_right hba)
          refine ⟨k, st, h₁, ?_, h₃, ?_⟩
          · rw [HashMap.get?_insert, if_neg hba]
            exact h₂
          · rw [update_of_ne hba]
            exact h₄

section
variable (blake3 : List UInt8 → Digest) (s : State) (result : ExecutionResult)

/-- The state a flush leaves, without its record. -/
def flushState : State := (result.storageOverlay.toList.foldl (flushContract blake3) (s, [])).1

/-- The record a flush leaves. -/
def flushRecord : List StorageUndoEntry :=
  (result.storageOverlay.toList.foldl (flushContract blake3) (s, [])).2

theorem flushStorageWrites_eq (txid : Digest) :
    s.flushStorageWrites blake3 result txid = { flushState blake3 s result with
      storageUndo := keepRecord (flushState blake3 s result).storageUndo txid
        (flushRecord blake3 s result) } := by
  unfold keepRecord
  split
  · exact if_pos ‹_›
  · exact if_neg ‹_›

variable {s} in
theorem flushed (hs : s.Canonical) :
    Flushed blake3 s (flushState blake3 s result) (flushRecord blake3 s result) := by
  have hnodup : (result.storageOverlay.toList.map Prod.fst).Nodup := by
    have h := ExtTreeMap.distinct_keys_toList (t := result.storageOverlay)
    refine (pairwise_map.mpr (h.imp ?_))
    intro a b hab he
    exact hab (by rw [he]; exact ReflCmp.compare_self)
  have hrun : ∀ (es : List (String × ContractStorage)) (m : State) (record : List StorageUndoEntry),
      (es.map Prod.fst).Nodup → (∀ a ∈ recorded record, a ∉ es.map Prod.fst) →
      Flushed blake3 s m record →
      Flushed blake3 s (es.foldl (flushContract blake3) (m, record)).1
        (es.foldl (flushContract blake3) (m, record)).2 := by
    intro es
    induction es with
    | nil => exact fun m record _ _ h => h
    | cons e es ih =>
      intro m record hnodup hfresh h
      rw [map_cons, nodup_cons] at hnodup
      obtain ⟨hstep, hnew⟩ := h.step fun hmem => hfresh e.1 hmem mem_cons_self
      refine ih _ _ hnodup.2 ?_ hstep
      intro a ha hmem
      rcases hnew a ha with rfl | ha
      · exact hnodup.1 hmem
      · exact hfresh a ha (mem_cons_of_mem _ hmem)
  exact hrun _ s [] hnodup (fun a ha => by cases ha) (.refl blake3 hs)

end

/-! ### Consistent storage -/

/-- No contract has an empty storage entry, and every storage root is the root of
the contract's entry. -/
structure StorageConsistent (blake3 : List UInt8 → Digest) (s : State) : Prop where
  nonempty : ∀ (a : String) (m : ContractStorage), s.contractStorage[a]? = some m →
    m.isEmpty = false
  root : ∀ (a : String) (k : Digest × Digest), s.kind a = some k →
    k.2 = storageRootOf blake3 s.contractStorage a

theorem StorageConsistent.congr {t : State} (h : s.StorageConsistent blake3)
    (hkind : t.kind = s.kind) (hstorage : t.contractStorage = s.contractStorage) :
    t.StorageConsistent blake3 :=
  ⟨fun a m hm => h.nonempty a m (hstorage ▸ hm),
    fun a k hk => by rw [hstorage]; exact h.root a k (hkind ▸ hk)⟩

theorem Flushed.consistent {t : State} (h : Flushed blake3 s t record)
    (hs : s.StorageConsistent blake3) : t.StorageConsistent blake3 := by
  constructor
  · intro a m hm
    by_cases ha : a ∈ recorded record
    · obtain ⟨k, m', -, hm', hne, -⟩ := h.inside a ha
      obtain rfl : m' = m := Option.some.inj (hm'.symm.trans hm)
      exact hne
    · rw [(h.outside a ha).1] at hm
      exact hs.nonempty a m hm
  · intro a k hk
    by_cases ha : a ∈ recorded record
    · obtain ⟨k', m, -, hm, -, hk'⟩ := h.inside a ha
      obtain rfl : (k'.1, contractStorageRoot blake3 m) = k := Option.some.inj (hk'.symm.trans hk)
      rw [storageRootOf, hm]
      rfl
    · obtain ⟨hstorage, hkind⟩ := h.outside a ha
      rw [storageRootOf_congr blake3 hstorage]
      exact hs.root a k (hkind ▸ hk)

/-! ### Restoring the slots -/

theorem slotAt_restoreSlot (storage : ContractStorageMap) (e : StorageUndoEntry) (a : String)
    (k : Digest) :
    slotAt (restoreSlot storage e) a k =
      if a = e.1 ∧ k = e.2.1 then e.2.2 else slotAt storage a k := by
  unfold restoreSlot
  dsimp only
  rw [slotAt_insert]
  by_cases ha : a = e.1
  · subst ha
    rw [if_pos rfl]
    cases he : e.2.2 with
    | none =>
      rw [HashMap.get?_erase]
      by_cases hk : k = e.2.1 <;> simp [hk, slotAt]
    | some v =>
      rw [HashMap.get?_insert]
      by_cases hk : k = e.2.1 <;> simp [hk, slotAt]
  · rw [if_neg ha, if_neg fun h => ha h.1]

/-- Restoring every recorded slot gives back the old slots. -/
theorem slotAt_restore {old : String → Digest → Option (List UInt8)}
    {record : List StorageUndoEntry} (hvalue : ∀ e ∈ record, e.2.2 = old e.1 e.2.1)
    {storage : ContractStorageMap}
    (hkept : ∀ a k, (∀ v, (a, k, v) ∉ record) → slotAt storage a k = old a k) (a : String)
    (k : Digest) : slotAt (record.foldl restoreSlot storage) a k = old a k := by
  induction record generalizing storage with
  | nil => exact hkept a k fun v h => by cases h
  | cons e record ih =>
    refine ih (fun e' he' => hvalue e' (mem_cons_of_mem e he')) ?_
    intro b l hnot
    rw [slotAt_restoreSlot]
    split
    · rename_i hkey
      rw [hvalue e mem_cons_self, hkey.1, hkey.2]
    · rename_i hkey
      refine hkept b l fun v hv => ?_
      rcases mem_cons.mp hv with rfl | hv
      · exact hkey ⟨rfl, rfl⟩
      · exact hnot v hv

theorem getElem?_restore_of_not_mem (h : a ∉ recorded record) (storage : ContractStorageMap) :
    (record.foldl restoreSlot storage)[a]? = storage[a]? := by
  induction record generalizing storage with
  | nil => rfl
  | cons e record ih =>
    rw [recorded, map_cons, mem_cons, not_or] at h
    rw [foldl_cons, ih h.2, restoreSlot, HashMap.get?_insert, if_neg h.1]

theorem isSome_restore {storage : ContractStorageMap} (h : storage[a]?.isSome = true) :
    (record.foldl restoreSlot storage)[a]?.isSome = true := by
  induction record generalizing storage with
  | nil => exact h
  | cons e record ih =>
    refine ih ?_
    rw [restoreSlot, HashMap.get?_insert]
    split
    · rfl
    · exact h

/-! ### Refreshing entries and roots -/

/-- What refreshing a list of contracts does: their empty entries go, their roots
become those of their entries, and nothing else changes. -/
structure Refreshed (blake3 : List UInt8 → Digest) (s t : State) (contracts : List String) :
    Prop where
  canonical : t.Canonical
  frame : t.views = s.views.withStorage t.kind t.contractStorage
  outside : ∀ a : String, a ∉ contracts →
    t.contractStorage[a]? = s.contractStorage[a]? ∧ t.kind a = s.kind a
  storage : ∀ a ∈ contracts,
    t.contractStorage[a]? = s.contractStorage[a]?.filter (fun m => !m.isEmpty)
  kind : ∀ a ∈ contracts,
    t.kind a = (s.kind a).map fun k => (k.1, storageRootOf blake3 t.contractStorage a)

theorem refreshed_one (blake3 : List UInt8 → Digest) (hs : s.Canonical) (c : String) :
    Refreshed blake3 s (refreshStorage blake3 s c) [c] := by
  have hstorage : ∀ a : String, (if s.contractStorage[c]?.any (fun slots => slots.isEmpty) then
      s.contractStorage.erase c else s.contractStorage)[a]? =
      if a = c then s.contractStorage[a]?.filter (fun m => !m.isEmpty)
      else s.contractStorage[a]? := by
    intro a
    by_cases hac : a = c
    · subst hac
      cases hget : s.contractStorage[a]? with
      | none => simp [hget]
      | some m => cases hm : m.isEmpty <;> simp [hget, hm, Option.filter]
    · cases s.contractStorage[c]?.any (fun slots => slots.isEmpty) <;> simp [hac]
  unfold refreshStorage
  dsimp only
  generalize (if s.contractStorage[c]?.any (fun slots => slots.isEmpty) then
    s.contractStorage.erase c else s.contractStorage) = storage at hstorage
  have hviews := @views_setStorageRoot { s with contractStorage := storage } c
    (storageRootOf blake3 storage c)
  have hm : State.Canonical { s with contractStorage := storage } := hs.of_balances rfl
  have hcanonical := hm.setStorageRoot c (storageRootOf blake3 storage c)
  change Refreshed blake3 s (State.setStorageRoot { s with contractStorage := storage } c
    (storageRootOf blake3 storage c)) [c]
  generalize State.setStorageRoot { s with contractStorage := storage } c
    (storageRootOf blake3 storage c) = t at hviews hcanonical
  have htstorage : t.contractStorage = storage := storage_views hviews
  have htkind : t.kind = update s.kind c
      ((s.kind c).map fun k => (k.1, storageRootOf blake3 storage c)) := kind_views hviews
  refine ⟨hcanonical, ?_, ?_, ?_, ?_⟩
  · rw [hviews, htstorage, htkind]
    rfl
  · intro a ha
    have hac : a ≠ c := fun h => ha (h ▸ mem_singleton_self c)
    rw [htstorage, htkind, hstorage, if_neg hac, update_of_ne hac]
    exact ⟨rfl, rfl⟩
  · intro a ha
    obtain rfl := mem_singleton.mp ha
    rw [htstorage, hstorage, if_pos rfl]
  · intro a ha
    obtain rfl := mem_singleton.mp ha
    rw [htstorage, htkind, update_self]

theorem Refreshed.cons {blake3 : List UInt8 → Digest} {s m t : State} {c : String}
    {contracts : List String} (h : Refreshed blake3 s m [c])
    (h' : Refreshed blake3 m t contracts) : Refreshed blake3 s t (c :: contracts) := by
  refine ⟨h'.canonical, ?_, ?_, ?_, ?_⟩
  · rw [h'.frame, h.frame]
    rfl
  · intro a ha
    rw [mem_cons, not_or] at ha
    obtain ⟨h₁, h₂⟩ := h'.outside a ha.2
    obtain ⟨h₃, h₄⟩ := h.outside a (by simpa using ha.1)
    exact ⟨h₁.trans h₃, h₂.trans h₄⟩
  · intro a ha
    by_cases hmem : a ∈ contracts
    · rw [h'.storage a hmem]
      by_cases hac : a = c
      · rw [h.storage a (by simp [hac])]
        cases s.contractStorage[a]? with
        | none => rfl
        | some m => cases hm : m.isEmpty <;> simp [Option.filter, hm]
      · rw [(h.outside a (by simpa using hac)).1]
    · obtain rfl := (mem_cons.mp ha).resolve_right hmem
      rw [(h'.outside a hmem).1, h.storage a mem_cons_self]
  · intro a ha
    by_cases hmem : a ∈ contracts
    · rw [h'.kind a hmem]
      by_cases hac : a = c
      · rw [h.kind a (by simp [hac]), Option.map_map]
        rfl
      · rw [(h.outside a (by simpa using hac)).2]
    · obtain rfl := (mem_cons.mp ha).resolve_right hmem
      obtain ⟨hstorage, hkind⟩ := h'.outside a hmem
      rw [hkind, h.kind a mem_cons_self, storageRootOf_congr blake3 hstorage]

theorem refreshed (blake3 : List UInt8 → Digest) (contracts : List String) (hs : s.Canonical) :
    Refreshed blake3 s (contracts.foldl (refreshStorage blake3) s) contracts := by
  induction contracts generalizing s with
  | nil =>
    exact ⟨hs, rfl, fun _ _ => ⟨rfl, rfl⟩, fun _ h => absurd h not_mem_nil,
      fun _ h => absurd h not_mem_nil⟩
  | cons c contracts ih =>
    have hone := refreshed_one blake3 hs c
    exact hone.cons (ih hone.canonical)

/-! ### Reversing a flush -/

/-- **A flush is reversed by its record.** -/
theorem unapplyCallStorage_of_flushed {t u : State} {txid : Digest} (h : Flushed blake3 s t record)
    (hs : s.StorageConsistent blake3) (hu : u.Canonical)
    (hstorage : u.contractStorage = t.contractStorage) (hkind : u.kind = t.kind)
    (hrecord : u.storageUndo[txid]? = if record.isEmpty then none else some record) :
    (u.unapplyCallStorage blake3 txid).Canonical ∧
      (u.unapplyCallStorage blake3 txid).views =
        { u.views.withStorage s.kind s.contractStorage with
          storageUndo := u.storageUndo.erase txid } := by
  unfold unapplyCallStorage
  cases record with
  | nil =>
    have hnone : u.storageUndo[txid]? = none := hrecord
    have hsame : ∀ a : String, t.contractStorage[a]? = s.contractStorage[a]? ∧ t.kind a = s.kind a :=
      fun a => h.outside a fun ha => by cases ha
    have hstorage' : u.contractStorage = s.contractStorage := by
      rw [hstorage]
      exact HashMap.ext_get? fun a => (hsame a).1
    have hkind' : u.kind = s.kind := by
      rw [hkind]
      exact funext fun a => (hsame a).2
    rw [hnone]
    refine ⟨hu, ?_⟩
    rw [HashMap.erase_of_none hnone, ← hstorage', ← hkind']
    rfl
  | cons e record =>
    have hsome : u.storageUndo[txid]? = some (e :: record) := hrecord
    rw [hsome]
    dsimp only
    generalize e :: record = entries at h
    have hstart : State.Canonical { u with
        storageUndo := u.storageUndo.erase txid
        contractStorage := entries.foldl restoreSlot u.contractStorage } := hu.of_balances rfl
    have hrefresh := refreshed blake3 (entries.map fun e => e.1).dedup hstart
    generalize (entries.map fun e => e.1).dedup.foldl (refreshStorage blake3) _ = r at hrefresh
    have hslot := @slotAt_restore _ _ h.preimage t.contractStorage h.kept
    have hmem : ∀ a, a ∈ (entries.map fun e => e.1).dedup ↔ a ∈ recorded entries :=
      fun a => mem_dedup
    rw [hstorage] at hrefresh
    -- a recorded contract has its old slots back, and its entry only if it had one
    have hentry : ∀ a ∈ recorded entries,
        (entries.foldl restoreSlot t.contractStorage)[a]?.filter (fun m => !m.isEmpty) =
          s.contractStorage[a]? := by
      intro a ha
      obtain ⟨k, m, -, hm, -, -⟩ := h.inside a ha
      obtain ⟨m', hm'⟩ := Option.isSome_iff_exists.mp
        (isSome_restore (Option.isSome_iff_exists.mpr ⟨m, hm⟩))
      have heq : m' = s.contractStorage[a]?.getD ∅ := by
        apply HashMap.ext_get?
        intro k
        have := hslot a k
        rwa [slotAt, hm'] at this
      rw [hm', heq]
      cases hget : s.contractStorage[a]? with
      | none => rfl
      | some m =>
        have := hs.nonempty a m hget
        simp [Option.filter, this]
    have hrstorage : r.contractStorage = s.contractStorage := by
      apply HashMap.ext_get?
      intro a
      by_cases ha : a ∈ recorded entries
      · rw [hrefresh.storage a ((hmem a).mpr ha)]
        exact hentry a ha
      · rw [(hrefresh.outside a fun h => ha ((hmem a).mp h)).1]
        exact (getElem?_restore_of_not_mem ha _).trans (h.outside a ha).1
    have hrkind : r.kind = s.kind := by
      funext a
      by_cases ha : a ∈ recorded entries
      · obtain ⟨k, m, hk, -, -, htk⟩ := h.inside a ha
        rw [hrefresh.kind a ((hmem a).mpr ha), hrstorage, hk]
        change (u.kind a).map _ = _
        rw [hkind, htk, Option.map_some, ← hs.root a k hk]
      · rw [(hrefresh.outside a fun h => ha ((hmem a).mp h)).2]
        exact (congrFun hkind a).trans (h.outside a ha).2
    refine ⟨hrefresh.canonical, ?_⟩
    rw [hrefresh.frame, hrstorage, hrkind]
    rfl

end State

end Strangecoin
