import Strangecoin.WasmVm
import Strangecoin.ReferenceCrates

/-! # The storage cap

A write is refused when the persisted bytes of a contract and the bytes staged for it, with
the new value, are over the cap.  The persisted value of a slot that is staged counts too,
though a flush replaces it.
-/
namespace Strangecoin
open List HashMap State

/-- The persisted bytes that writes replace. -/
def replacedBytes (storage : ContractStorage) (writes : List (Digest × List UInt8)) : Nat :=
  (writes.map fun e => weightAt length storage e.1).sum

theorem valueBytes_applyWrites {writes : List (Digest × List UInt8)}
    (hnodup : (writes.map Prod.fst).Nodup) (storage : ContractStorage) :
    valueBytes (applyWrites storage writes) + replacedBytes storage writes =
      valueBytes storage + (writes.map fun e => e.2.length).sum := by
  induction writes generalizing storage with
  | nil => rfl
  | cons e writes ih =>
    obtain ⟨hfresh, hnodup⟩ := nodup_cons.mp hnodup
    have hslot : valueBytes (storage.insert e.1 e.2) + weightAt length storage e.1 =
        valueBytes storage + e.2.length := weight_insert length storage e.1 e.2
    have hsame : replacedBytes (storage.insert e.1 e.2) writes = replacedBytes storage writes := by
      refine congrArg sum (map_congr_left fun e' he' => ?_)
      have hne : e'.1 ≠ e.1 := fun h => hfresh (h ▸ mem_map_of_mem he')
      rw [weightAt, weightAt, get?_insert, if_neg hne]
    have hrest := ih hnodup (storage.insert e.1 e.2)
    rw [hsame] at hrest
    change valueBytes (applyWrites (storage.insert e.1 e.2) writes) +
      (weightAt length storage e.1 + replacedBytes storage writes) = _
    rw [map_cons, sum_cons]
    omega

namespace ExecutionContext
variable (ctx : ExecutionContext) (key : Digest) (value : List UInt8)

def persisted : ContractStorage := ctx.storage[ctx.storageAddress]?.getD ∅

def staged : ContractStorage := ctx.storageOverlay[ctx.storageAddress]?.getD ∅

/-- The contract's storage after a flush of the overlay with one more write. -/
def flushedWith : ContractStorage := applyWrites ctx.persisted (ctx.staged.insert key value).toList

/-- The persisted bytes that the flush replaces. -/
def overlap : Nat :=
  weightAt length ctx.persisted key + replacedBytes ctx.persisted (ctx.staged.erase key).toList

/-- **What the check counts**: the bytes after the flush and those that it replaces. -/
theorem bytesWith_eq :
    ctx.bytesWith key value = valueBytes (ctx.flushedWith key value) + ctx.overlap key := by
  have hkeys : ((ctx.staged.insert key value).toList.map Prod.fst).Nodup := by
    rw [Std.ExtTreeMap.map_fst_toList_eq_keys]
    exact Std.ExtTreeMap.nodup_keys
  have hflush := valueBytes_applyWrites hkeys ctx.persisted
  have hreplaced : replacedBytes ctx.persisted (ctx.staged.insert key value).toList =
      ctx.overlap key :=
    ((toList_insert_perm ctx.staged key value).map fun e : Digest × List UInt8 =>
      weightAt length ctx.persisted e.1).sum_eq
  have hstaged : valueBytes (ctx.staged.insert key value) + weightAt length ctx.staged key =
      valueBytes ctx.staged + value.length := weight_insert length ctx.staged key value
  have hle : _ + weightAt length ctx.staged key = valueBytes ctx.staged :=
    weight_erase length ctx.staged key
  have hslot : (ctx.staged[key]?.map length).getD 0 = weightAt length ctx.staged key := by
    cases h : ctx.staged[key]? <;> simp [weightAt, h]
  rw [hreplaced] at hflush
  change valueBytes ctx.persisted + (valueBytes ctx.staged - (ctx.staged[key]?.map length).getD 0) +
    value.length = valueBytes (applyWrites _ _) + _
  rw [hslot]
  change _ = valueBytes ctx.persisted + valueBytes (ctx.staged.insert key value) at hflush
  omega

/-- The bytes after the flush grow with the value. -/
theorem valueBytes_flushedWith :
    valueBytes (ctx.flushedWith key value) =
      valueBytes (ctx.flushedWith key []) + value.length := by
  have hempty := ctx.bytesWith_eq key []
  have hvalue := ctx.bytesWith_eq key value
  simp only [bytesWith, length_nil] at hempty hvalue
  omega

end ExecutionContext

section
variable {store : Store} {key : Digest} {value : List UInt8}

/-- The write is refused for the cap. -/
def Store.Refuses (store : Store) (key : Digest) (value : List UInt8) : Prop :=
  ∃ store', (storageWrite key value).run store = .error (.host .maxStoragePerContract) store'

theorem Store.refuses_iff : store.Refuses key value ↔
    HostCallWeight.storageWrite.gas ≤ store.fuel ∧ store.host.ctx.readOnly = false ∧
      MAX_STORAGE_PER_CONTRACT < store.host.ctx.bytesWith key value := by
  unfold Refuses storageWrite charge
  simp only [bind_assoc, run_get_bind, run_check_bind_error, run_modify_bind, Store.charged,
    guardWith_eq_ok, guardWith_eq_error]
  constructor
  · rintro ⟨store', ⟨⟨-, h⟩, -⟩ | ⟨-, hfuel, ⟨⟨-, h⟩, -⟩ | ⟨-, hopen, ⟨⟨hcap, -⟩, -⟩ | h⟩⟩⟩
    · cases h
    · cases h
    · exact ⟨hfuel, hopen, Nat.lt_of_not_le hcap⟩
    · cases h.choose_spec.2
  · rintro ⟨hfuel, hopen, hcap⟩
    exact ⟨_, .inr ⟨(), hfuel, .inr ⟨(), hopen, .inl ⟨⟨Nat.not_le_of_lt hcap, trivial⟩, rfl⟩⟩⟩⟩

/-- A value that fills the storage up is refused if the flush replaces bytes. -/
theorem exists_fitting_refused (hfuel : HostCallWeight.storageWrite.gas ≤ store.fuel)
    (hopen : store.host.ctx.readOnly = false)
    (hroom : valueBytes (store.host.ctx.flushedWith key []) ≤ MAX_STORAGE_PER_CONTRACT)
    (hoverlap : store.host.ctx.overlap key ≠ 0) :
    ∃ value, valueBytes (store.host.ctx.flushedWith key value) ≤ MAX_STORAGE_PER_CONTRACT ∧
      store.Refuses key value := by
  let value := replicate
    (MAX_STORAGE_PER_CONTRACT - valueBytes (store.host.ctx.flushedWith key [])) (0 : UInt8)
  have hfull := store.host.ctx.valueBytes_flushedWith key value
  rw [length_replicate] at hfull
  refine ⟨value, by omega, Store.refuses_iff.mpr ⟨hfuel, hopen, ?_⟩⟩
  rw [ExecutionContext.bytesWith_eq]
  omega

end

/-- **When no write that fits is refused**: when a flush replaces no persisted bytes, or no
write gets as far as the check or fits at all. -/
theorem fitting_write_accepted_iff (store : Store) (key : Digest) :
    (∀ value, valueBytes (store.host.ctx.flushedWith key value) ≤ MAX_STORAGE_PER_CONTRACT →
      ¬ store.Refuses key value) ↔
    store.fuel < HostCallWeight.storageWrite.gas ∨ store.host.ctx.readOnly = true ∨
      MAX_STORAGE_PER_CONTRACT < valueBytes (store.host.ctx.flushedWith key []) ∨
      store.host.ctx.overlap key = 0 := by
  constructor
  · intro h
    by_contra hnot
    simp only [not_or, Nat.not_lt, Bool.not_eq_true, UInt64.not_lt] at hnot
    obtain ⟨hfuel, hopen, hroom, hoverlap⟩ := hnot
    obtain ⟨value, hfits, hrefused⟩ := exists_fitting_refused hfuel hopen hroom hoverlap
    exact h value hfits hrefused
  · rintro hcases value hfits hrefused
    obtain ⟨hpaid, hopen, hcap⟩ := Store.refuses_iff.mp hrefused
    rw [ExecutionContext.bytesWith_eq] at hcap
    rcases hcases with hfuel | hro | hover | hnone
    · exact UInt64.not_le.mpr hfuel hpaid
    · exact Bool.false_ne_true (hopen.symm.trans hro)
    · have hgrows := store.host.ctx.valueBytes_flushedWith key value
      omega
    · omega

/-- A frame of a contract that has one byte in one slot. -/
def oneSlot : Store :=
  let storage := (∅ : ContractStorage).insert zeroDigest [1]
  let s := { State.new with contractStorage := (∅ : ContractStorageMap).insert "contract" storage }
  ⟨⟨executionContext s (.ofTransactions 1 []) "alice" "contract" 0 5000 [], ["contract"], [], [],
    []⟩, 5000, .start⟩

/-- **Counterexample to accepting every write that fits**: the slot is overwritten with as
many bytes as a contract may have. -/
theorem overwriting_slot_refused :
    ¬ ∀ (store : Store) (key : Digest) (value : List UInt8),
      valueBytes (store.host.ctx.flushedWith key value) ≤ MAX_STORAGE_PER_CONTRACT →
      ¬ store.Refuses key value := by
  intro h
  obtain ⟨value, hfits, hrefused⟩ := @exists_fitting_refused oneSlot zeroDigest (by decide) rfl
    (by decide +kernel) (by decide +kernel)
  exact h oneSlot zeroDigest value hfits hrefused

end Strangecoin
