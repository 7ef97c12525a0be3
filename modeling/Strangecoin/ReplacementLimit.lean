import Strangecoin.PoolRuns

/-! # The replacement limit

The length of a replacement chain is kept with the transaction.  When a lower nonce is replaced
the later transactions of the sender leave the pool and their counters with them, so a slot that
is filled again starts over.
-/
namespace Strangecoin

namespace Mempool
open HashMap
variable {crates : Crates} {pool pool' : Mempool} {tx : Transaction} {id : TxId} {s : String}
  {n : UInt64}

/-! ### Slots -/

/-- A nonce of a sender is taken by the transaction that has both. -/
theorem Coherent.entry_eq_some (h : pool.Coherent) :
    pool.entry s n = some id ↔ ∃ tx, pool.txs[id]? = some tx ∧ tx.sender = s ∧ tx.nonce = n := by
  constructor
  · exact h.listed s n id
  · rintro ⟨tx, htx, rfl, rfl⟩
    exact h.indexed id tx htx

theorem Coherent.entry_of_foldl_remove (h : pool.Coherent) (ids : List TxId) :
    (ids.foldl Mempool.remove pool).entry s n = some id ↔ id ∉ ids ∧ pool.entry s n = some id := by
  rw [(h.foldl_remove ids).entry_eq_some, h.entry_eq_some]
  simp only [txs_foldl_remove]
  by_cases hid : id ∈ ids <;> simp [hid]

theorem generations_foldl_remove (ids : List TxId) (id : TxId) :
    (ids.foldl Mempool.remove pool).generations[id]? =
      if id ∈ ids then none else pool.generations[id]? := by
  induction ids generalizing pool with
  | nil => simp
  | cons id' ids ih =>
    rw [List.foldl_cons, ih, Mempool.remove, get?_erase]
    by_cases hid : id = id' <;> by_cases hids : id ∈ ids <;> simp [hid, hids]

/-- The length of the replacement chain in a slot. -/
def slotGeneration (pool : Mempool) (s : String) (n : UInt64) : UInt32 :=
  ((pool.entry s n).bind fun id => pool.generations[id]?).getD 0

theorem slotGeneration_of_entry (h : pool.entry s n = some id) :
    pool.slotGeneration s n = pool.generations[id]?.getD 0 := by
  rw [slotGeneration, h, Option.bind_some]

theorem slotGeneration_of_free (h : pool.entry s n = none) : pool.slotGeneration s n = 0 := by
  rw [slotGeneration, h]
  rfl

theorem Tidy.slotGeneration_le (h : pool.Tidy) :
    pool.slotGeneration s n ≤ MAX_RBF_REPLACEMENTS := by
  rw [slotGeneration]
  cases hentry : (pool.entry s n).bind fun id => pool.generations[id]? with
  | none => decide
  | some g =>
    obtain ⟨id, -, hg⟩ := Option.bind_eq_some_iff.mp hentry
    exact h.generation_le id g hg

theorem slotGeneration_store {g : UInt32} (hid : pool.entry s n ≠ some id) :
    (pool.store id tx g).slotGeneration s n =
      if s = tx.sender ∧ n = tx.nonce then g else pool.slotGeneration s n := by
  rw [slotGeneration, entry_store]
  split
  · rw [Option.bind_some, store, get?_insert, if_pos rfl]
    rfl
  · rw [slotGeneration]
    cases hentry : pool.entry s n with
    | none => rfl
    | some id' =>
      have hne : id' ≠ id := by
        rintro rfl
        exact hid hentry
      rw [Option.bind_some, Option.bind_some, store, get?_insert, if_neg hne]

/-! ### One insertion -/

section
variable (crates : Crates) (account : String → Account)

/-- Whether an insertion supersedes a pending transaction. -/
def supersedes (pool : Mempool) (tx : Transaction) : Bool :=
  match (insert crates tx (account tx.sender)).run pool with
  | .ok (.replaced _) _ => true
  | _ => false

/-- How often the transaction in a slot is superseded by these insertions. -/
def superseded (s : String) (n : UInt64) : Mempool → List Transaction → Nat
  | _, [] => 0
  | pool, tx :: txs =>
    (if supersedes crates account pool tx = true ∧ s = tx.sender ∧ n = tx.nonce then 1 else 0) +
      superseded s n (after crates pool (.insert tx (account tx.sender))) txs

/-- What is evicted along with the conflicting transaction has replaced nothing. -/
def EvictsOriginals (pool : Mempool) (tx : Transaction) : Prop :=
  supersedes crates account pool tx = true → ∀ id ∈ pool.findReplaceable tx,
    pool.entry tx.sender tx.nonce ≠ some id → pool.generations[id]?.getD 0 = 0

/-- It is so at every insertion of a sequence. -/
def EvictsOriginalsAll : Mempool → List Transaction → Prop
  | _, [] => True
  | pool, tx :: txs => EvictsOriginals crates account pool tx ∧
      EvictsOriginalsAll (after crates pool (.insert tx (account tx.sender))) txs

instance (pool : Mempool) (tx : Transaction) : Decidable (EvictsOriginals crates account pool tx) :=
  inferInstanceAs (Decidable (_ → _))

instance decidableEvictsOriginalsAll : ∀ (pool : Mempool) (txs : List Transaction),
    Decidable (EvictsOriginalsAll crates account pool txs)
  | _, [] => .isTrue trivial
  | pool, tx :: txs =>
    have := decidableEvictsOriginalsAll (after crates pool (.insert tx (account tx.sender))) txs
    inferInstanceAs (Decidable (_ ∧ _))

end

variable {account : String → Account}

theorem after_of_run {outcome : InsertOutcome}
    (hrun : (insert crates tx (account tx.sender)).run pool = .ok outcome pool') :
    after crates pool (.insert tx (account tx.sender)) = pool' := by
  rw [after, hrun]

/-- The new id is not in the index. -/
theorem Coherent.entry_ne_new (h : pool.Coherent) (hnew : pool.txs[id]? = none) :
    pool.entry s n ≠ some id := by
  intro hentry
  obtain ⟨old, hold, -⟩ := h.listed _ _ _ hentry
  rw [hnew] at hold
  cases hold

/-- A replacement leaves the counters of the other slots, as far as they are not evicted with a
counter above zero. -/
theorem slotGeneration_foldl_remove (hcoherent : pool.Coherent) {ids : List TxId}
    (hzero : ∀ id ∈ ids, pool.entry s n = some id → pool.generations[id]?.getD 0 = 0) :
    (ids.foldl Mempool.remove pool).slotGeneration s n = pool.slotGeneration s n := by
  cases hentry : pool.entry s n with
  | none =>
    have hafter : (ids.foldl Mempool.remove pool).entry s n = none := by
      refine Option.eq_none_iff_forall_ne_some.mpr fun id hid => ?_
      rw [((hcoherent.entry_of_foldl_remove ids).mp hid).2] at hentry
      cases hentry
    rw [slotGeneration_of_free hafter, slotGeneration_of_free hentry]
  | some id =>
    rw [slotGeneration_of_entry hentry]
    by_cases hid : id ∈ ids
    · have hafter : (ids.foldl Mempool.remove pool).entry s n = none := by
        refine Option.eq_none_iff_forall_ne_some.mpr fun id' hid' => ?_
        obtain ⟨hout, hsame⟩ := (hcoherent.entry_of_foldl_remove ids).mp hid'
        rw [hentry] at hsame
        exact hout (Option.some.inj hsame ▸ hid)
      rw [slotGeneration_of_free hafter, hzero id hid hentry]
    · rw [slotGeneration_of_entry ((hcoherent.entry_of_foldl_remove ids).mpr ⟨hid, hentry⟩),
        generations_foldl_remove, if_neg hid]

/-- **The counter of a slot counts**: it goes up by one with every replacement there. -/
theorem slotGeneration_after (hcoherent : pool.Coherent) (htidy : pool.Tidy)
    (hevicts : EvictsOriginals crates account pool tx) :
    ((after crates pool (.insert tx (account tx.sender))).slotGeneration s n).toNat =
      (pool.slotGeneration s n).toNat +
        if supersedes crates account pool tx = true ∧ s = tx.sender ∧ n = tx.nonce then 1
        else 0 := by
  cases hrun : (insert crates tx (account tx.sender)).run pool with
  | error f pool' =>
    have hstill : supersedes crates account pool tx = false := by rw [supersedes, hrun]
    rw [after, hrun, (insert_error hcoherent hrun).2, hstill, if_neg (by simp)]
    rfl
  | ok outcome pool' =>
    rw [after_of_run hrun]
    obtain ⟨hnew, -, -, -, -, generation, -, houtcome, rfl⟩ := insert_ok hrun
    cases hfind : pool.findReplaceable tx with
    | nil =>
      -- a free slot is filled
      rw [hfind] at houtcome
      obtain ⟨rfl, rfl⟩ := Prod.mk.inj houtcome
      rw [List.foldl_nil]
      have hstill : supersedes crates account pool tx = false := by rw [supersedes, hrun]
      have hfree := findReplaceable_eq_nil.mp hfind
      have hno : ¬ (supersedes crates account pool tx = true ∧ s = tx.sender ∧ n = tx.nonce) := by
        simp [hstill]
      rw [slotGeneration_store (hcoherent.entry_ne_new hnew), if_neg hno, Nat.add_zero]
      split
      · rename_i hslot
        rw [hslot.1, hslot.2, slotGeneration_of_free hfree]
      · rfl
    | cons conflict rest =>
      rw [hfind] at houtcome
      obtain ⟨rfl, rfl⟩ := Prod.mk.inj houtcome
      have hreplaced : supersedes crates account pool tx = true := by rw [supersedes, hrun]
      have hconflict := findReplaceable_cons hfind
      have hrest := hcoherent.foldl_remove (conflict :: rest)
      have hgone : ((conflict :: rest).foldl Mempool.remove pool).txs[crates.txid tx]? = none := by
        rw [txs_foldl_remove, hnew, ite_self]
      rw [slotGeneration_store (hrest.entry_ne_new hgone), hreplaced]
      simp only [true_and]
      split
      · -- the slot of the conflict
        rename_i hslot
        rw [hslot.1, hslot.2, slotGeneration_of_entry hconflict]
        have hle := UInt32.le_iff_toNat_le.mp (htidy.slotGeneration_le (s := tx.sender)
          (n := tx.nonce))
        rw [slotGeneration_of_entry hconflict] at hle
        have hmax : MAX_RBF_REPLACEMENTS.toNat = 10 := rfl
        rw [UInt32.toNat_add, UInt32.toNat_one]
        omega
      · rename_i hslot
        rw [slotGeneration_foldl_remove hcoherent, Nat.add_zero]
        -- another slot is evicted with a counter of zero
        intro id hid hentry
        refine hevicts hreplaced id (hfind ▸ hid) fun hsame => hslot ?_
        obtain ⟨old, hold, rfl, rfl⟩ := hcoherent.listed _ _ _ hentry
        obtain ⟨old', hold', hs, hn⟩ := hcoherent.listed _ _ _ hsame
        obtain rfl := Option.some.inj (hold.symm.trans hold')
        exact ⟨hs, hn⟩

/-- The replacements still to come, and those counted. -/
theorem superseded_add_generation_le {chainId : UInt32} {txs : List Transaction}
    (hsound : pool.Sound crates chainId) (htidy : pool.Tidy)
    (hevicts : EvictsOriginalsAll crates account pool txs) :
    superseded crates account s n pool txs + (pool.slotGeneration s n).toNat ≤
      MAX_RBF_REPLACEMENTS.toNat := by
  induction txs generalizing pool with
  | nil =>
    rw [superseded, Nat.zero_add]
    exact UInt32.le_iff_toNat_le.mp htidy.slotGeneration_le
  | cons tx txs ih =>
    have hrest := ih (hsound.after _) (htidy.after hsound _) hevicts.2
    rw [slotGeneration_after hsound.coherent htidy hevicts.1] at hrest
    rw [superseded]
    omega

end Mempool

/-- **The replacement limit** holds for every slot, over any insertions into a new pool with
fixed accounts, as long as what is evicted along with a conflicting transaction has itself
replaced nothing. -/
theorem replacement_limit_effective {crates : Crates} {account : String → Account}
    {chainId : UInt32} {txs : List Transaction}
    (hevicts : Mempool.EvictsOriginalsAll crates account (Mempool.new chainId) txs) (s : String)
    (n : UInt64) :
    Mempool.superseded crates account s n (Mempool.new chainId) txs ≤
      MAX_RBF_REPLACEMENTS.toNat :=
  (Nat.le_add_right _ _).trans (Mempool.superseded_add_generation_le
    (Mempool.sound_new crates chainId) (Mempool.tidy_new chainId) hevicts)

/-! ### A slot that starts over -/

/-- A transfer whose encoding has 51 bytes and the padding.  The flag spares the signature. -/
def paddedTransfer (nonce : UInt64) (padding : Nat) : Transaction :=
  .transfer ⟨"alice", "bob", 0, 0, nonce, CHAIN_ID_REGTEST, List.replicate padding 0, true⟩

theorem replacement_limit_one :
    Mempool.superseded nonzeroCrates (fun _ => Account.default) "alice" 1
      (Mempool.new CHAIN_ID_REGTEST) [paddedTransfer 1 16, paddedTransfer 1 0] ≤
        MAX_RBF_REPLACEMENTS.toNat :=
  replacement_limit_effective (by rw [nonzeroCrates_eq]; decide +kernel) "alice" 1

/-- Six replacements of the second nonce, one of the first, five more of the second. -/
def startingOver : List Transaction :=
  paddedTransfer 1 16 :: [203, 144, 99, 64, 37, 16, 0].map (paddedTransfer 2) ++
    paddedTransfer 1 0 :: [144, 99, 64, 37, 16, 0].map (paddedTransfer 2)

/-- **Counterexample to the replacement limit.** -/
theorem slot_superseded_eleven_times :
    Mempool.superseded nonzeroCrates (fun _ => Account.default) "alice" 2
      (Mempool.new CHAIN_ID_REGTEST) startingOver = 11 ∧ MAX_RBF_REPLACEMENTS.toNat = 10 := by
  rw [nonzeroCrates_eq]
  decide +kernel

end Strangecoin
