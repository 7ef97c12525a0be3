import Strangecoin.MergeOrder

/-! # Runs of the mempool

Whatever is inserted, with whatever accounts, and removed, the three maps of the pool
describe one set of transactions (`Represents`), and an insertion that fails has changed
nothing.
-/
namespace Strangecoin
open List Mempool Blockchain

variable {chainId : UInt32} {outcome : InsertOutcome}

namespace Mempool
open HashMap
variable {crates : Crates} {pool pool' : Mempool} {tx : Transaction} {id : TxId} {s : String}

/-! ### The representation -/

/-- What the three maps of a pool have to do with each other. -/
structure Represents (pool : Mempool) : Prop where
  ids : ∀ id : TxId, (pool.txs[id]?).isSome ↔ ∃ s n, pool.entry s n = some id
  generations : ∀ id : TxId, (pool.generations[id]?).isSome = (pool.txs[id]?).isSome
  entries : ∀ s n id, pool.entry s n = some id →
    ∃ tx, pool.txs[id]? = some tx ∧ tx.sender = s ∧ tx.nonce = n
  unique : ∀ (id id' : TxId) tx tx', pool.txs[id]? = some tx → pool.txs[id']? = some tx' →
    tx.sender = tx'.sender → tx.nonce = tx'.nonce → id = id'
  nonempty : ∀ (s : String) entries, pool.bySender[s]? = some entries → entries.isEmpty = false
  generation_le : ∀ (id : TxId) g, pool.generations[id]? = some g → g ≤ MAX_RBF_REPLACEMENTS
  bounded : pool.txs.size ≤ MAX_PENDING_TXS

/-- The generations follow the transactions, and no sender has an empty map. -/
structure Tidy (pool : Mempool) : Prop where
  generations : ∀ id : TxId, (pool.generations[id]?).isSome = (pool.txs[id]?).isSome
  generation_le : ∀ (id : TxId) g, pool.generations[id]? = some g → g ≤ MAX_RBF_REPLACEMENTS
  nonempty : ∀ (s : String) entries, pool.bySender[s]? = some entries → entries.isEmpty = false

theorem tidy_new (chainId : UInt32) : (Mempool.new chainId).Tidy := by
  refine ⟨fun id => by simp [Mempool.new], fun id g h => ?_, fun s entries h => ?_⟩
  · simp [Mempool.new] at h
  · simp [Mempool.new] at h

theorem nonempty_unindex {bySender : HashMap String (HashMap UInt64 TxId)}
    (h : ∀ (s : String) entries, bySender[s]? = some entries → entries.isEmpty = false)
    (s : String) (entries : HashMap UInt64 TxId) (hs : (unindex bySender tx)[s]? = some entries) :
    entries.isEmpty = false := by
  unfold unindex at hs
  split at hs
  · exact h s entries hs
  · split at hs
    · rw [get?_erase] at hs
      split at hs
      · cases hs
      · exact h s entries hs
    · rename_i hkeep
      rw [get?_insert] at hs
      split at hs
      · rw [← Option.some.inj hs]
        exact Bool.eq_false_iff.mpr hkeep
      · exact h s entries hs

theorem Tidy.remove (h : pool.Tidy) (id : TxId) : (pool.remove id).Tidy := by
  refine ⟨fun id' => ?_, fun id' g hg => ?_, fun s entries hs => ?_⟩
  · rw [txs_remove, Mempool.remove, get?_erase]
    split
    · rfl
    · exact h.generations id'
  · rw [Mempool.remove, get?_erase] at hg
    split at hg
    · cases hg
    · exact h.generation_le id' g hg
  · rw [Mempool.remove] at hs
    cases htx : pool.txs[id]? with
    | none =>
      simp only [htx] at hs
      exact h.nonempty s entries hs
    | some tx =>
      simp only [htx] at hs
      exact nonempty_unindex h.nonempty s entries hs

theorem Tidy.foldl_remove (h : pool.Tidy) (ids : List TxId) : (ids.foldl Mempool.remove pool).Tidy := by
  induction ids generalizing pool with
  | nil => exact h
  | cons id ids ih => exact ih (h.remove id)

theorem Tidy.store (h : pool.Tidy) {g : UInt32} (hg : g ≤ MAX_RBF_REPLACEMENTS) :
    (pool.store id tx g).Tidy := by
  refine ⟨fun id' => ?_, fun id' g' hg' => ?_, fun s entries hs => ?_⟩
  · rw [txs_store, Mempool.store, get?_insert]
    split
    · rfl
    · exact h.generations id'
  · rw [Mempool.store, get?_insert] at hg'
    split at hg'
    · rw [← Option.some.inj hg']
      exact hg
    · exact h.generation_le id' g' hg'
  · rw [Mempool.store, get?_insert] at hs
    split at hs
    · rw [← Option.some.inj hs]
      refine Bool.eq_false_iff.mpr fun hempty => ?_
      have hself := get?_insert (pool.bySender[tx.sender]?.getD ∅) tx.nonce tx.nonce id
      rw [Std.ExtTreeMap.isEmpty_iff.mp hempty, if_pos rfl] at hself
      simp at hself
    · exact h.nonempty s entries hs

theorem Tidy.insert {account : Account} (h : pool.Tidy)
    (hrun : (insert crates tx account).run pool = .ok outcome pool') : pool'.Tidy := by
  obtain ⟨-, -, -, -, -, generation, hle, -, rfl⟩ := insert_ok hrun
  exact (h.foldl_remove _).store hle

theorem represents_of (h : pool.Sound crates chainId) (htidy : pool.Tidy) : pool.Represents := by
  refine ⟨fun id => ⟨fun hid => ?_, ?_⟩, htidy.generations, h.coherent.listed, ?_, htidy.nonempty,
    htidy.generation_le, h.admitted.bounded⟩
  · obtain ⟨tx, htx⟩ := Option.isSome_iff_exists.mp hid
    exact ⟨tx.sender, tx.nonce, h.coherent.indexed id tx htx⟩
  · rintro ⟨s, n, hentry⟩
    obtain ⟨tx, htx, -⟩ := h.coherent.listed s n id hentry
    rw [htx]
    rfl
  · intro id id' tx tx' htx htx' hs hn
    have hentry := h.coherent.indexed id tx htx
    rw [hs, hn, h.coherent.indexed id' tx' htx'] at hentry
    exact (Option.some.inj hentry).symm

/-! ### Insertions that fail -/

theorem entry_of_mem_findReplaceable (h : id ∈ pool.findReplaceable tx) :
    ∃ n, pool.entry tx.sender n = some id := by
  rw [findReplaceable] at h
  cases hs : pool.bySender[tx.sender]? with
  | none => simp [hs] at h
  | some entries =>
    cases hn : entries[tx.nonce]? with
    | none => simp [hs, hn] at h
    | some conflict =>
      simp only [hs, hn] at h
      rcases mem_cons.mp h with rfl | hmem
      · exact ⟨tx.nonce, by rw [entry, hs, Option.bind_some, hn]⟩
      · obtain ⟨⟨n, id'⟩, hentry, rfl⟩ := mem_map.mp hmem
        refine ⟨n, ?_⟩
        rw [entry, hs, Option.bind_some]
        exact Std.ExtTreeMap.mem_toList_iff_getElem?_eq_some.mp (mem_of_mem_filter hentry)

theorem mem_findReplaceable (h : pool.entry tx.sender tx.nonce = some id) :
    id ∈ pool.findReplaceable tx := by
  cases hfind : pool.findReplaceable tx with
  | nil =>
    rw [findReplaceable_eq_nil.mp hfind] at h
    cases h
  | cons conflict rest =>
    rw [findReplaceable_cons hfind] at h
    rw [← Option.some.inj h]
    exact mem_cons_self

/-- **A failed insertion changes nothing**, and it fails with an error: the transaction
of an index entry is always there. -/
theorem insert_error {account : Account} {f : Failure} (h : pool.Coherent)
    (hrun : (insert crates tx account).run pool = .error f pool') :
    (∃ e, f = .error e) ∧ pool' = pool := by
  have hlift : ∀ x : Except CoreError Unit, liftCore x = .error f → ∃ e, f = .error e := by
    intro x hx
    obtain ⟨e, -, rfl⟩ := liftCore_eq_error.mp hx
    exact ⟨_, rfl⟩
  have hvalidate : ∀ ids, pool.validateAgainstPool tx account ids = .error f → ∃ e, f = .error e := by
    intro ids hx
    rcases bind_eq_error.mp hx with hx | ⟨_, -, hx⟩
    · exact hlift _ hx
    · exact ⟨_, (guardNode_eq_error.mp hx).2⟩
  rw [insert, run_get_bind] at hrun
  rcases run_check_bind_error.mp hrun with ⟨hx, hsame⟩ | ⟨_, -, hrun⟩
  · exact ⟨⟨_, (guardNode_eq_error.mp hx).2⟩, hsame⟩
  rcases run_check_bind_error.mp hrun with ⟨hx, hsame⟩ | ⟨_, -, hrun⟩
  · exact ⟨hlift _ hx, hsame⟩
  rcases run_check_bind_error.mp hrun with ⟨hx, hsame⟩ | ⟨_, -, hrun⟩
  · exact ⟨⟨_, (guardNode_eq_error.mp hx).2⟩, hsame⟩
  cases hfind : pool.findReplaceable tx with
  | nil =>
    rw [hfind] at hrun
    rcases run_check_bind_error.mp hrun with ⟨hx, hsame⟩ | ⟨_, -, hrun⟩
    · exact ⟨⟨_, (guardNode_eq_error.mp hx).2⟩, hsame⟩
    rcases run_check_bind_error.mp hrun with ⟨hx, hsame⟩ | ⟨_, -, hrun⟩
    · exact ⟨hvalidate _ hx, hsame⟩
    · cases hrun
  | cons conflict rest =>
    rw [hfind] at hrun
    change (replace crates tx account conflict (conflict :: rest)).run pool = _ at hrun
    rw [replace, run_get_bind] at hrun
    rcases run_check_bind_error.mp hrun with ⟨hx, -⟩ | ⟨_, -, hrun⟩
    · -- the `expect`
      obtain ⟨old, hold, -⟩ := h.listed _ _ _ (findReplaceable_cons hfind)
      rw [hold] at hx
      cases hx
    rcases run_check_bind_error.mp hrun with ⟨hx, hsame⟩ | ⟨_, -, hrun⟩
    · exact ⟨⟨_, (guardNode_eq_error.mp hx).2⟩, hsame⟩
    rcases run_check_bind_error.mp hrun with ⟨hx, hsame⟩ | ⟨_, -, hrun⟩
    · exact ⟨⟨_, (guardNode_eq_error.mp hx).2⟩, hsame⟩
    rcases run_check_bind_error.mp hrun with ⟨hx, hsame⟩ | ⟨_, -, hrun⟩
    · exact ⟨hvalidate _ hx, hsame⟩
    · cases hrun

/-! ### Sequences of operations -/

/-- A call on the pool. -/
inductive Op where
  | insert (tx : Transaction) (account : Account)
  | remove (id : TxId)

/-- The pool after a call, whether it succeeds or not. -/
def after (crates : Crates) (pool : Mempool) : Op → Mempool
  | .insert tx account =>
    match (Mempool.insert crates tx account).run pool with
    | .ok _ pool' => pool'
    | .error _ pool' => pool'
  | .remove id => pool.remove id

/-- The pool after calls on a new one. -/
def runOps (crates : Crates) (chainId : UInt32) (ops : List Op) : Mempool :=
  ops.foldl (after crates) (Mempool.new chainId)

/-- An invariant of the successful insertions and of the removals holds of every pool. -/
theorem after_invariant {I : Mempool → Prop} (hI : I pool) (hcoherent : pool.Coherent) (op : Op)
    (hinsert : ∀ tx account outcome pool', op = .insert tx account →
      (Mempool.insert crates tx account).run pool = .ok outcome pool' → I pool')
    (hremove : ∀ id, I (pool.remove id)) : I (after crates pool op) := by
  cases op with
  | remove id => exact hremove id
  | insert tx account =>
    rw [after]
    cases hrun : (Mempool.insert crates tx account).run pool with
    | ok outcome pool' => exact hinsert tx account outcome pool' rfl hrun
    | error f pool' =>
      rw [(insert_error hcoherent hrun).2]
      exact hI

theorem Sound.after (h : pool.Sound crates chainId) (op : Op) :
    (after crates pool op).Sound crates chainId :=
  after_invariant h h.coherent op (fun _ _ _ _ _ hrun => h.insert hrun) h.remove

theorem Tidy.after (h : pool.Tidy) (hsound : pool.Sound crates chainId) (op : Op) :
    (after crates pool op).Tidy :=
  after_invariant h hsound.coherent op (fun _ _ _ _ _ hrun => h.insert hrun) h.remove

theorem sound_runOps (crates : Crates) (chainId : UInt32) (ops : List Op) :
    (runOps crates chainId ops).Sound crates chainId ∧ (runOps crates chainId ops).Tidy := by
  induction ops using List.reverseRecOn with
  | nil => exact ⟨sound_new crates chainId, tidy_new chainId⟩
  | append_singleton ops op ih =>
    rw [runOps, foldl_append]
    exact ⟨ih.1.after op, ih.2.after ih.1 op⟩

/-! ### What the pending transactions cost -/

theorem pending_foldl_remove (ids : List TxId) (s : String) :
    ((ids.foldl Mempool.remove pool).pending s []).Perm (pool.pending s ids) := by
  rw [perm_ext_iff_of_nodup (nodup_pending _) (nodup_pending _)]
  rintro ⟨id, tx⟩
  rw [mem_pending, mem_pending, txs_foldl_remove]
  by_cases hid : id ∈ ids <;> simp [hid]

theorem pending_sublist (excluded : List TxId) :
    (pool.pending s excluded).Sublist (pool.pending s []) := by
  refine monotone_filter_right _ fun e he => ?_
  simp only [decide_eq_true_eq] at he ⊢
  exact ⟨he.1, not_mem_nil⟩

/-- The costs that `validate_against_pool` adds up are covered. -/
def Covered (account : String → Account) (pool : Mempool) : Prop :=
  ∀ s, ((pool.pending s []).map fun e => e.2.cost).sum ≤ (account s).balance.toNat

variable {account : String → Account}

theorem Covered.excluding (h : pool.Covered account) (s : String) (excluded : List TxId) :
    ((pool.pending s excluded).map fun e => e.2.cost).sum ≤ (account s).balance.toNat :=
  Nat.le_trans (((pending_sublist excluded).map _).sum_le_sum fun _ _ => Nat.zero_le _) (h s)

theorem Covered.foldl_remove (h : pool.Covered account) (ids : List TxId) :
    (ids.foldl Mempool.remove pool).Covered account := by
  intro s
  rw [((pending_foldl_remove ids s).map _).sum_eq]
  exact h.excluding s ids

/-- An insertion checks the balance against what stays pending, without a wrap. -/
theorem Covered.insert (h : pool.Covered account) (hsound : pool.Sound crates chainId)
    (hrun : (insert crates tx (account tx.sender)).run pool = .ok outcome pool') :
    pool'.Covered account := by
  obtain ⟨hnew, -, -, -, hvalid, generation, -, -, rfl⟩ := insert_ok hrun
  have hsize : pool.txs.size < 2 ^ 64 := Nat.lt_of_le_of_lt hsound.admitted.bounded (by decide)
  have hcost := ((hsound.coherent.validateAgainstPool_ok hsize).mp hvalid).2
  have hrest := h.foldl_remove (pool.findReplaceable tx)
  intro s
  rw [((pending_store (by rw [txs_foldl_remove, hnew, ite_self]) tx generation s).map _).sum_eq]
  by_cases hs : tx.sender = s
  · subst hs
    have hspent := h.excluding tx.sender (pool.findReplaceable tx)
    have hlt := (account tx.sender).balance.toNat_lt
    rw [if_pos rfl, map_cons, sum_cons, ((pending_foldl_remove _ _).map _).sum_eq]
    generalize ((pool.pending tx.sender (pool.findReplaceable tx)).map fun e => e.2.cost).sum = spent
      at hspent hcost ⊢
    rw [toNat_saturatingSub, UInt64.toNat_ofNat', Nat.mod_eq_of_lt (by omega)] at hcost
    dsimp only
    omega
  · rw [if_neg hs]
    exact hrest s

theorem covered_runOps {ops : List Op}
    (hfixed : ∀ tx a, Op.insert tx a ∈ ops → a = account tx.sender) :
    (runOps crates chainId ops).Covered account := by
  induction ops using List.reverseRecOn with
  | nil =>
    intro s
    rw [runOps, foldl_nil, pending_new]
    exact Nat.zero_le _
  | append_singleton ops op ih =>
    have hprev := ih fun tx a hmem => hfixed tx a (mem_append_left _ hmem)
    have hsound := (sound_runOps crates chainId ops).1
    rw [runOps, foldl_append]
    refine after_invariant hprev hsound.coherent op ?_ fun id => hprev.foldl_remove [id]
    rintro tx a outcome pool' rfl hrun
    obtain rfl := hfixed tx a (mem_append_right _ (mem_singleton.mpr rfl))
    exact hprev.insert hsound hrun

end Mempool

/-- **The three maps of the mempool describe one set of transactions**, after any calls
on it; the next insertion does not reach its `expect`, and if it fails it changes
nothing. -/
theorem mempool_representation (crates : Crates) (chainId : UInt32) (ops : List Op) :
    (runOps crates chainId ops).Represents ∧
    ∀ tx account f pool', (Mempool.insert crates tx account).run (runOps crates chainId ops) =
      .error f pool' → (∃ e, f = .error e) ∧ pool' = runOps crates chainId ops := by
  obtain ⟨hsound, htidy⟩ := sound_runOps crates chainId ops
  exact ⟨represents_of hsound htidy,
    fun tx account f pool' hrun => insert_error hsound.coherent hrun⟩

/-- **What is pending is paid for** exactly as long as no pending transaction has a value
and a fee whose sum wraps. -/
theorem pending_spends_covered_iff {crates : Crates} {account : String → Account} {chainId : UInt32}
    {ops : List Op} (hfixed : ∀ tx a, Op.insert tx a ∈ ops → a = account tx.sender) :
    (∀ s, (((runOps crates chainId ops).pending s []).map fun e =>
      e.2.value.toNat + e.2.fee.toNat).sum ≤ (account s).balance.toNat) ↔
    ∀ (id : TxId) tx, (runOps crates chainId ops).txs[id]? = some tx →
      tx.value.toNat + tx.fee.toNat < 2 ^ 64 := by
  constructor
  · intro hcovered id tx htx
    have hmem : (id, tx) ∈ (runOps crates chainId ops).pending tx.sender [] :=
      mem_pending.mpr ⟨htx, rfl, not_mem_nil⟩
    have hle := single_le_sum (fun _ _ => Nat.zero_le _) _
      (mem_map_of_mem (f := fun e : TxId × Transaction => e.2.value.toNat + e.2.fee.toNat) hmem)
    have hlt := (account tx.sender).balance.toNat_lt
    have := hcovered tx.sender
    dsimp only at hle
    omega
  · intro hfits s
    refine Nat.le_trans (Nat.le_of_eq (congrArg List.sum (map_congr_left fun e he => ?_)))
      (covered_runOps hfixed s)
    have hlt := hfits e.1 e.2 (mem_pending.mp he).1
    rw [Transaction.cost, UInt64.toNat_add, Nat.mod_eq_of_lt hlt]

/-! ### Who can touch the pending transactions of a sender -/

/-- The signature recovers, over the payload, to the key of the sender's address. -/
def SignedBySender (crates : Crates) (tx : Transaction) : Prop :=
  ∃ pk network, recoverPubkeyFromSig crates tx.signature (serializeTransaction tx) = .ok pk ∧
    crates.decodeAddress tx.sender = .ok (pk, network)

variable {tx : Transaction} {crates : Crates}

theorem signedBySender_of_verified (hflag : tx.isCoinbase = false)
    (h : verifyTransaction crates tx = .ok ()) : SignedBySender crates tx := by
  rw [verifyTransaction, hflag, if_neg Bool.false_ne_true] at h
  obtain ⟨_, -, h⟩ := bind_eq_ok.mp h
  obtain ⟨pk, hpk, h⟩ := bind_eq_ok.mp h
  obtain ⟨⟨key, network⟩, hsender, h⟩ := bind_eq_ok.mp h
  obtain rfl : key = pk := guardWith_eq_ok.mp h
  exact ⟨key, network, hpk, hsender⟩

variable {account : Account}

/-- What an insertion evicts belongs to the sender of what is inserted. -/
theorem Mempool.Coherent.sender_of_evicted {pool pool' : Mempool} {old : Transaction} {id : TxId}
    (h : pool.Coherent) (hrun : (Mempool.insert crates tx account).run pool = .ok outcome pool')
    (hold : pool.txs[id]? = some old) (hgone : pool'.txs[id]? ≠ some old) :
    old.sender = tx.sender := by
  obtain ⟨hnew, -, -, -, -, generation, -, -, rfl⟩ := insert_ok hrun
  rw [txs_store, txs_foldl_remove] at hgone
  have hne : id ≠ crates.txid tx := by
    rintro rfl
    rw [hnew] at hold
    cases hold
  rw [if_neg hne] at hgone
  by_cases hmem : id ∈ pool.findReplaceable tx
  · obtain ⟨n, hentry⟩ := entry_of_mem_findReplaceable hmem
    obtain ⟨tx', htx', hs, -⟩ := h.listed _ _ _ hentry
    obtain rfl := Option.some.inj (hold.symm.trans htx')
    exact hs
  · rw [if_neg hmem] at hgone
    exact absurd hold hgone

section
variable {V : Type} {crates : Crates} {rt : Runtime V} {node node' : Blockchain} {tx : Transaction}

theorem run_onMempool_ok {α : Type} {op : EStateM Failure Mempool α} {a : α} :
    (onMempool op).run node = .ok a node' ↔
      ∃ pool, op.run node.mempool = .ok a pool ∧ node' = { node with mempool := pool } := by
  unfold onMempool EStateM.run
  dsimp only
  cases op node.mempool with
  | ok b pool => simp [eq_comm]
  | error e pool => simp

theorem run_onMempool_error {α : Type} {op : EStateM Failure Mempool α} {f : Failure} :
    (onMempool op).run node = .error f node' ↔
      ∃ pool, op.run node.mempool = .error f pool ∧ node' = { node with mempool := pool } := by
  unfold onMempool EStateM.run
  dsimp only
  cases op node.mempool with
  | ok b pool => simp
  | error e pool => simp [eq_comm]

theorem addTransaction_ok
    (h : (addTransaction crates rt tx).run node = .ok outcome node') :
    ∃ pool, (Mempool.insert crates tx (node.balances.accountOf tx.sender)).run node.mempool =
      .ok outcome pool ∧ node' = { node with mempool := pool } := by
  obtain ⟨_, -, h⟩ := run_check_bind_ok.mp h
  obtain ⟨_, -, h⟩ := run_check_bind_ok.mp h
  rw [run_get_bind] at h
  exact run_onMempool_ok.mp h

theorem txs_of_addTransaction
    (h : (addTransaction crates rt tx).run node = .ok outcome node') (id : TxId) :
    node'.mempool.txs[id]? = if id = crates.txid tx then some tx
      else if id ∈ node.mempool.findReplaceable tx then none else node.mempool.txs[id]? := by
  obtain ⟨pool, hinsert, rfl⟩ := addTransaction_ok h
  obtain ⟨-, -, -, -, -, generation, -, -, rfl⟩ := insert_ok hinsert
  dsimp only
  rw [txs_store, txs_foldl_remove]

/-- A refused transaction changes nothing. -/
theorem addTransaction_error {f : Failure} (hpool : node.mempool.Coherent)
    (h : (addTransaction crates rt tx).run node = .error f node') :
    (∃ e, f = .error e) ∧ node' = node := by
  rcases run_check_bind_error.mp h with ⟨hx, hsame⟩ | ⟨_, -, h⟩
  · exact ⟨⟨_, (guardNode_eq_error.mp hx).2⟩, hsame⟩
  rcases run_check_bind_error.mp h with ⟨hx, hsame⟩ | ⟨_, -, h⟩
  · exact ⟨⟨_, (guardNode_eq_error.mp hx).2⟩, hsame⟩
  rw [run_get_bind] at h
  obtain ⟨pool, hinsert, rfl⟩ := run_onMempool_error.mp h
  obtain ⟨he, rfl⟩ := insert_error hpool hinsert
  exact ⟨he, rfl⟩

/-- The node after a call, whether it succeeds or not. -/
def afterTransaction (crates : Crates) (rt : Runtime V) (node : Blockchain) (tx : Transaction) :
    Blockchain :=
  match (Blockchain.addTransaction crates rt tx).run node with
  | .ok _ node' => node'
  | .error _ node' => node'

/-- Every pending transaction passed the checks, and none has the coinbase flag. -/
structure Unflagged (crates : Crates) (node : Blockchain) : Prop where
  sound : node.mempool.Sound crates node.chainId
  unflagged : ∀ (id : TxId) tx, node.mempool.txs[id]? = some tx → tx.isCoinbase = false

theorem Unflagged.afterTransaction (h : Unflagged crates node) (hflag : tx.isCoinbase = false) :
    Unflagged crates (afterTransaction crates rt node tx) := by
  rw [Strangecoin.afterTransaction]
  cases hrun : (addTransaction crates rt tx).run node with
  | error f node' =>
    rw [(addTransaction_error h.sound.coherent hrun).2]
    exact h
  | ok outcome node' =>
    have htxs := txs_of_addTransaction hrun
    obtain ⟨pool, hinsert, rfl⟩ := addTransaction_ok hrun
    refine ⟨h.sound.insert hinsert, fun id tx' htx' => ?_⟩
    rw [htxs] at htx'
    split at htx'
    · rw [← Option.some.inj htx']
      exact hflag
    · split at htx'
      · cases htx'
      · exact h.unflagged id tx' htx'

theorem Unflagged.foldl (h : Unflagged crates node) {txs : List Transaction}
    (hflags : ∀ tx ∈ txs, tx.isCoinbase = false) :
    Unflagged crates (txs.foldl (Strangecoin.afterTransaction crates rt) node) := by
  induction txs generalizing node with
  | nil => exact h
  | cons tx txs ih =>
    exact ih (h.afterTransaction (hflags tx mem_cons_self))
      fun tx' htx' => hflags tx' (mem_cons_of_mem _ htx')

/-- **Only the key holder touches a sender's pending transactions**, as long as no
transaction with the coinbase flag is submitted. -/
theorem only_key_holder_touches_pending {txs : List Transaction} (hstart : Unflagged crates node)
    (hflags : ∀ tx ∈ txs, tx.isCoinbase = false) :
    (∀ (id : TxId) tx, (txs.foldl (afterTransaction crates rt) node).mempool.txs[id]? = some tx →
      SignedBySender crates tx) ∧
    ∀ tx outcome node', tx.isCoinbase = false →
      (addTransaction crates rt tx).run (txs.foldl (afterTransaction crates rt) node) =
        .ok outcome node' →
      ∀ (id : TxId) old, (txs.foldl (afterTransaction crates rt) node).mempool.txs[id]? = some old →
        node'.mempool.txs[id]? ≠ some old → SignedBySender crates tx ∧ old.sender = tx.sender := by
  have hreached : Unflagged crates (txs.foldl (afterTransaction crates rt) node) := hstart.foldl hflags
  refine ⟨fun id tx htx => ?_, fun tx outcome node' hflag hrun id old hold hgone => ?_⟩
  · exact signedBySender_of_verified (hreached.unflagged id tx htx)
      (hreached.sound.admitted.verified id tx htx)
  · obtain ⟨pool, hinsert, rfl⟩ := addTransaction_ok hrun
    obtain ⟨-, hverify, -⟩ := insert_ok hinsert
    exact ⟨signedBySender_of_verified hflag hverify,
      hreached.sound.coherent.sender_of_evicted hinsert hold hgone⟩

end

/-! ### Two insertions into a new pool -/

theorem Mempool.runOps_single (h : Enters crates (Mempool.new chainId) account tx) :
    runOps crates chainId [.insert tx account] =
      (Mempool.new chainId).store (crates.txid tx) tx 0 := by
  have hnew := sound_new crates chainId
  have hfree : (Mempool.new chainId).entry tx.sender tx.nonce = none := by
    simp [entry, Mempool.new]
  rcases @insert_fresh _ _ _ account hnew.coherent hnew.admitted hfree with ⟨-, hrun⟩ | ⟨hnot, -⟩
  · rw [runOps, foldl_cons, after, hrun]
    rfl
  · exact absurd h hnot

/-- A transfer whose value and fee add up to nothing. -/
def wrappingTransfer : Transaction :=
  .transfer ⟨deployer, "recipient", 0xffffffffffffffff, 1, 1, CHAIN_ID_REGTEST,
    [144, 33, 91, 161, 193, 133, 231, 214, 128, 106, 219, 71, 167, 251, 161, 198, 99, 137, 148,
     10, 234, 46, 205, 0, 131, 20, 85, 44, 151, 225, 199, 25, 103, 222, 31, 236, 109, 103, 16,
     30, 72, 102, 141, 136, 17, 170, 154, 226, 66, 236, 50, 150, 199, 2, 244, 81, 216, 123, 3,
     15, 53, 61, 80, 47, 1], false⟩

theorem enters_new (hverify : verifyTransaction nonzeroCrates tx = .ok ())
    (hchain : tx.chainId = CHAIN_ID_REGTEST) (hnonce : tx.nonce = 1) (hcost : tx.cost = 0) :
    Enters nonzeroCrates (Mempool.new CHAIN_ID_REGTEST) Account.default tx where
  new := by simp [Mempool.new]
  verified := hverify
  chain := hchain
  room := by decide
  nonce := by rw [hnonce]; rfl
  cost := by rw [hcost]; exact Nat.zero_le _

theorem pending_single (h : Enters crates (Mempool.new chainId) account tx) :
    ((runOps crates chainId [.insert tx account]).pending tx.sender []).Perm
      [(crates.txid tx, tx)] := by
  have hperm := pending_store h.new tx 0 tx.sender
  rwa [if_pos rfl, pending_new, ← runOps_single h] at hperm

/-- An account without a balance has a pending transfer of 2^64 - 1. -/
theorem wrapping_transfer_uncovered :
    (∀ tx a, Op.insert tx a ∈ [Op.insert wrappingTransfer Account.default] →
      a = Account.default) ∧
    ¬ ∀ s, (((runOps nonzeroCrates CHAIN_ID_REGTEST
      [.insert wrappingTransfer Account.default]).pending s []).map fun e =>
        e.2.value.toNat + e.2.fee.toNat).sum ≤ Account.default.balance.toNat := by
  refine ⟨fun tx a h => ?_, fun h => ?_⟩
  · rw [mem_singleton] at h
    exact (Op.insert.inj h).2
  · have hverify : verifyTransaction nonzeroCrates wrappingTransfer = .ok () := by
      rw [nonzeroCrates_eq]
      decide +kernel
    have hpending := pending_single (enters_new hverify rfl rfl (by decide))
    have hsum := h wrappingTransfer.sender
    rw [(hpending.map _).sum_eq] at hsum
    exact absurd hsum (by decide)

theorem pending_spends_covered_single :
    (((runOps nonzeroCrates CHAIN_ID_REGTEST [.insert firstTransfer Account.default]).pending
      firstTransfer.sender []).map fun e => e.2.value.toNat + e.2.fee.toNat).sum ≤
        Account.default.balance.toNat := by
  have henters := enters_new verify_firstTransfer rfl rfl (by decide)
  refine (@pending_spends_covered_iff _ (fun _ => Account.default) _ _ fun tx a h => ?_).mpr
    (fun id tx htx => ?_) firstTransfer.sender
  · rw [mem_singleton] at h
    exact (Op.insert.inj h).2
  · rw [runOps_single henters, txs_store] at htx
    split at htx
    · rw [← Option.some.inj htx]
      decide
    · simp [Mempool.new] at htx

/-! ### An unsigned replacement -/

/-- What anybody can send: the nonce of the key 1, no signature, the coinbase flag. -/
def unsignedReplacement : Transaction :=
  .transfer ⟨deployer, "recipient", 0, 0, 1, CHAIN_ID_REGTEST, [], true⟩

theorem unflagged_regtestNode : Unflagged nonzeroCrates regtestNode :=
  ⟨sound_new _ _, fun id tx h => by simp [regtestNode, ofReplay, Mempool.new] at h⟩

/-- Whether an operation succeeded. -/
def succeeded {σ α : Type} : EStateM.Result Failure σ α → Bool
  | .ok _ _ => true
  | .error _ _ => false

theorem succeeded_iff {σ α : Type} {x : EStateM.Result Failure σ α} :
    succeeded x = true ↔ ∃ a s, x = .ok a s := by
  cases x <;> simp [succeeded]

/-- The node after the key holder's first transfer. -/
def onePending : Blockchain := afterTransaction nonzeroCrates registryRuntime regtestNode firstTransfer

theorem add_firstTransfer : ∃ outcome,
    (addTransaction nonzeroCrates registryRuntime firstTransfer).run regtestNode =
      .ok outcome onePending := by
  have hok : succeeded ((addTransaction nonzeroCrates registryRuntime firstTransfer).run
      regtestNode) = true := by
    rw [regtestNode, regtestReplay_eq, nonzeroCrates_eq]
    decide +kernel
  obtain ⟨outcome, node', hrun⟩ := succeeded_iff.mp hok
  refine ⟨outcome, ?_⟩
  rw [onePending, afterTransaction, hrun]

theorem firstTransfer_pending :
    onePending.mempool.txs[nonzeroCrates.txid firstTransfer]? = some firstTransfer := by
  obtain ⟨outcome, hrun⟩ := add_firstTransfer
  rw [txs_of_addTransaction hrun, if_pos rfl]

theorem unflagged_onePending : Unflagged nonzeroCrates onePending :=
  unflagged_regtestNode.afterTransaction rfl

theorem only_key_holder_touches_first : SignedBySender nonzeroCrates firstTransfer := by
  have hsigned := (@only_key_holder_touches_pending _ nonzeroCrates registryRuntime regtestNode
    [firstTransfer] unflagged_regtestNode (fun tx htx => mem_singleton.mp htx ▸ rfl)).1
  rw [foldl_cons, foldl_nil, ← onePending] at hsigned
  exact hsigned _ _ firstTransfer_pending

/-- An unsigned transaction takes the nonce of a signed one and evicts it. -/
theorem unsigned_replacement_evicts :
    Unflagged nonzeroCrates onePending ∧ ¬ SignedBySender nonzeroCrates unsignedReplacement ∧
    onePending.mempool.txs[nonzeroCrates.txid firstTransfer]? = some firstTransfer ∧
    ∃ outcome node', (addTransaction nonzeroCrates registryRuntime unsignedReplacement).run
        onePending = .ok outcome node' ∧
      node'.mempool.txs[nonzeroCrates.txid firstTransfer]? = none ∧
      node'.mempool.txs[nonzeroCrates.txid unsignedReplacement]? = some unsignedReplacement := by
  refine ⟨unflagged_onePending, ?_, firstTransfer_pending, ?_⟩
  · rintro ⟨pk, network, hrecover, -⟩
    have hfails : (recoverPubkeyFromSig nonzeroCrates unsignedReplacement.signature
        (serializeTransaction unsignedReplacement)).isOk = false := by
      rw [nonzeroCrates_eq]
      decide
    rw [hrecover] at hfails
    cases hfails
  · have hok : succeeded ((addTransaction nonzeroCrates registryRuntime
        unsignedReplacement).run onePending) = true := by
      rw [onePending, regtestNode, regtestReplay_eq, nonzeroCrates_eq]
      decide +kernel
    obtain ⟨outcome, node', hrun⟩ := succeeded_iff.mp hok
    have hne : nonzeroCrates.txid firstTransfer ≠ nonzeroCrates.txid unsignedReplacement := by
      rw [nonzeroCrates_eq]
      decide +kernel
    have hconflict : onePending.mempool.entry unsignedReplacement.sender unsignedReplacement.nonce =
        some (nonzeroCrates.txid firstTransfer) :=
      unflagged_onePending.sound.coherent.indexed _ firstTransfer firstTransfer_pending
    refine ⟨outcome, node', hrun, ?_, ?_⟩
    · rw [txs_of_addTransaction hrun, if_neg hne, if_pos (mem_findReplaceable hconflict)]
    · rw [txs_of_addTransaction hrun, if_pos rfl]

end Strangecoin
