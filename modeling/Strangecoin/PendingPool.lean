import Strangecoin.Node

/-! # The invariant of the mempool

The pool keeps a transaction under its id and, by sender and nonce, the id once more.  The
two agree (`Coherent`) in every pool that insertions and removals can make.
-/
namespace Strangecoin
open List

/-- `tx.value() + tx.fee()`. -/
def Transaction.cost (tx : Transaction) : Nat := (tx.value + tx.fee).toNat

/-- The account a transaction is checked against: the default one if there is none. -/
def StateCache.accountOf (cache : StateCache) (s : String) : Account := (cache.get s).getD Account.default

theorem StateCache.nonce_accountOf (cache : StateCache) (s : String) :
    (cache.accountOf s).nonce = cache.nonce s := by
  rw [accountOf, get, StateCache.nonce]
  cases cache.accounts[s]? <;> rfl

theorem StateCache.balance_accountOf (cache : StateCache) (s : String) :
    (cache.accountOf s).balance = cache.balance s := by
  rw [accountOf, get, StateCache.balance]
  cases cache.accounts[s]? <;> rfl

theorem validateNonce_ok {nonce accountNonce : UInt64} :
    validateNonce nonce accountNonce = .ok () ↔ nonce.toNat = accountNonce.toNat + 1 := by
  rw [validateNonce, bind_eq_ok]
  constructor
  · rintro ⟨expected, hexpected, heq⟩
    rw [guardWith_eq_ok.mp heq]
    exact checkedAdd_eq_some.mp (okOr_eq_ok.mp hexpected)
  · intro heq
    exact ⟨nonce, okOr_eq_ok.mpr (checkedAdd_eq_some.mpr heq), guardWith_eq_ok.mpr rfl⟩

/-- The pending transactions count as spent nonces; a sum past the last nonce is refused. -/
theorem validateNonce_saturatingAdd {nonce accountNonce : UInt64} {count : Nat}
    (hcount : count < 2 ^ 64) :
    validateNonce nonce (saturatingAdd accountNonce (UInt64.ofNat count)) = .ok () ↔
      nonce.toNat = accountNonce.toNat + count + 1 := by
  have htoNat : (UInt64.ofNat count).toNat = count := UInt64.toNat_ofNat_of_lt hcount
  have hnonce := nonce.toNat_lt
  rw [validateNonce_ok, saturatingAdd, htoNat]
  by_cases hfits : accountNonce.toNat + count < 2 ^ 64
  · rw [if_pos hfits, UInt64.toNat_add, htoNat, Nat.mod_eq_of_lt hfits]
  · -- the saturated sum has no successor
    rw [if_neg hfits]
    have hmax : (0 - 1 : UInt64).toNat = 2 ^ 64 - 1 := rfl
    omega

namespace Mempool
open HashMap
variable {crates : Crates} {pool pool' : Mempool} {tx : Transaction} {id : TxId} {s : String}

/-- The id the index has for a sender's nonce. -/
def entry (pool : Mempool) (s : String) (n : UInt64) : Option TxId :=
  pool.bySender[s]?.bind fun entries => entries[n]?

/-- The index lists the pending transactions, and no others. -/
structure Coherent (pool : Mempool) : Prop where
  indexed : ∀ (id : TxId) tx, pool.txs[id]? = some tx → pool.entry tx.sender tx.nonce = some id
  listed : ∀ s n id, pool.entry s n = some id →
    ∃ tx, pool.txs[id]? = some tx ∧ tx.sender = s ∧ tx.nonce = n

/-- What an insertion checks of a transaction alone, and the size of the pool. -/
structure Admitted (crates : Crates) (pool : Mempool) : Prop where
  id_eq : ∀ (id : TxId) tx, pool.txs[id]? = some tx → crates.txid tx = id
  verified : ∀ (id : TxId) tx, pool.txs[id]? = some tx → verifyTransaction crates tx = .ok ()
  chain : ∀ (id : TxId) tx, pool.txs[id]? = some tx → tx.chainId = pool.chainId
  bounded : pool.txs.size ≤ MAX_PENDING_TXS

/-- The pools of the nodes of a network. -/
structure Sound (crates : Crates) (chainId : UInt32) (pool : Mempool) : Prop where
  coherent : pool.Coherent
  admitted : pool.Admitted crates
  network : pool.chainId = chainId

theorem sound_new (crates : Crates) (chainId : UInt32) : (Mempool.new chainId).Sound crates chainId := by
  have hempty : ∀ (id : TxId) tx, (Mempool.new chainId).txs[id]? ≠ some tx := by simp [Mempool.new]
  refine ⟨⟨fun id tx h => absurd h (hempty id tx), fun s n id h => ?_⟩, ⟨fun id tx h =>
    absurd h (hempty id tx), fun id tx h => absurd h (hempty id tx), fun id tx h =>
    absurd h (hempty id tx), by simp [Mempool.new]⟩, rfl⟩
  simp [entry, Mempool.new] at h

/-! ### Removals -/

variable {n : UInt64}

theorem entry_unindex {bySender : HashMap String (HashMap UInt64 TxId)} :
    ((unindex bySender tx)[s]?.bind fun entries => entries[n]?) =
      if s = tx.sender ∧ n = tx.nonce then none
      else bySender[s]?.bind fun entries => entries[n]? := by
  cases hentries : bySender[tx.sender]? with
  | none =>
    rw [unindex, hentries]
    by_cases hs : s = tx.sender
    · simp [hs, hentries]
    · simp [hs]
  | some entries =>
    simp only [unindex, hentries]
    by_cases hempty : (entries.erase tx.nonce).isEmpty = true
    · -- the sender had this nonce only
      rw [if_pos hempty, get?_erase]
      by_cases hs : s = tx.sender
      · subst hs
        have hnone : (entries.erase tx.nonce)[n]? = none := by
          rw [Std.ExtTreeMap.isEmpty_iff.mp hempty]
          exact Std.ExtTreeMap.getElem?_empty
        rw [get?_erase] at hnone
        by_cases hn : n = tx.nonce
        · simp [hn]
        · simpa [hn, hentries, eq_comm] using hnone
      · simp [hs]
    · rw [if_neg hempty, get?_insert]
      by_cases hs : s = tx.sender
      · subst hs
        by_cases hn : n = tx.nonce <;> simp [hn, hentries]
      · simp [hs]

theorem entry_remove (hid : pool.txs[id]? = some tx) :
    (pool.remove id).entry s n =
      if s = tx.sender ∧ n = tx.nonce then none else pool.entry s n := by
  rw [entry, remove, hid]
  exact entry_unindex

theorem remove_of_none (hid : pool.txs[id]? = none) :
    (pool.remove id).txs = pool.txs ∧ (pool.remove id).bySender = pool.bySender := by
  rw [remove, hid]
  exact ⟨erase_of_none hid, rfl⟩

theorem txs_remove (id' : TxId) :
    (pool.remove id).txs[id']? = if id' = id then none else pool.txs[id']? := by
  rw [remove, get?_erase]

theorem Coherent.remove (h : pool.Coherent) (id : TxId) : (pool.remove id).Coherent := by
  cases hid : pool.txs[id]? with
  | none =>
    obtain ⟨htxs, hindex⟩ := remove_of_none hid
    refine ⟨fun id' tx' h' => ?_, fun s n id' h' => ?_⟩
    · rw [htxs] at h'
      rw [entry, hindex]
      exact h.indexed id' tx' h'
    · rw [entry, hindex] at h'
      rw [htxs]
      exact h.listed s n id' h'
  | some tx =>
    refine ⟨fun id' tx' h' => ?_, fun s n id' h' => ?_⟩
    · rw [txs_remove] at h'
      split at h'
      · cases h'
      · rename_i hne
        rw [entry_remove hid, if_neg ?_]
        · exact h.indexed id' tx' h'
        · -- one entry, one id
          rintro ⟨hs, hn⟩
          have hsame := h.indexed id' tx' h'
          rw [hs, hn, h.indexed id tx hid] at hsame
          exact hne (Option.some.inj hsame).symm
    · rw [entry_remove hid] at h'
      split at h'
      · cases h'
      · rename_i hne
        obtain ⟨tx', htx', hs, hn⟩ := h.listed s n id' h'
        refine ⟨tx', ?_, hs, hn⟩
        rw [txs_remove, if_neg ?_]
        · exact htx'
        · rintro rfl
          obtain rfl := Option.some.inj (hid.symm.trans htx')
          exact hne ⟨hs.symm, hn.symm⟩

theorem Admitted.remove (h : pool.Admitted crates) (id : TxId) : (pool.remove id).Admitted crates := by
  have hsub : ∀ (id' : TxId) tx', (pool.remove id).txs[id']? = some tx' → pool.txs[id']? = some tx' := by
    intro id' tx' h'
    rw [txs_remove] at h'
    split at h'
    · cases h'
    · exact h'
  exact ⟨fun id' tx' h' => h.id_eq id' tx' (hsub id' tx' h'),
    fun id' tx' h' => h.verified id' tx' (hsub id' tx' h'),
    fun id' tx' h' => h.chain id' tx' (hsub id' tx' h'),
    Nat.le_trans Std.ExtTreeMap.size_erase_le h.bounded⟩

theorem txs_foldl_remove (ids : List TxId) (id' : TxId) :
    (ids.foldl Mempool.remove pool).txs[id']? = if id' ∈ ids then none else pool.txs[id']? := by
  induction ids generalizing pool with
  | nil => simp
  | cons id ids ih =>
    rw [foldl_cons, ih, txs_remove]
    by_cases hid : id' = id <;> by_cases hids : id' ∈ ids <;> simp [hid, hids]

theorem Coherent.foldl_remove (h : pool.Coherent) (ids : List TxId) :
    (ids.foldl Mempool.remove pool).Coherent := by
  induction ids generalizing pool with
  | nil => exact h
  | cons id ids ih => exact ih (h.remove id)

theorem Admitted.foldl_remove (h : pool.Admitted crates) (ids : List TxId) :
    (ids.foldl Mempool.remove pool).Admitted crates := by
  induction ids generalizing pool with
  | nil => exact h
  | cons id ids ih => exact ih (h.remove id)

/-! ### Insertions -/

theorem entry_store {g : UInt32} :
    (pool.store id tx g).entry s n =
      if s = tx.sender ∧ n = tx.nonce then some id else pool.entry s n := by
  rw [entry, store, get?_insert]
  by_cases hs : s = tx.sender
  · subst hs
    rw [if_pos rfl, Option.bind_some, get?_insert]
    by_cases hn : n = tx.nonce
    · simp [hn]
    · rw [if_neg hn, if_neg (fun h => hn h.2), entry]
      cases pool.bySender[tx.sender]? with
      | none => exact Std.ExtTreeMap.getElem?_empty
      | some entries => rfl
  · rw [if_neg hs, if_neg (fun h => hs h.1), entry]

theorem txs_store {g : UInt32} (id' : TxId) :
    (pool.store id tx g).txs[id']? = if id' = id then some tx else pool.txs[id']? := by
  rw [store, get?_insert]

theorem Coherent.store (h : pool.Coherent) (hid : pool.txs[id]? = none)
    (hfree : pool.entry tx.sender tx.nonce = none) (g : UInt32) :
    (pool.store id tx g).Coherent := by
  refine ⟨fun id' tx' h' => ?_, fun s n id' h' => ?_⟩
  · rw [txs_store] at h'
    split at h'
    · obtain rfl := Option.some.inj h'
      subst_vars
      rw [entry_store, if_pos ⟨rfl, rfl⟩]
    · rw [entry_store, if_neg ?_]
      · exact h.indexed id' tx' h'
      · rintro ⟨hs, hn⟩
        have hentry := h.indexed id' tx' h'
        rw [hs, hn, hfree] at hentry
        cases hentry
  · rw [entry_store] at h'
    split at h'
    · rename_i hsame
      obtain rfl := Option.some.inj h'
      exact ⟨tx, by rw [txs_store, if_pos rfl], hsame.1.symm, hsame.2.symm⟩
    · obtain ⟨tx', htx', hs, hn⟩ := h.listed s n id' h'
      refine ⟨tx', ?_, hs, hn⟩
      rw [txs_store, if_neg ?_]
      · exact htx'
      · rintro rfl
        rw [hid] at htx'
        cases htx'

theorem findReplaceable_eq_nil : pool.findReplaceable tx = [] ↔ pool.entry tx.sender tx.nonce = none := by
  rw [findReplaceable, entry]
  cases pool.bySender[tx.sender]? with
  | none => simp
  | some entries => cases h : entries[tx.nonce]? <;> simp [h]

theorem findReplaceable_cons {conflict : TxId} {rest : List TxId}
    (h : pool.findReplaceable tx = conflict :: rest) : pool.entry tx.sender tx.nonce = some conflict := by
  rw [findReplaceable] at h
  rw [entry]
  cases hs : pool.bySender[tx.sender]? with
  | none => simp [hs] at h
  | some entries =>
    cases hn : entries[tx.nonce]? with
    | none => simp [hs, hn] at h
    | some id =>
      simp only [hs, hn, List.cons.injEq] at h
      rw [Option.bind_some, hn, h.1]

variable {outcome : InsertOutcome}

/-- What a successful insertion has checked and done. -/
theorem insert_ok {account : Account} (h : (insert crates tx account).run pool = .ok outcome pool') :
    pool.txs[crates.txid tx]? = none ∧ verifyTransaction crates tx = .ok () ∧
    tx.chainId = pool.chainId ∧
    (pool.findReplaceable tx = [] → pool.txs.size < MAX_PENDING_TXS) ∧
    pool.validateAgainstPool tx account (pool.findReplaceable tx) = .ok () ∧
    ∃ generation ≤ MAX_RBF_REPLACEMENTS,
      (outcome, generation) = (match pool.findReplaceable tx with
        | [] => (.accepted, 0)
        | conflict :: rest =>
          (.replaced (conflict :: rest), pool.generations[conflict]?.getD 0 + 1)) ∧
      pool' = ((pool.findReplaceable tx).foldl Mempool.remove pool).store (crates.txid tx) tx
        generation := by
  rw [insert, run_get_bind] at h
  obtain ⟨_, hnew, h⟩ := run_check_bind_ok.mp h
  obtain ⟨_, hverify, h⟩ := run_check_bind_ok.mp h
  obtain ⟨_, hchain, h⟩ := run_check_bind_ok.mp h
  refine ⟨guardNode_eq_ok.mp hnew, liftCore_eq_ok.mp hverify, guardNode_eq_ok.mp hchain, ?_⟩
  cases hfind : pool.findReplaceable tx with
  | nil =>
    rw [hfind] at h
    obtain ⟨_, hsize, h⟩ := run_check_bind_ok.mp h
    obtain ⟨_, hvalid, h⟩ := run_check_bind_ok.mp h
    rw [run_modify_bind] at h
    cases h
    exact ⟨fun _ => guardNode_eq_ok.mp hsize, hvalid, 0, by decide, rfl, rfl⟩
  | cons conflict rest =>
    rw [hfind] at h
    change (replace crates tx account conflict (conflict :: rest)).run pool = _ at h
    rw [replace, run_get_bind] at h
    obtain ⟨_, -, h⟩ := run_check_bind_ok.mp h
    obtain ⟨_, -, h⟩ := run_check_bind_ok.mp h
    obtain ⟨_, hlimit, h⟩ := run_check_bind_ok.mp h
    obtain ⟨_, hvalid, h⟩ := run_check_bind_ok.mp h
    rw [run_modify_bind, run_modify_bind] at h
    cases h
    exact ⟨nofun, hvalid, _, guardNode_eq_ok.mp hlimit, rfl, rfl⟩

/-- After the conflict and what follows it are gone, the nonce is free. -/
theorem Coherent.entry_foldl_remove (h : pool.Coherent) :
    ((pool.findReplaceable tx).foldl Mempool.remove pool).entry tx.sender tx.nonce = none := by
  have hafter := h.foldl_remove (pool.findReplaceable tx)
  cases hentry : ((pool.findReplaceable tx).foldl Mempool.remove pool).entry tx.sender tx.nonce with
  | none => rfl
  | some id =>
    obtain ⟨tx', htx', hs, hn⟩ := hafter.listed _ _ _ hentry
    rw [txs_foldl_remove] at htx'
    split at htx'
    · cases htx'
    · rename_i hmem
      have hindexed := h.indexed id tx' htx'
      rw [hs, hn] at hindexed
      cases hfind : pool.findReplaceable tx with
      | nil =>
        rw [findReplaceable_eq_nil.mp hfind] at hindexed
        cases hindexed
      | cons conflict rest =>
        rw [findReplaceable_cons hfind] at hindexed
        obtain rfl := Option.some.inj hindexed
        exact absurd (by rw [hfind]; exact mem_cons_self) hmem

theorem Coherent.insert {account : Account} (h : pool.Coherent)
    (hrun : (insert crates tx account).run pool = .ok outcome pool') : pool'.Coherent := by
  obtain ⟨hnew, -, -, -, -, generation, -, -, rfl⟩ := insert_ok hrun
  refine (h.foldl_remove _).store ?_ h.entry_foldl_remove generation
  rw [txs_foldl_remove, hnew, ite_self]

theorem size_foldl_remove_le (ids : List TxId) :
    (ids.foldl Mempool.remove pool).txs.size ≤ pool.txs.size := by
  induction ids generalizing pool with
  | nil => exact Nat.le_refl _
  | cons id ids ih => exact Nat.le_trans ih Std.ExtTreeMap.size_erase_le

theorem chainId_foldl_remove (ids : List TxId) :
    (ids.foldl Mempool.remove pool).chainId = pool.chainId := by
  induction ids generalizing pool with
  | nil => rfl
  | cons id ids ih => exact ih

theorem Admitted.store (h : pool.Admitted crates) (hverify : verifyTransaction crates tx = .ok ())
    (hchain : tx.chainId = pool.chainId) (hroom : pool.txs.size < MAX_PENDING_TXS) (g : UInt32) :
    (pool.store (crates.txid tx) tx g).Admitted crates := by
  have hcases : ∀ (id' : TxId) tx', (pool.store (crates.txid tx) tx g).txs[id']? = some tx' →
      (id' = crates.txid tx ∧ tx' = tx) ∨ pool.txs[id']? = some tx' := by
    intro id' tx' h'
    rw [txs_store] at h'
    split at h'
    · exact .inl ⟨‹_›, (Option.some.inj h').symm⟩
    · exact .inr h'
  refine ⟨fun id' tx' h' => ?_, fun id' tx' h' => ?_, fun id' tx' h' => ?_, ?_⟩
  · rcases hcases id' tx' h' with ⟨rfl, rfl⟩ | hold
    · rfl
    · exact h.id_eq id' tx' hold
  · rcases hcases id' tx' h' with ⟨rfl, rfl⟩ | hold
    · exact hverify
    · exact h.verified id' tx' hold
  · rcases hcases id' tx' h' with ⟨rfl, rfl⟩ | hold
    · exact hchain
    · exact h.chain id' tx' hold
  · exact Nat.le_trans Std.ExtTreeMap.size_insert_le hroom

theorem size_remove_lt (hid : pool.txs[id]? = some tx) : (pool.remove id).txs.size < pool.txs.size := by
  have hperm := (toList_insert_perm pool.txs id tx).length_eq
  rw [insert_of_get? hid, length_cons, Std.ExtTreeMap.length_toList,
    Std.ExtTreeMap.length_toList] at hperm
  change (pool.txs.erase id).size < _
  omega

theorem Admitted.insert {account : Account} (h : pool.Admitted crates) (hcoherent : pool.Coherent)
    (hrun : (insert crates tx account).run pool = .ok outcome pool') : pool'.Admitted crates := by
  obtain ⟨-, hverify, hchain, hsize, -, generation, -, -, rfl⟩ := insert_ok hrun
  refine (h.foldl_remove _).store hverify ?_ ?_ generation
  · rw [chainId_foldl_remove]
    exact hchain
  · cases hfind : pool.findReplaceable tx with
    | nil => exact hsize hfind
    | cons conflict rest =>
      -- the conflict leaves room
      obtain ⟨old, hold, -⟩ := hcoherent.listed _ _ _ (findReplaceable_cons hfind)
      exact Nat.lt_of_lt_of_le
        (Nat.lt_of_le_of_lt (size_foldl_remove_le rest) (size_remove_lt hold)) h.bounded

theorem Sound.insert {chainId : UInt32} {account : Account} (h : pool.Sound crates chainId)
    (hrun : (insert crates tx account).run pool = .ok outcome pool') :
    pool'.Sound crates chainId := by
  refine ⟨h.coherent.insert hrun, h.admitted.insert h.coherent hrun, ?_⟩
  obtain ⟨-, -, -, -, -, generation, -, -, rfl⟩ := insert_ok hrun
  exact (chainId_foldl_remove _).trans h.network

theorem Sound.remove {chainId : UInt32} (h : pool.Sound crates chainId) (id : TxId) :
    (pool.remove id).Sound crates chainId :=
  ⟨h.coherent.remove id, h.admitted.remove id, h.network⟩

/-! ### The pending transactions of a sender -/

/-- The transactions of a sender that stay pending when `excluded` leave. -/
def pending (pool : Mempool) (s : String) (excluded : List TxId) : List (TxId × Transaction) :=
  pool.txs.toList.filter fun e => e.2.sender = s ∧ e.1 ∉ excluded

theorem pending_new (chainId : UInt32) (s : String) : (Mempool.new chainId).pending s [] = [] := rfl

theorem mem_pending {e : TxId × Transaction} {excluded : List TxId} :
    e ∈ pool.pending s excluded ↔
      pool.txs[e.1]? = some e.2 ∧ e.2.sender = s ∧ e.1 ∉ excluded := by
  rw [pending, mem_filter, Std.ExtTreeMap.mem_toList_iff_getElem?_eq_some]
  simp

theorem nodup_pending (excluded : List TxId) : (pool.pending s excluded).Nodup :=
  (nodup_toList _).filter _

theorem length_pending_le (excluded : List TxId) : (pool.pending s excluded).length ≤ pool.txs.size := by
  rw [← Std.ExtTreeMap.length_toList]
  exact length_filter_le _ _

theorem mem_pendingOf : (n, id) ∈ pool.pendingOf s ↔ pool.entry s n = some id := by
  rw [pendingOf, entry]
  cases pool.bySender[s]? with
  | none => simp
  | some entries => exact Std.ExtTreeMap.mem_toList_iff_getElem?_eq_some

theorem nodup_pendingOf : (pool.pendingOf s).Nodup := by
  rw [pendingOf]
  cases pool.bySender[s]? with
  | none => exact nodup_nil
  | some entries => exact nodup_toList entries

/-- The index of a sender, read off the transactions. -/
theorem Coherent.pendingOf_perm (h : pool.Coherent) (s : String) :
    (pool.pendingOf s).Perm ((pool.pending s []).map fun e => (e.2.nonce, e.1)) := by
  have hnodup : ((pool.pending s []).map fun e => (e.2.nonce, e.1)).Nodup := by
    refine (nodup_pending []).map_on fun e he e' he' heq => ?_
    obtain ⟨-, hid⟩ := Prod.mk.inj heq
    have htx := (mem_pending.mp he).1
    rw [hid, (mem_pending.mp he').1] at htx
    exact Prod.ext hid (Option.some.inj htx).symm
  rw [perm_ext_iff_of_nodup nodup_pendingOf hnodup]
  rintro ⟨n, id⟩
  rw [mem_pendingOf, mem_map]
  constructor
  · intro hentry
    obtain ⟨tx, htx, hs, hn⟩ := h.listed s n id hentry
    exact ⟨(id, tx), mem_pending.mpr ⟨htx, hs, not_mem_nil⟩, Prod.ext hn rfl⟩
  · rintro ⟨⟨id', tx⟩, hmem, heq⟩
    obtain ⟨htx, hs, -⟩ := mem_pending.mp hmem
    obtain ⟨rfl, rfl⟩ := Prod.mk.inj heq
    rw [← hs]
    exact h.indexed id' tx htx

theorem Coherent.remaining_perm (h : pool.Coherent) (s : String) (excluded : List TxId) :
    (pool.remaining s excluded).Perm ((pool.pending s excluded).map Prod.fst) := by
  have hperm := ((h.pendingOf_perm s).map Prod.snd).filter fun id => id ∉ excluded
  rw [map_map] at hperm
  refine hperm.trans (List.Perm.of_eq ?_)
  rw [filter_map, pending, pending, filter_filter]
  congr 1
  refine filter_congr fun e _ => ?_
  simp [and_comm]

theorem foldl_cost (costs : List UInt64) (acc : UInt64) :
    costs.foldl (fun acc cost => acc + cost) acc = acc + UInt64.ofNat (costs.map UInt64.toNat).sum := by
  induction costs generalizing acc with
  | nil => simp
  | cons cost costs ih => rw [foldl_cons, ih, map_cons, sum_cons, UInt64.ofNat_add,
      UInt64.ofNat_toNat, UInt64.add_assoc]

theorem Coherent.spent_remaining (h : pool.Coherent) (s : String) (excluded : List TxId) :
    pool.spent (pool.remaining s excluded) =
      UInt64.ofNat ((pool.pending s excluded).map fun e => e.2.cost).sum := by
  have hperm := (((h.remaining_perm s excluded).filterMap fun id => pool.txs[id]?).map
    fun tx => tx.value + tx.fee).map UInt64.toNat
  have hfind : ((pool.pending s excluded).map Prod.fst).filterMap (fun id => pool.txs[id]?) =
      (pool.pending s excluded).map Prod.snd := by
    rw [filterMap_map, ← filterMap_eq_map]
    refine filterMap_congr fun e he => ?_
    exact (mem_pending.mp he).1
  rw [spent, foldl_cost, hperm.sum_eq, hfind, map_map, map_map, UInt64.zero_add]
  rfl

/-- The nonce follows those of the account and of what stays pending, and the balance
covers the cost of both. -/
theorem Coherent.validateAgainstPool_ok (h : pool.Coherent) (hsize : pool.txs.size < 2 ^ 64)
    {account : Account} {excluded : List TxId} :
    pool.validateAgainstPool tx account excluded = .ok () ↔
      tx.nonce.toNat = account.nonce.toNat + (pool.pending tx.sender excluded).length + 1 ∧
      tx.cost ≤ (saturatingSub account.balance
        (UInt64.ofNat ((pool.pending tx.sender excluded).map fun e => e.2.cost).sum)).toNat := by
  have hcount : (pool.remaining tx.sender excluded).length =
      (pool.pending tx.sender excluded).length := by
    rw [(h.remaining_perm _ _).length_eq, length_map]
  have hlt : (pool.pending tx.sender excluded).length < 2 ^ 64 :=
    Nat.lt_of_le_of_lt (length_pending_le excluded) hsize
  have hnonce : validateNonce tx.nonce (saturatingAdd account.nonce
      (UInt64.ofNat (pool.pending tx.sender excluded).length)) = .ok () ↔
      tx.nonce.toNat = account.nonce.toNat + (pool.pending tx.sender excluded).length + 1 :=
    validateNonce_saturatingAdd hlt
  rw [validateAgainstPool, hcount, h.spent_remaining]
  constructor
  · intro hvalid
    obtain ⟨_, hn, hbalance⟩ := bind_eq_ok.mp hvalid
    exact ⟨hnonce.mp (liftCore_eq_ok.mp hn), UInt64.le_iff_toNat_le.mp (guardNode_eq_ok.mp hbalance)⟩
  · rintro ⟨hn, hbalance⟩
    exact bind_eq_ok.mpr ⟨(), liftCore_eq_ok.mpr (hnonce.mpr hn),
      guardNode_eq_ok.mpr (UInt64.le_iff_toNat_le.mpr hbalance)⟩

/-! ### A transaction with a nonce of its own -/

/-- What lets a transaction into a pool that does not have its nonce. -/
structure Enters (crates : Crates) (pool : Mempool) (account : Account) (tx : Transaction) : Prop where
  new : pool.txs[crates.txid tx]? = none
  verified : verifyTransaction crates tx = .ok ()
  chain : tx.chainId = pool.chainId
  room : pool.txs.size < MAX_PENDING_TXS
  nonce : tx.nonce.toNat = account.nonce.toNat + (pool.pending tx.sender []).length + 1
  cost : tx.cost ≤ (saturatingSub account.balance
    (UInt64.ofNat ((pool.pending tx.sender []).map fun e => e.2.cost).sum)).toNat

theorem insert_fresh {account : Account} (h : pool.Coherent) (hadmitted : pool.Admitted crates)
    (hfree : pool.entry tx.sender tx.nonce = none) :
    (Enters crates pool account tx ∧ (insert crates tx account).run pool =
      .ok .accepted (pool.store (crates.txid tx) tx 0)) ∨
    (¬ Enters crates pool account tx ∧ ∃ e,
      (insert crates tx account).run pool = .error (.error e) pool) := by
  have hsize : pool.txs.size < 2 ^ 64 := Nat.lt_of_le_of_lt hadmitted.bounded (by decide)
  have hfind := findReplaceable_eq_nil.mpr hfree
  have hvalid : pool.validateAgainstPool tx account [] = .ok () ↔ _ :=
    h.validateAgainstPool_ok hsize
  cases hrun : (insert crates tx account).run pool with
  | ok outcome pool' =>
    obtain ⟨hnew, hverify, hchain, hroom, hpool, -⟩ := insert_ok hrun
    rw [hfind] at hpool
    refine .inl ⟨⟨hnew, hverify, hchain, hroom hfind, (hvalid.mp hpool).1, (hvalid.mp hpool).2⟩, ?_⟩
    rw [insert, run_get_bind, hfind] at hrun
    obtain ⟨_, -, hrun⟩ := run_check_bind_ok.mp hrun
    obtain ⟨_, -, hrun⟩ := run_check_bind_ok.mp hrun
    obtain ⟨_, -, hrun⟩ := run_check_bind_ok.mp hrun
    obtain ⟨_, -, hrun⟩ := run_check_bind_ok.mp hrun
    obtain ⟨_, -, hrun⟩ := run_check_bind_ok.mp hrun
    exact hrun.symm
  | error f pool' =>
    rw [insert, run_get_bind, hfind] at hrun
    rcases run_check_bind_error.mp hrun with ⟨hx, hsame⟩ | ⟨_, -, hrun⟩
    · obtain ⟨hne, rfl⟩ := guardNode_eq_error.mp hx
      exact .inr ⟨fun henters => hne henters.new, _, by rw [hsame]⟩
    rcases run_check_bind_error.mp hrun with ⟨hx, hsame⟩ | ⟨_, -, hrun⟩
    · obtain ⟨e, he, rfl⟩ := liftCore_eq_error.mp hx
      refine .inr ⟨fun henters => ?_, _, by rw [hsame]⟩
      rw [henters.verified] at he
      cases he
    rcases run_check_bind_error.mp hrun with ⟨hx, hsame⟩ | ⟨_, -, hrun⟩
    · obtain ⟨hne, rfl⟩ := guardNode_eq_error.mp hx
      exact .inr ⟨fun henters => hne henters.chain, _, by rw [hsame]⟩
    rcases run_check_bind_error.mp hrun with ⟨hx, hsame⟩ | ⟨_, -, hrun⟩
    · obtain ⟨hne, rfl⟩ := guardNode_eq_error.mp hx
      exact .inr ⟨fun henters => hne henters.room, _, by rw [hsame]⟩
    rcases run_check_bind_error.mp hrun with ⟨hx, hsame⟩ | ⟨_, -, hrun⟩
    · have hnot : ¬ Enters crates pool account tx := by
        intro henters
        rw [hvalid.mpr ⟨henters.nonce, henters.cost⟩] at hx
        cases hx
      rcases bind_eq_error.mp hx with hx | ⟨_, -, hx⟩
      · obtain ⟨e, -, rfl⟩ := liftCore_eq_error.mp hx
        exact .inr ⟨hnot, _, by rw [hsame]⟩
      · obtain ⟨-, rfl⟩ := guardNode_eq_error.mp hx
        exact .inr ⟨hnot, _, by rw [hsame]⟩
    · cases hrun

theorem pending_store (hid : pool.txs[id]? = none) (tx : Transaction) (g : UInt32) (s : String) :
    ((pool.store id tx g).pending s []).Perm
      (if tx.sender = s then (id, tx) :: pool.pending s [] else pool.pending s []) := by
  have hperm := toList_insert_perm pool.txs id tx
  rw [erase_of_none hid] at hperm
  refine (hperm.filter _).trans (List.Perm.of_eq ?_)
  by_cases hs : tx.sender = s <;> simp [pending, hs]

/-! ### Many insertions, each with a nonce of its own -/

section
variable (crates) (account : String → Account)

open Classical in
/-- The pool after an attempt to insert a transaction. -/
noncomputable def attempt (pool : Mempool) (tx : Transaction) : Mempool :=
  if Enters crates pool (account tx.sender) tx then pool.store (crates.txid tx) tx 0 else pool

end

/-- The pool has none of the nonces, and no two transactions share one. -/
def OwnNonces (pool : Mempool) (txs : List Transaction) : Prop :=
  (∀ tx ∈ txs, pool.entry tx.sender tx.nonce = none) ∧
  txs.Pairwise fun a b => ¬ (a.sender = b.sender ∧ a.nonce = b.nonce)

variable {account : String → Account} {txs : List Transaction}

theorem attempt_of_enters (h : Enters crates pool (account tx.sender) tx) :
    attempt crates account pool tx = pool.store (crates.txid tx) tx 0 := if_pos h

theorem attempt_of_not (h : ¬ Enters crates pool (account tx.sender) tx) :
    attempt crates account pool tx = pool := if_neg h

theorem OwnNonces.tail (h : pool.OwnNonces (tx :: txs)) :
    (attempt crates account pool tx).OwnNonces txs := by
  obtain ⟨hfree, hpair⟩ := h
  obtain ⟨hhead, htail⟩ := pairwise_cons.mp hpair
  refine ⟨fun tx' htx' => ?_, htail⟩
  have hold := hfree tx' (mem_cons_of_mem _ htx')
  by_cases henters : Enters crates pool (account tx.sender) tx
  · rw [attempt_of_enters henters, entry_store, if_neg]
    · exact hold
    · rintro ⟨hs, hn⟩
      exact hhead tx' htx' ⟨hs.symm, hn.symm⟩
  · rw [attempt_of_not henters]
    exact hold

theorem OwnNonces.skip (h : pool.OwnNonces (tx :: txs)) : pool.OwnNonces txs :=
  ⟨fun tx' htx' => h.1 tx' (mem_cons_of_mem _ htx'), (pairwise_cons.mp h.2).2⟩

theorem Coherent.attempt (h : pool.Coherent) (hfree : pool.entry tx.sender tx.nonce = none) :
    (attempt crates account pool tx).Coherent := by
  by_cases henters : Enters crates pool (account tx.sender) tx
  · rw [attempt_of_enters henters]
    exact h.store henters.new hfree 0
  · rw [attempt_of_not henters]
    exact h

theorem Admitted.attempt (h : pool.Admitted crates) (tx : Transaction) :
    (attempt crates account pool tx).Admitted crates := by
  by_cases henters : Enters crates pool (account tx.sender) tx
  · rw [attempt_of_enters henters]
    exact h.store henters.verified henters.chain henters.room 0
  · rw [attempt_of_not henters]
    exact h

theorem Admitted.foldl_attempt (h : pool.Admitted crates) (txs : List Transaction) :
    (txs.foldl (Mempool.attempt crates account) pool).Admitted crates := by
  induction txs generalizing pool with
  | nil => exact h
  | cons tx txs ih => exact ih (h.attempt tx)

end Mempool

end Strangecoin
