import Strangecoin.CodeRegistry
import Strangecoin.NodeAtomicity
import Strangecoin.PendingPool

/-! # The order of the merge

An adoption inserts the pending transactions into a new pool, one after another in the
order of the old hash map.  A transaction enters only if it carries the next nonce of its
sender, and one that came too early is not tried again.
-/
namespace Strangecoin
open List Std Blockchain Mempool

/-! ### Reading a list in the order of its nonces -/

/-- The transactions that carry the next nonce when it is their turn. -/
def follow (next : Nat) : List Transaction → List Transaction
  | [] => []
  | tx :: txs =>
    if tx.nonce.toNat = next then tx :: follow (next + 1) txs else follow next txs

theorem follow_sublist (next : Nat) (txs : List Transaction) : (follow next txs).Sublist txs := by
  induction txs generalizing next with
  | nil => exact List.Sublist.slnil
  | cons tx txs ih =>
    rw [follow]
    split
    · exact (ih (next + 1)).cons_cons tx
    · exact (ih next).cons tx

theorem follow_eq_self_iff {next : Nat} {txs : List Transaction} :
    follow next txs = txs ↔
      txs.map (fun tx => tx.nonce.toNat) = List.range' next txs.length := by
  induction txs generalizing next with
  | nil => exact ⟨fun _ => rfl, fun _ => rfl⟩
  | cons tx txs ih =>
    rw [follow, map_cons, length_cons, List.range'_succ, List.cons.injEq]
    split
    · rename_i hnext
      rw [List.cons.injEq, ih]
      exact ⟨fun h => ⟨hnext, h.2⟩, fun h => ⟨rfl, h.2⟩⟩
    · rename_i hnext
      refine ⟨fun h => ?_, fun h => absurd h.1 hnext⟩
      have hlength := (follow_sublist next txs).length_le
      rw [h, length_cons] at hlength
      omega

theorem follow_eq_self_iff_increasing {next : Nat} {txs : List Transaction}
    (hnonces : (txs.map fun tx => tx.nonce.toNat).Perm (List.range' next txs.length)) :
    follow next txs = txs ↔ txs.Pairwise fun a b => a.nonce < b.nonce := by
  rw [follow_eq_self_iff]
  have hpairwise : (txs.Pairwise fun a b => a.nonce < b.nonce) ↔
      (txs.map fun tx => tx.nonce.toNat).Pairwise (· < ·) := by
    rw [pairwise_map]
    rfl
  rw [hpairwise]
  constructor
  · intro h
    rw [h]
    exact pairwise_lt_range'
  · intro h
    exact hnonces.eq_of_pairwise (fun a b _ _ hab hba => absurd hba (Nat.lt_asymm hab)) h
      pairwise_lt_range'

namespace Mempool
open HashMap
variable {crates : Crates} {account : String → Account} {pool : Mempool} {txs : List Transaction}

/-! ### What a sender gets into the pool -/

/-- Nothing but their nonces can keep the transactions of `s` out. -/
structure Payable (crates : Crates) (account : String → Account) (s : String) (pool : Mempool)
    (txs : List Transaction) : Prop where
  ownNonces : pool.OwnNonces txs
  new : ∀ tx ∈ txs, pool.txs[crates.txid tx]? = none
  ids : txs.Pairwise fun a b => crates.txid a ≠ crates.txid b
  room : pool.txs.size + txs.length ≤ MAX_PENDING_TXS
  verified : ∀ tx ∈ txs, verifyTransaction crates tx = .ok ()
  chain : ∀ tx ∈ txs, tx.chainId = pool.chainId
  cost : ((pool.pending s []).map fun e => e.2.cost).sum +
    ((txs.filter fun tx => tx.sender = s).map Transaction.cost).sum ≤ (account s).balance.toNat

theorem Payable.tail {s : String} {tx : Transaction} (h : Payable crates account s pool (tx :: txs)) :
    Payable crates account s (attempt crates account pool tx) txs := by
  obtain ⟨hids, hids'⟩ := pairwise_cons.mp h.ids
  have hroom := h.room
  have hcost := h.cost
  rw [length_cons] at hroom
  refine ⟨h.ownNonces.tail, fun tx' htx' => ?_, hids', ?_,
    fun tx' htx' => h.verified tx' (mem_cons_of_mem _ htx'), fun tx' htx' => ?_, ?_⟩
  all_goals by_cases henters : Enters crates pool (account tx.sender) tx
  · rw [attempt_of_enters henters, txs_store, if_neg (hids tx' htx').symm]
    exact h.new tx' (mem_cons_of_mem _ htx')
  · rw [attempt_of_not henters]
    exact h.new tx' (mem_cons_of_mem _ htx')
  · rw [attempt_of_enters henters]
    have hle : (pool.txs.insert (crates.txid tx) tx).size ≤ pool.txs.size + 1 :=
      ExtTreeMap.size_insert_le
    exact Nat.le_trans (Nat.add_le_add_right hle _) (by omega)
  · rw [attempt_of_not henters]
    omega
  · rw [attempt_of_enters henters]
    exact h.chain tx' (mem_cons_of_mem _ htx')
  · rw [attempt_of_not henters]
    exact h.chain tx' (mem_cons_of_mem _ htx')
  · rw [attempt_of_enters henters, ((pending_store henters.new tx 0 s).map _).sum_eq]
    by_cases hs : tx.sender = s
    · rw [filter_cons_of_pos (by simpa using hs), map_cons, sum_cons] at hcost
      rw [if_pos hs, map_cons, sum_cons]
      dsimp only
      omega
    · rw [filter_cons_of_neg (by simpa using hs)] at hcost
      rw [if_neg hs]
      exact hcost
  · rw [attempt_of_not henters]
    by_cases hs : tx.sender = s
    · rw [filter_cons_of_pos (by simpa using hs), map_cons, sum_cons] at hcost
      omega
    · rw [filter_cons_of_neg (by simpa using hs)] at hcost
      exact hcost

/-- The next of the sender's transactions enters if it carries the next nonce. -/
theorem Payable.enters_iff {tx : Transaction} (h : Payable crates account tx.sender pool (tx :: txs)) :
    Enters crates pool (account tx.sender) tx ↔
      tx.nonce.toNat = (account tx.sender).nonce.toNat + (pool.pending tx.sender []).length + 1 := by
  refine ⟨fun henters => henters.nonce, fun hnonce => ?_⟩
  have hcost := h.cost
  have hroom := h.room
  rw [filter_cons_of_pos (by simp), map_cons, sum_cons] at hcost
  rw [length_cons] at hroom
  refine ⟨h.new tx (by simp), h.verified tx (by simp), h.chain tx (by simp), by omega, hnonce, ?_⟩
  generalize hspent : ((pool.pending tx.sender []).map fun e => e.2.cost).sum = spent at hcost ⊢
  have hlt := (account tx.sender).balance.toNat_lt
  rw [toNat_saturatingSub, UInt64.toNat_ofNat', Nat.mod_eq_of_lt (by omega)]
  omega

theorem pending_foldl_attempt {s : String} (h : Payable crates account s pool txs) :
    (((txs.foldl (attempt crates account) pool).pending s []).map Prod.snd).Perm
      ((pool.pending s []).map Prod.snd ++
        follow ((account s).nonce.toNat + (pool.pending s []).length + 1)
          (txs.filter fun tx => tx.sender = s)) := by
  induction txs generalizing pool with
  | nil => simp [follow]
  | cons tx txs ih =>
    rw [foldl_cons]
    refine (ih h.tail).trans ?_
    by_cases hs : tx.sender = s
    · subst hs
      rw [filter_cons_of_pos (by simp), follow]
      by_cases hnonce : tx.nonce.toNat =
          (account tx.sender).nonce.toNat + (pool.pending tx.sender []).length + 1
      · have henters := h.enters_iff.mpr hnonce
        have hperm := pending_store henters.new tx 0 tx.sender
        rw [if_pos rfl] at hperm
        rw [if_pos hnonce, attempt_of_enters henters, hperm.length_eq]
        refine ((hperm.map Prod.snd).append_right _).trans ?_
        exact perm_middle.symm
      · rw [if_neg hnonce, attempt_of_not fun henters => hnonce (h.enters_iff.mp henters)]
    · rw [filter_cons_of_neg (by simpa using hs)]
      by_cases henters : Enters crates pool (account tx.sender) tx
      · have hperm := pending_store henters.new tx 0 s
        rw [if_neg hs] at hperm
        rw [attempt_of_enters henters, hperm.length_eq]
        exact (hperm.map Prod.snd).append_right _
      · rw [attempt_of_not henters]

end Mempool

/-! ### The merge -/

section
variable {V : Type} {crates : Crates} {rt : Runtime V} {candidate : List Block} {rebuilt : StateCache}
  {pool : Mempool}

/-- One step of the merge is an attempt to insert. -/
theorem mergeTx_eq {ids : List TxId} {tx : Transaction} (h : pool.Coherent)
    (hadmitted : pool.Admitted crates) (hfree : pool.entry tx.sender tx.nonce = none)
    (hids : ∀ id ∈ ids, pool.txs[id]? ≠ none) :
    ∃ ids', mergeTx crates candidate rebuilt (pool, ids) tx =
        .ok (if chainHasTx crates candidate tx then pool
          else attempt crates rebuilt.accountOf pool tx, ids') ∧
      ∀ id ∈ ids', (if chainHasTx crates candidate tx then pool
          else attempt crates rebuilt.accountOf pool tx).txs[id]? ≠ none := by
  unfold mergeTx
  by_cases hchain : chainHasTx crates candidate tx = true
  · rw [if_pos (.inl hchain), if_pos hchain]
    exact ⟨ids, rfl, hids⟩
  · rw [if_neg hchain]
    by_cases hmem : crates.txid tx ∈ ids
    · rw [if_pos (.inr hmem), attempt_of_not fun henters => hids _ hmem henters.new]
      exact ⟨ids, rfl, hids⟩
    · rw [if_neg (not_or.mpr ⟨hchain, hmem⟩)]
      rcases @insert_fresh _ _ _ (rebuilt.accountOf tx.sender) h hadmitted hfree with
        ⟨henters, hrun⟩ | ⟨hnot, e, hrun⟩
      · rw [attempt_of_enters henters]
        refine ⟨ids ++ [crates.txid tx], ?_, fun id hid => ?_⟩
        · rw [← StateCache.accountOf, hrun]
        · rw [txs_store]
          split
          · exact Option.some_ne_none _
          · rename_i hne
            rcases mem_append.mp hid with hold | hnew
            · exact hids id hold
            · exact absurd (mem_singleton.mp hnew) hne
      · rw [attempt_of_not hnot]
        refine ⟨ids, ?_, hids⟩
        rw [← StateCache.accountOf, hrun]

theorem foldlM_mergeTx {ids : List TxId} {txs : List Transaction} (h : pool.Coherent)
    (hadmitted : pool.Admitted crates) (hown : pool.OwnNonces txs)
    (hids : ∀ id ∈ ids, pool.txs[id]? ≠ none) :
    ∃ ids', txs.foldlM (mergeTx crates candidate rebuilt) (pool, ids) =
      .ok ((txs.filter fun tx => !chainHasTx crates candidate tx).foldl
        (attempt crates rebuilt.accountOf) pool, ids') := by
  induction txs generalizing pool ids with
  | nil => exact ⟨ids, rfl⟩
  | cons tx txs ih =>
    have hfree := hown.1 tx mem_cons_self
    obtain ⟨ids', hstep, hids'⟩ := @mergeTx_eq _ candidate rebuilt _ _ _ h hadmitted hfree hids
    cases hchain : chainHasTx crates candidate tx with
    | true =>
      rw [hchain, if_pos rfl] at hstep hids'
      obtain ⟨ids'', hrest⟩ := ih h hadmitted hown.skip hids'
      rw [filter_cons_of_neg (by simp [hchain])]
      exact ⟨ids'', foldlM_cons_ok.mpr ⟨_, hstep, hrest⟩⟩
    | false =>
      rw [hchain, if_neg Bool.false_ne_true] at hstep hids'
      obtain ⟨ids'', hrest⟩ := ih (h.attempt hfree) (hadmitted.attempt tx) hown.tail hids'
      rw [filter_cons_of_pos (by simp [hchain])]
      exact ⟨ids'', foldlM_cons_ok.mpr ⟨_, hstep, hrest⟩⟩

/-- The pending transactions of a sender that a chain does not contain, in the order of
the iteration. -/
def Blockchain.stillPending (crates : Crates) (candidate : List Block) (s : String)
    (transactions : List Transaction) : List Transaction :=
  transactions.filter fun tx => tx.sender = s ∧ Blockchain.chainHasTx crates candidate tx = false

theorem stillPending_eq (s : String) (transactions : List Transaction) :
    ((transactions.filter fun tx => !chainHasTx crates candidate tx).filter fun tx =>
      tx.sender = s) = stillPending crates candidate s transactions := by
  rw [filter_filter, stillPending]
  refine filter_congr fun tx _ => ?_
  simp

section
variable {chainId : UInt32} {transactions : List Transaction} (h : pool.Sound crates chainId)
  (horder : pool.IteratesAs transactions)
include h horder

theorem Mempool.Sound.find (tx : Transaction) (htx : tx ∈ transactions) :
    pool.txs[crates.txid tx]? = some tx := by
  obtain ⟨⟨id, tx'⟩, hmem, rfl⟩ := mem_map.mp (horder.mem_iff.mp htx)
  have hfind := ExtTreeMap.mem_toList_iff_getElem?_eq_some.mp hmem
  rw [h.admitted.id_eq id tx' hfind]
  exact hfind

theorem Mempool.Sound.distinct_ids :
    transactions.Pairwise fun a b => crates.txid a ≠ crates.txid b := by
  have hkeys : (pool.txs.toList.map Prod.snd).map crates.txid = pool.txs.keys := by
    rw [← ExtTreeMap.map_fst_toList_eq_keys, map_map]
    refine map_congr_left fun e he => ?_
    exact h.admitted.id_eq _ _ (ExtTreeMap.mem_toList_iff_getElem?_eq_some.mp he)
  have hnodup : (transactions.map crates.txid).Nodup := by
    rw [(horder.map crates.txid).nodup_iff, hkeys]
    exact ExtTreeMap.nodup_keys
  exact pairwise_map.mp hnodup

theorem Mempool.Sound.distinct_nonces :
    transactions.Pairwise fun a b => ¬ (a.sender = b.sender ∧ a.nonce = b.nonce) := by
  refine (h.distinct_ids horder).imp_of_mem fun ha hb hne hsame => ?_
  -- one entry of the index, one id
  have hentry := h.coherent.indexed _ _ (h.find horder _ ha)
  rw [hsame.1, hsame.2, h.coherent.indexed _ _ (h.find horder _ hb)] at hentry
  exact hne (Option.some.inj hentry).symm

variable {s : String} (hcost : ((stillPending crates candidate s transactions).map fun tx =>
  tx.value.toNat + tx.fee.toNat).sum ≤ (rebuilt.balance s).toNat)
include hcost

theorem payable_new :
    Payable crates rebuilt.accountOf s (Mempool.new chainId)
      (transactions.filter fun tx => !chainHasTx crates candidate tx) := by
  have hmem : ∀ tx ∈ transactions.filter fun tx => !chainHasTx crates candidate tx,
      pool.txs[crates.txid tx]? = some tx :=
    fun tx htx => h.find horder tx (mem_of_mem_filter htx)
  have hids := (h.distinct_ids horder).filter fun tx => !chainHasTx crates candidate tx
  refine ⟨⟨fun tx _ => by simp [entry, Mempool.new],
    (h.distinct_nonces horder).filter _⟩, fun tx _ => by simp [Mempool.new], hids, ?_, fun tx htx => h.admitted.verified _ tx (hmem tx htx),
    fun tx htx => (h.admitted.chain _ tx (hmem tx htx)).trans h.network, ?_⟩
  · have hlength : transactions.length = pool.txs.size := by
      rw [horder.length_eq, length_map, ExtTreeMap.length_toList]
    have hle := length_filter_le (fun tx => !chainHasTx crates candidate tx) transactions
    have hbounded := h.admitted.bounded
    have hzero : (Mempool.new chainId).txs.size = 0 := by simp [Mempool.new]
    omega
  · rw [rebuilt.balance_accountOf]
    refine Nat.le_trans ?_ hcost
    rw [pending_new, stillPending_eq, map_nil, sum_nil, Nat.zero_add]
    refine sum_le_sum fun tx _ => ?_
    rw [Transaction.cost, UInt64.toNat_add]
    exact Nat.mod_le _ _

/-- The merge keeps the pending transactions of a sender whose nonces and balance allow
it, exactly if they come in the order of their nonces. -/
theorem mergeMempool_keeps_iff (hnonces : ((stillPending crates candidate s transactions).map fun tx =>
      tx.nonce.toNat).Perm (List.range' ((rebuilt.nonce s).toNat + 1)
        (stillPending crates candidate s transactions).length)) :
    ∃ merged, mergeMempool crates chainId candidate rebuilt transactions = .ok merged ∧
      ((∀ tx ∈ stillPending crates candidate s transactions,
        merged.txs[crates.txid tx]? = some tx) ↔
      (stillPending crates candidate s transactions).Pairwise fun a b =>
        a.nonce < b.nonce) := by
  have hnew := sound_new crates chainId
  obtain ⟨ids, hfold⟩ := @foldlM_mergeTx crates candidate rebuilt _ [] transactions hnew.coherent
    hnew.admitted ⟨fun tx _ => by simp [entry, Mempool.new], h.distinct_nonces horder⟩
    nofun
  refine ⟨_, bind_eq_ok.mpr ⟨_, hfold, rfl⟩, ?_⟩
  dsimp only
  -- what the sender has in the new pool
  have hperm := pending_foldl_attempt (payable_new h horder hcost)
  have hadmitted := @Admitted.foldl_attempt _ _ rebuilt.accountOf hnew.admitted
    (transactions.filter fun tx => !chainHasTx crates candidate tx)
  rw [pending_new, stillPending_eq, rebuilt.nonce_accountOf, map_nil, nil_append,
    length_nil, Nat.add_zero] at hperm
  generalize (transactions.filter fun tx => !chainHasTx crates candidate tx).foldl
    (attempt crates rebuilt.accountOf) (Mempool.new chainId) = merged at hperm hadmitted ⊢
  have hin : ∀ tx ∈ stillPending crates candidate s transactions,
      (merged.txs[crates.txid tx]? = some tx ↔ tx ∈ follow ((rebuilt.nonce s).toNat + 1)
        (stillPending crates candidate s transactions)) := by
    intro tx htx
    rw [← hperm.mem_iff, mem_map]
    constructor
    · intro hfind
      have hs : tx.sender = s := (of_decide_eq_true (mem_filter.mp htx).2).1
      exact ⟨(crates.txid tx, tx), mem_pending.mpr ⟨hfind, hs, not_mem_nil⟩, rfl⟩
    · rintro ⟨⟨id, tx'⟩, hmem, rfl⟩
      have hfind := (mem_pending.mp hmem).1
      rw [hadmitted.id_eq id tx' hfind]
      exact hfind
  rw [← follow_eq_self_iff_increasing hnonces]
  constructor
  · intro hall
    have hnodup : (stillPending crates candidate s transactions).Nodup := by
      refine ((h.distinct_ids horder).filter _).imp fun hne heq => ?_
      exact hne (congrArg crates.txid heq)
    have hsubset : stillPending crates candidate s transactions ⊆
        follow ((rebuilt.nonce s).toNat + 1)
          (stillPending crates candidate s transactions) :=
      fun tx htx => (hin tx htx).mp (hall tx htx)
    exact (follow_sublist _ _).eq_of_length_le (hnodup.subperm hsubset).length_le
  · intro hfollow tx htx
    rw [hin tx htx, hfollow]
    exact htx

end

/-- **A sender's pending transactions survive an adoption** exactly if the iteration of
the hash map visits them in the order of their nonces. -/
theorem adoption_keeps_pending_iff {node node' : Blockchain} {receipts : List Receipt}
    {balances : Option (HashMap String Account)} {difficulty : UInt32} {now : UInt64} {s : String}
    {transactions : List Transaction} (hpool : node.mempool.Sound crates node.chainId)
    (horder : node.mempool.IteratesAs transactions)
    (hadopt : (tryAdoptCandidate crates rt candidate balances [] difficulty now
      transactions).run node = .ok true node')
    (hrebuilt : rebuildFromChain crates rt node.toNodeConfig candidate now = .ok (rebuilt, receipts))
    (hnonces : ((stillPending crates candidate s transactions).map fun tx =>
      tx.nonce.toNat).Perm (List.range' ((rebuilt.nonce s).toNat + 1)
        (stillPending crates candidate s transactions).length))
    (hcost : ((stillPending crates candidate s transactions).map fun tx =>
      tx.value.toNat + tx.fee.toNat).sum ≤ (rebuilt.balance s).toNat) :
    (∀ tx ∈ stillPending crates candidate s transactions,
      node'.mempool.txs[crates.txid tx]? = some tx) ↔
    (stillPending crates candidate s transactions).Pairwise fun a b =>
      a.nonce < b.nonce := by
  rcases tryAdoptCandidate_ok crates rt hadopt with ⟨hfalse, -⟩ | ⟨-, hadopted⟩
  · cases hfalse
  obtain ⟨hcache, -⟩ := Prod.mk.inj (Except.ok.inj (hadopted.rebuilt.symm.trans hrebuilt))
  obtain ⟨merged, hmerged, hkeeps⟩ := mergeMempool_keeps_iff hpool horder hcost hnonces
  have hmempool := hadopted.merged
  rw [hcache, nil_append, hmerged] at hmempool
  rw [← Except.ok.inj hmempool]
  exact hkeeps

end

/-! ### Two pending transactions -/

/-- A transfer of nothing from the key 1. -/
def emptyTransfer (nonce : UInt64) (signature : List UInt8) : Transaction :=
  .transfer ⟨deployer, "recipient", 0, 0, nonce, CHAIN_ID_REGTEST, signature, false⟩

def firstTransfer : Transaction :=
  emptyTransfer 1
    [16, 225, 130, 79, 14, 136, 77, 27, 78, 78, 131, 77, 15, 47, 134, 223, 33, 61, 139, 147,
     200, 245, 225, 193, 149, 150, 40, 48, 241, 207, 228, 84, 45, 82, 23, 46, 52, 86, 16, 204,
     133, 103, 120, 99, 46, 210, 195, 175, 247, 113, 21, 180, 247, 243, 242, 180, 180, 141,
     140, 157, 201, 208, 7, 59, 0]

def secondTransfer : Transaction :=
  emptyTransfer 2
    [136, 223, 213, 221, 53, 146, 81, 157, 179, 22, 61, 87, 88, 209, 101, 231, 3, 30, 159,
     239, 79, 159, 41, 120, 187, 224, 123, 63, 63, 167, 182, 192, 77, 241, 211, 77, 13, 226,
     45, 136, 185, 85, 90, 226, 197, 250, 200, 4, 82, 112, 115, 190, 179, 177, 23, 120, 94,
     182, 3, 176, 166, 68, 51, 175, 1]

theorem verify_firstTransfer : verifyTransaction nonzeroCrates firstTransfer = .ok () := by
  rw [nonzeroCrates_eq]
  decide +kernel

theorem verify_secondTransfer : verifyTransaction nonzeroCrates secondTransfer = .ok () := by
  rw [nonzeroCrates_eq]
  decide +kernel

theorem txid_secondTransfer_ne :
    nonzeroCrates.txid secondTransfer ≠ nonzeroCrates.txid firstTransfer := by
  rw [nonzeroCrates_eq]
  decide +kernel

/-- The pool after both were added. -/
def twoPending : Mempool :=
  ((Mempool.new CHAIN_ID_REGTEST).store (nonzeroCrates.txid firstTransfer) firstTransfer 0).store
    (nonzeroCrates.txid secondTransfer) secondTransfer 0

theorem sound_twoPending : twoPending.Sound nonzeroCrates CHAIN_ID_REGTEST := by
  have hnew := sound_new nonzeroCrates CHAIN_ID_REGTEST
  have hone : ((Mempool.new CHAIN_ID_REGTEST).store (nonzeroCrates.txid firstTransfer) firstTransfer
      0).Sound nonzeroCrates CHAIN_ID_REGTEST :=
    ⟨hnew.coherent.store (by simp [Mempool.new]) rfl 0,
      hnew.admitted.store verify_firstTransfer rfl (by decide) 0, rfl⟩
  have hfree : ((Mempool.new CHAIN_ID_REGTEST).store (nonzeroCrates.txid firstTransfer) firstTransfer
      0).entry secondTransfer.sender secondTransfer.nonce = none := by
    rw [entry_store, if_neg (by decide)]
    rfl
  refine ⟨hone.coherent.store ?_ hfree 0, hone.admitted.store verify_secondTransfer rfl ?_ 0, rfl⟩
  · rw [txs_store, if_neg txid_secondTransfer_ne]
    simp [Mempool.new]
  · decide

variable {transactions : List Transaction}

section
variable (hperm : transactions.Perm [firstTransfer, secondTransfer])
include hperm

theorem iteratesAs_twoPending : twoPending.IteratesAs transactions := by
  have hne := txid_secondTransfer_ne
  have htwo := HashMap.toList_insert_perm ((∅ : HashMap TxId Transaction).insert
    (nonzeroCrates.txid firstTransfer) firstTransfer) (nonzeroCrates.txid secondTransfer) secondTransfer
  rw [HashMap.erase_of_none (by rw [HashMap.get?_insert, if_neg hne]; simp)] at htwo
  have hone := HashMap.toList_insert_perm (∅ : HashMap TxId Transaction)
    (nonzeroCrates.txid firstTransfer) firstTransfer
  have hempty : ((∅ : HashMap TxId Transaction).erase (nonzeroCrates.txid firstTransfer)).toList = [] := by
    rw [HashMap.erase_of_none (by simp)]
    rfl
  rw [hempty] at hone
  have hboth := (htwo.trans (hone.cons _)).map Prod.snd
  exact hperm.trans ((List.Perm.swap _ _ _).trans hboth.symm)

/-- The replay of the chain one block ahead leaves the sender as it was. -/
def aheadCache : StateCache := .fromState aheadReplay.state

theorem stillPending_twoPending :
    stillPending nonzeroCrates aheadReplay.done deployer transactions = transactions := by
  have hboth : ∀ tx ∈ [firstTransfer, secondTransfer], tx.sender = deployer ∧
      chainHasTx nonzeroCrates aheadReplay.done tx = false := by
    rw [aheadReplay, regtestChain_eq, nonzeroCrates_eq]
    decide +kernel
  exact filter_eq_self.mpr fun tx htx => decide_eq_true (hboth tx (hperm.mem_iff.mp htx))

theorem nonces_twoPending :
    (transactions.map fun tx => tx.nonce.toNat).Perm
      (List.range' ((aheadCache.nonce deployer).toNat + 1) transactions.length) := by
  have hnonce : aheadCache.nonce deployer = 0 := by decide
  rw [hnonce, hperm.length_eq]
  exact hperm.map _

theorem cost_twoPending :
    (transactions.map fun tx => tx.value.toNat + tx.fee.toNat).sum ≤
      (aheadCache.balance deployer).toNat := by
  rw [(hperm.map _).sum_eq]
  exact Nat.zero_le _

end

theorem rebuild_ahead : rebuildFromChain nonzeroCrates registryRuntime regtestConfig aheadReplay.done 0 =
    .ok (aheadCache, aheadReplay.state.receipts) :=
  (rebuildFromChain_ok _ _).mpr
    ⟨aheadReplay, complete_regtestChain clockInRange_zero (by decide), rfl, rfl⟩

/-- The adoption of the chain one block ahead, by a node with both pending. -/
theorem adopt_twoPending {merged : Mempool}
    (hmerged : mergeMempool nonzeroCrates CHAIN_ID_REGTEST aheadReplay.done aheadCache
      transactions = .ok merged) :
    ∃ node', (tryAdoptCandidate nonzeroCrates registryRuntime aheadReplay.done none [] 1 0
      transactions).run (.ofReplay regtestConfig regtestReplay twoPending) = .ok true node' ∧
      node'.mempool = merged :=
  ⟨_, tryAdoptCandidate_adopts _ _ (by decide +kernel) rebuild_ahead rfl hmerged
    (cumulativeWork_of_isOk (by decide)), rfl⟩

theorem adoption_keeps_pending_in_order : ∃ node',
    (tryAdoptCandidate nonzeroCrates registryRuntime aheadReplay.done none [] 1 0
      [firstTransfer, secondTransfer]).run (.ofReplay regtestConfig regtestReplay twoPending) =
        .ok true node' ∧
    node'.mempool.txs[nonzeroCrates.txid secondTransfer]? = some secondTransfer := by
  have hperm := List.Perm.refl [firstTransfer, secondTransfer]
  have hstill := stillPending_twoPending hperm
  obtain ⟨merged, hmerged, -⟩ := @mergeMempool_keeps_iff nonzeroCrates aheadReplay.done aheadCache _ _
    _ sound_twoPending (iteratesAs_twoPending hperm) deployer
    (by rw [hstill]; exact cost_twoPending hperm) (by rw [hstill]; exact nonces_twoPending hperm)
  obtain ⟨node', hadopt, -⟩ := adopt_twoPending hmerged
  refine ⟨node', hadopt, ?_⟩
  refine (adoption_keeps_pending_iff (s := deployer) sound_twoPending (iteratesAs_twoPending hperm) hadopt
    rebuild_ahead (by rw [hstill]; exact nonces_twoPending hperm)
    (by rw [hstill]; exact cost_twoPending hperm)).mpr ?_ secondTransfer ?_
  · rw [hstill]
    decide
  · rw [hstill]
    simp

/-- Visited in the other order, one of two valid pending transactions is lost. -/
theorem adoption_drops_pending :
    ∃ (node node' : Blockchain) (candidate : List Block) (transactions : List Transaction)
      (rebuilt : StateCache) (receipts : List Receipt),
      node.mempool.Sound nonzeroCrates node.chainId ∧ node.mempool.IteratesAs transactions ∧
      (tryAdoptCandidate nonzeroCrates registryRuntime candidate none [] 1 0
        transactions).run node = .ok true node' ∧
      rebuildFromChain nonzeroCrates registryRuntime node.toNodeConfig candidate 0 =
        .ok (rebuilt, receipts) ∧
      ((stillPending nonzeroCrates candidate deployer transactions).map fun tx =>
        tx.nonce.toNat).Perm (List.range' ((rebuilt.nonce deployer).toNat + 1)
          (stillPending nonzeroCrates candidate deployer transactions).length) ∧
      ((stillPending nonzeroCrates candidate deployer transactions).map fun tx =>
        tx.value.toNat + tx.fee.toNat).sum ≤ (rebuilt.balance deployer).toNat ∧
      ¬ ∀ tx ∈ stillPending nonzeroCrates candidate deployer transactions,
        node'.mempool.txs[nonzeroCrates.txid tx]? = some tx := by
  have hperm : [secondTransfer, firstTransfer].Perm [firstTransfer, secondTransfer] :=
    List.Perm.swap _ _ _
  have hstill := stillPending_twoPending hperm
  have hnonces := nonces_twoPending hperm
  have hcost := cost_twoPending hperm
  obtain ⟨merged, hmerged, hkeeps⟩ := @mergeMempool_keeps_iff nonzeroCrates aheadReplay.done aheadCache
    _ _ _ sound_twoPending (iteratesAs_twoPending hperm) deployer (by rw [hstill]; exact hcost)
    (by rw [hstill]; exact hnonces)
  obtain ⟨node', hadopt, rfl⟩ := adopt_twoPending hmerged
  refine ⟨_, node', aheadReplay.done, _, aheadCache, _, sound_twoPending, iteratesAs_twoPending hperm,
    hadopt, rebuild_ahead, ?_, ?_, ?_⟩
  · rw [hstill]
    exact hnonces
  · rw [hstill]
    exact hcost
  · rw [hkeeps, hstill]
    decide

end Strangecoin
