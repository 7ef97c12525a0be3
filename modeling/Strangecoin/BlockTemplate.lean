import Strangecoin.PoolRuns

/-! # The order of a block template

`get_pending` takes the first transactions of a hash map, in whatever order the map is
iterated; the index by sender and nonce is not read.
-/
namespace Strangecoin
open List

/-- `get_pending(max_count)`; `transactions` is what the map of the pool iterates as. -/
def Mempool.getPending (transactions : List Transaction) (maxCount : Nat) : List Transaction :=
  transactions.take maxCount

/-- The nonces of every sender count up from the one after its account's. -/
def NonceOrdered (account : String → Account) (transactions : List Transaction) : Prop :=
  ∀ s, ∃ count, ((transactions.filter fun tx => tx.sender = s).map fun tx => tx.nonce.toNat) =
    List.range' ((account s).nonce.toNat + 1) count

theorem NonceOrdered.of_singleton {account : String → Account} {tx : Transaction}
    (h : NonceOrdered account [tx]) : tx.nonce.toNat = (account tx.sender).nonce.toNat + 1 := by
  obtain ⟨count, hnonces⟩ := h tx.sender
  rw [filter_cons_of_pos (by simp), filter_nil, map_singleton] at hnonces
  obtain rfl : count = 1 := by simpa using (congrArg List.length hnonces).symm
  exact singleton_inj.mp hnonces

namespace Mempool
variable {pool : Mempool} {transactions : List Transaction}

theorem IteratesAs.mem (h : pool.IteratesAs transactions) {tx : Transaction} :
    tx ∈ transactions ↔ ∃ id : TxId, pool.txs[id]? = some tx := by
  rw [List.Perm.mem_iff h, mem_map]
  constructor
  · rintro ⟨⟨id, tx'⟩, hmem, rfl⟩
    exact ⟨id, Std.ExtTreeMap.mem_toList_iff_getElem?_eq_some.mp hmem⟩
  · rintro ⟨id, htx⟩
    exact ⟨(id, tx), Std.ExtTreeMap.mem_toList_iff_getElem?_eq_some.mpr htx, rfl⟩

/-- Every pending transaction comes first in some order. -/
theorem exists_iteratesAs_cons {id : TxId} {tx : Transaction} (htx : pool.txs[id]? = some tx) :
    ∃ rest, pool.IteratesAs (tx :: rest) := by
  have hmem : tx ∈ pool.txs.toList.map Prod.snd :=
    (IteratesAs.mem (List.Perm.refl _)).mpr ⟨id, htx⟩
  obtain ⟨before, after, hsplit⟩ := append_of_mem hmem
  refine ⟨before ++ after, ?_⟩
  rw [IteratesAs, hsplit]
  exact perm_middle.symm

/-- The transactions of a sender, in the order of the iteration. -/
theorem IteratesAs.filter_sender (h : pool.IteratesAs transactions) (s : String) :
    (transactions.filter fun tx => tx.sender = s).Perm ((pool.pending s []).map Prod.snd) := by
  refine (List.Perm.filter _ h).trans (List.Perm.of_eq ?_)
  rw [filter_map, pending]
  congr 1
  refine filter_congr fun e _ => ?_
  simp

/-- One nonce, one transaction. -/
theorem Coherent.length_pending_le_one (h : pool.Coherent) {s : String} {n : UInt64}
    (hnonce : ∀ e ∈ pool.pending s [], e.2.nonce = n) : (pool.pending s []).length ≤ 1 := by
  have hsame : ∀ e ∈ pool.pending s [], ∀ e' ∈ pool.pending s [], e = e' := by
    intro e he e' he'
    obtain ⟨htx, hs, -⟩ := mem_pending.mp he
    obtain ⟨htx', hs', -⟩ := mem_pending.mp he'
    have hentry := h.indexed _ _ htx
    have hentry' := h.indexed _ _ htx'
    rw [hs, hnonce e he] at hentry
    rw [hs', hnonce e' he', hentry] at hentry'
    have hid : e.1 = e'.1 := Option.some.inj hentry'
    rw [hid, htx'] at htx
    exact Prod.ext hid (Option.some.inj htx).symm
  have hnodup : (pool.pending s []).Nodup := nodup_pending []
  match hlist : pool.pending s [] with
  | [] => exact Nat.zero_le _
  | [e] => exact Nat.le_refl _
  | e :: e' :: rest =>
    rw [hlist] at hsame hnodup
    have heq := hsame e mem_cons_self e' (mem_cons_of_mem _ mem_cons_self)
    exact absurd (heq ▸ mem_cons_self) (nodup_cons.mp hnodup).1

end Mempool

/-- **The order of a block template.**  Whatever was inserted and removed: every iteration of
the pool's map gives a template with the nonces of each sender in order, cut off anywhere,
exactly if every pending transaction has the next nonce of its sender. -/
theorem block_template_ordered_iff (crates : Crates) (chainId : UInt32) (ops : List Mempool.Op)
    (account : String → Account) :
    (∀ transactions, (Mempool.runOps crates chainId ops).IteratesAs transactions →
      ∀ n, NonceOrdered account (Mempool.getPending transactions n)) ↔
    ∀ (id : TxId) tx, (Mempool.runOps crates chainId ops).txs[id]? = some tx →
      tx.nonce.toNat = (account tx.sender).nonce.toNat + 1 := by
  have hcoherent := (Mempool.sound_runOps crates chainId ops).1.coherent
  generalize Mempool.runOps crates chainId ops = pool at hcoherent
  constructor
  · intro hordered id tx htx
    obtain ⟨rest, horder⟩ := Mempool.exists_iteratesAs_cons htx
    exact (hordered _ horder 1).of_singleton
  · intro hnext transactions horder n s
    have hnonce : ∀ e ∈ pool.pending s [],
        e.2.nonce = UInt64.ofNat ((account s).nonce.toNat + 1) := by
      intro e he
      obtain ⟨htx, hs, -⟩ := Mempool.mem_pending.mp he
      rw [← hs, ← hnext e.1 e.2 htx, UInt64.ofNat_toNat]
    have hone := hcoherent.length_pending_le_one hnonce
    have hsub : ((Mempool.getPending transactions n).filter fun tx => tx.sender = s).Sublist
        (transactions.filter fun tx => tx.sender = s) :=
      (take_sublist n transactions).filter _
    have hle := hsub.length_le
    rw [(horder.filter_sender s).length_eq, length_map] at hle
    match hlist : (Mempool.getPending transactions n).filter fun tx => tx.sender = s with
    | [] =>
      refine ⟨0, ?_⟩
      rw [hlist]
      rfl
    | [tx] =>
      obtain ⟨hmem, hs⟩ := mem_filter.mp (hlist ▸ mem_singleton_self tx)
      obtain ⟨id, htx⟩ := horder.mem.mp (mem_of_mem_take hmem)
      refine ⟨1, ?_⟩
      rw [hlist, map_singleton, hnext id tx htx, of_decide_eq_true hs]
      rfl
    | tx :: tx' :: rest =>
      rw [hlist] at hle
      simp only [length_cons] at hle
      omega

theorem Mempool.runOps_concat (crates : Crates) (chainId : UInt32) (ops : List Mempool.Op)
    (op : Mempool.Op) :
    runOps crates chainId (ops ++ [op]) = after crates (runOps crates chainId ops) op := by
  rw [runOps, foldl_append]
  rfl

/-- The calls that make `twoPending`. -/
def twoInserts : List Mempool.Op :=
  [.insert firstTransfer Account.default, .insert secondTransfer Account.default]

theorem runOps_twoInserts :
    Mempool.runOps nonzeroCrates CHAIN_ID_REGTEST twoInserts = twoPending := by
  have henters := enters_new verify_firstTransfer rfl rfl (by decide)
  have hfirst := Mempool.runOps_single henters
  have hsound :=
    (Mempool.sound_runOps nonzeroCrates CHAIN_ID_REGTEST [.insert firstTransfer Account.default]).1
  have hcount := (pending_single henters).length_eq
  rw [hfirst] at hsound hcount
  have hsecond : Mempool.Enters nonzeroCrates ((Mempool.new CHAIN_ID_REGTEST).store
      (nonzeroCrates.txid firstTransfer) firstTransfer 0) Account.default secondTransfer :=
    { new := by
        rw [Mempool.txs_store, if_neg txid_secondTransfer_ne]
        simp [Mempool.new]
      verified := verify_secondTransfer
      chain := rfl
      room := by decide
      nonce := by
        change _ = _ + (Mempool.pending _ firstTransfer.sender []).length + 1
        rw [hcount]
        rfl
      cost := Nat.zero_le _ }
  have hfree : ((Mempool.new CHAIN_ID_REGTEST).store (nonzeroCrates.txid firstTransfer) firstTransfer
      0).entry secondTransfer.sender secondTransfer.nonce = none := by
    rw [Mempool.entry_store, if_neg (by decide)]
    rfl
  rw [twoInserts, ← singleton_append, Mempool.runOps_concat, hfirst, Mempool.after]
  rcases @Mempool.insert_fresh _ _ secondTransfer Account.default hsound.coherent hsound.admitted
    hfree with ⟨-, hstore⟩ | ⟨hnot, -⟩
  · rw [hstore]
    rfl
  · exact absurd hsecond hnot

/-- **Counterexample to the order of templates.**  Two transfers of one sender were inserted in
order, and the map iterates the second one first. -/
theorem template_out_of_order :
    (Mempool.runOps nonzeroCrates CHAIN_ID_REGTEST twoInserts).IteratesAs
      [secondTransfer, firstTransfer] ∧
    ¬ NonceOrdered (fun _ => Account.default)
      (Mempool.getPending [secondTransfer, firstTransfer] 1000) := by
  refine ⟨?_, fun h => ?_⟩
  · rw [runOps_twoInserts]
    exact iteratesAs_twoPending (List.Perm.swap _ _ _)
  · obtain ⟨count, hnonces⟩ := h deployer
    have hlist : ((Mempool.getPending [secondTransfer, firstTransfer] 1000).filter fun tx =>
        tx.sender = deployer).map (fun tx => tx.nonce.toNat) = [2, 1] := by decide
    rw [hlist] at hnonces
    obtain rfl : count = 2 := by simpa using (congrArg List.length hnonces).symm
    exact absurd hnonces (by decide)

end Strangecoin
