import Strangecoin.PoolRuns
import Strangecoin.ReplayProtection
import Strangecoin.BlockReceipts

/-! # The pool after a block

A commit removes the transactions of the block from the pool by id; a competing version of a
pending transaction leaves the pending one where it is, with a nonce that is spent.  How many
nonces a block spends is the number of the sender's transactions in it, whatever nonces they
carry.
-/
namespace Strangecoin
open List Std

/-! ### Runs of nonces -/

section
variable {α : Type} {f : α → Nat} {l : List α} {n m : Nat}

/-- When at most `m` elements of a run leave and what stays lies above the first `m`, the rest
is a run. -/
theorem perm_range'_filter (keep : α → Bool) (hrun : (l.map f).Perm (List.range' (n + 1) l.length))
    (hgone : (l.filter fun a => !keep a).length ≤ m)
    (habove : ∀ a ∈ l.filter keep, n + m < f a) :
    ((l.filter keep).map f).Perm (List.range' (n + m + 1) (l.filter keep).length) := by
  have hnodup : ((l.filter keep).map f).Nodup :=
    (hrun.nodup_iff.mpr nodup_range').sublist (filter_sublist.map f)
  have hsub : (l.filter keep).map f ⊆ List.range' (n + m + 1) (l.length - m) := by
    intro x hx
    obtain ⟨a, ha, rfl⟩ := mem_map.mp hx
    have hlow := habove a ha
    have hmem : f a ∈ List.range' (n + 1) l.length :=
      hrun.mem_iff.mp (mem_map_of_mem (mem_of_mem_filter ha))
    rw [mem_range'_1] at hmem ⊢
    omega
  have hsplit := (filter_append_perm keep l).length_eq
  rw [length_append] at hsplit
  have hperm := (hnodup.subperm hsub).perm_of_length_le (by
    rw [length_range', length_map]
    omega)
  have hlength := hperm.length_eq
  rw [length_range', length_map] at hlength
  rwa [← hlength] at hperm

theorem max?_of_perm_range' {ns : List Nat} {k : Nat} (h : ns.Perm (List.range' (n + 1) (k + 1))) :
    ns.max? = some (n + k + 1) := by
  rw [max?_eq_some_iff]
  constructor
  · exact h.mem_iff.mpr (mem_range'_1.mpr (by omega))
  · intro x hx
    have := mem_range'_1.mp (h.mem_iff.mp hx)
    omega

end

/-! ### Fresh pools -/

variable {tx : Transaction} {id : TxId}

namespace Mempool
variable {crates : Crates} {pool : Mempool} {account : String → Account}

/-- The pending nonces of every sender count on from its account's. -/
def Consecutive (account : String → Account) (pool : Mempool) : Prop :=
  ∀ s, ((pool.pending s []).map fun e => e.2.nonce.toNat).Perm
    (List.range' ((account s).nonce.toNat + 1) (pool.pending s []).length)

/-- The last pending nonce of a sender; its account's if nothing is pending. -/
def lastNonce (pool : Mempool) (account : Account) (s : String) : Nat :=
  ((pool.pending s []).map fun e => e.2.nonce.toNat).max?.getD account.nonce.toNat

/-- No pending nonce is spent, and the check of the next insertion passes for the nonce after
the last pending one only. -/
structure Fresh (account : String → Account) (pool : Mempool) : Prop where
  unspent : ∀ (id : TxId) tx, pool.txs[id]? = some tx → (account tx.sender).nonce < tx.nonce
  expects : ∀ (s : String) (n : UInt64), validateNonce n (saturatingAdd (account s).nonce
      (UInt64.ofNat (pool.remaining s []).length)) = .ok () ↔
    n.toNat = pool.lastNonce (account s) s + 1

theorem Coherent.validateNonce_remaining (h : pool.Coherent) (hsize : pool.txs.size < 2 ^ 64)
    {s : String} {n : UInt64} {accountNonce : UInt64} :
    validateNonce n (saturatingAdd accountNonce
      (UInt64.ofNat (pool.remaining s []).length)) = .ok () ↔
    n.toNat = accountNonce.toNat + (pool.pending s []).length + 1 := by
  rw [(h.remaining_perm s []).length_eq, length_map]
  exact validateNonce_saturatingAdd (Nat.lt_of_le_of_lt (length_pending_le []) hsize)

theorem Consecutive.lastNonce_eq (h : pool.Consecutive account) (s : String) :
    pool.lastNonce (account s) s = (account s).nonce.toNat + (pool.pending s []).length := by
  have hrun := h s
  rw [lastNonce]
  cases hlength : (pool.pending s []).length with
  | zero =>
    rw [eq_nil_of_length_eq_zero hlength]
    rfl
  | succ k =>
    rw [hlength] at hrun
    rw [max?_of_perm_range' hrun]
    rfl

theorem Consecutive.nonce_mem (h : pool.Consecutive account) (htx : pool.txs[id]? = some tx) :
    (account tx.sender).nonce.toNat < tx.nonce.toNat := by
  have hmem : (id, tx) ∈ pool.pending tx.sender [] := mem_pending.mpr ⟨htx, rfl, not_mem_nil⟩
  have hrange := (h tx.sender).mem_iff.mp
    (mem_map.mpr ⟨(id, tx), hmem, rfl⟩ : tx.nonce.toNat ∈ _)
  exact (mem_range'_1.mp hrange).1

theorem Consecutive.fresh (h : pool.Consecutive account) (hcoherent : pool.Coherent)
    (hsize : pool.txs.size < 2 ^ 64) : pool.Fresh account where
  unspent id tx htx := UInt64.lt_iff_toNat_lt.mpr (h.nonce_mem htx)
  expects s n := by rw [hcoherent.validateNonce_remaining hsize, h.lastNonce_eq]

theorem pending_eq_filter (pool : Mempool) (s : String) (ids : List TxId) :
    pool.pending s ids = (pool.pending s []).filter fun e => e.1 ∉ ids := by
  rw [pending, pending, filter_filter]
  refine filter_congr fun e _ => ?_
  simp [and_comm]

theorem le_lastNonce (htx : pool.txs[id]? = some tx) (a : Account) :
    tx.nonce.toNat ≤ pool.lastNonce a tx.sender := by
  have hmem : tx.nonce.toNat ∈ (pool.pending tx.sender []).map fun e => e.2.nonce.toNat :=
    mem_map.mpr ⟨(id, tx), mem_pending.mpr ⟨htx, rfl, not_mem_nil⟩, rfl⟩
  obtain ⟨last, hlast⟩ := Option.isSome_iff_exists.mp
    (isSome_max?_of_mem hmem)
  rw [lastNonce, hlast]
  exact (max?_eq_some_iff.mp hlast).2 _ hmem

/-! ### Removals while account nonces rise -/

section
variable {account' : String → Account} {ids : List TxId} (count : String → Nat)
  (hrun : pool.Consecutive account)
  (hnonce : ∀ (id : TxId) tx, pool.txs[id]? = some tx → (account' tx.sender).nonce.toNat =
    ((account tx.sender).nonce.toNat + count tx.sender) % 2 ^ 64)
include hrun hnonce

/-- What is at or below the new nonces has left a fresh pool. -/
theorem Fresh.mem_removed (hfresh : (ids.foldl Mempool.remove pool).Fresh account')
    (hcoherent : pool.Coherent) (hbounded : pool.txs.size ≤ MAX_PENDING_TXS)
    (hcount : ∀ s, count s < 2 ^ 32) (htx : pool.txs[id]? = some tx)
    (hle : tx.nonce.toNat ≤ (account tx.sender).nonce.toNat + count tx.sender) : id ∈ ids := by
  by_contra hout
  have hstays : (ids.foldl Mempool.remove pool).txs[id]? = some tx := by
    rw [txs_foldl_remove, if_neg hout]
    exact htx
  have hunspent := UInt64.lt_iff_toNat_lt.mp (hfresh.unspent id tx hstays)
  have hsize := (size_foldl_remove_le ids).trans hbounded
  have hpending : ((ids.foldl Mempool.remove pool).pending tx.sender []).length ≤ 10000 :=
    (length_pending_le []).trans hsize
  have hlast := le_lastNonce hstays (account' tx.sender)
  have hold := hrun.nonce_mem htx
  have hfew := hcount tx.sender
  have hlt := tx.nonce.toNat_lt
  rw [hnonce id tx htx] at hunspent
  -- if the nonce has not wrapped this is a stale transaction; if it has, the next nonce
  -- expected is far below what stays pending
  generalize hexpected : (account' tx.sender).nonce.toNat +
    ((ids.foldl Mempool.remove pool).pending tx.sender []).length + 1 = expected
  rw [hnonce id tx htx] at hexpected
  have hsmall : expected < 2 ^ 64 := by omega
  have hfits : (UInt64.ofNat expected).toNat = expected := UInt64.toNat_ofNat_of_lt hsmall
  have hexpects := (hfresh.expects tx.sender (UInt64.ofNat expected)).mp (by
    rw [(hcoherent.foldl_remove ids).validateNonce_remaining
      (hsize.trans_lt (by decide : MAX_PENDING_TXS < 2 ^ 64)), hfits, hnonce id tx htx, hexpected])
  rw [hfits] at hexpects
  omega

/-- When everything at or below the new nonces leaves, and no more than nonces are spent, what
stays is consecutive. -/
theorem Consecutive.foldl_remove
    (hgone : ∀ s, ((pool.pending s []).filter fun e => e.1 ∈ ids).length ≤ count s)
    (hspent : ∀ (id : TxId) tx, pool.txs[id]? = some tx →
      tx.nonce.toNat ≤ (account tx.sender).nonce.toNat + count tx.sender → id ∈ ids) :
    (ids.foldl Mempool.remove pool).Consecutive account' := by
  intro s
  have hpending : ((ids.foldl Mempool.remove pool).pending s []).Perm
      ((pool.pending s []).filter fun e => e.1 ∉ ids) := by
    rw [← pending_eq_filter]
    exact pending_foldl_remove ids s
  have habove : ∀ e ∈ (pool.pending s []).filter fun e => e.1 ∉ ids,
      (account s).nonce.toNat + count s < e.2.nonce.toNat := by
    intro e he
    obtain ⟨hmem, hout⟩ := mem_filter.mp he
    obtain ⟨htx, rfl, -⟩ := mem_pending.mp hmem
    by_contra hle
    exact of_decide_eq_true hout (hspent e.1 e.2 htx (Nat.le_of_not_lt hle))
  have hkept := perm_range'_filter (fun e => decide (e.1 ∉ ids)) (hrun s) (m := count s)
    (by simpa using hgone s) habove
  refine (hpending.map _).trans ?_
  rw [hpending.length_eq]
  cases hlist : (pool.pending s []).filter fun e => e.1 ∉ ids with
  | nil => exact List.Perm.refl _
  | cons e rest =>
    rw [hlist] at hkept habove
    have hmem : e ∈ pool.pending s [] := by
      refine mem_of_mem_filter (p := fun e => decide (e.1 ∉ ids)) ?_
      rw [hlist]
      exact mem_cons_self
    obtain ⟨htx, hs, -⟩ := mem_pending.mp hmem
    have hlow := habove e mem_cons_self
    have hlt := e.2.nonce.toNat_lt
    have hnew := hnonce e.1 e.2 htx
    rw [hs, Nat.mod_eq_of_lt (by omega)] at hnew
    rw [hnew]
    exact hkept

end

end Mempool

/-! ### What a block does to nonces -/

theorem length_carriedNonces (a : String) (txs : List Transaction) :
    (carriedNonces a txs).length = ((signedTxs txs).filter fun tx => tx.sender = a).length := by
  induction txs with
  | nil => rfl
  | cons tx txs ih =>
    rw [carriedNonces_cons, length_append, ih, carriedBy, signedTxs, signedTxs]
    by_cases hflag : tx.isCoinbase = false
    · by_cases hs : tx.sender = a
      · simp [hflag, hs, Nat.add_comm]
      · simp [hflag, hs]
    · simp [hflag]

theorem length_carriedNonces_le (a : String) (txs : List Transaction) :
    (carriedNonces a txs).length ≤ txs.length := by
  rw [length_carriedNonces]
  exact (filter_sublist.trans filter_sublist).length_le

section
variable {V : Type} {crates : Crates} {exec : VmExecutor V} {chainId : UInt32} {block : Block}
  {a : String}

theorem nonce_applyTxs (hcodec : AddressCodec crates) (ha : HasKey crates a) {p q : Progress V}
    {es : List (Transaction × Nat)}
    (hrun : es.foldlM (applyTx crates exec chainId block) p = .ok q) :
    q.state.getNonce a = p.state.getNonce a +
      UInt64.ofNat (carriedNonces a (es.map Prod.fst)).length := by
  induction es generalizing p with
  | nil =>
    obtain rfl := foldlM_nil_ok.mp hrun
    exact (UInt64.add_zero _).symm
  | cons e es ih =>
    obtain ⟨u, hu, hrun⟩ := foldlM_cons_ok.mp hrun
    rw [ih hrun, nonce_applyTx hcodec ha hu, map_cons, carriedNonces_cons,
      length_append, UInt64.ofNat_add, UInt64.add_assoc]

/-- **A block raises the nonce of a key** by the number of its transactions. -/
theorem ValidBlock.nonce {rt : Runtime V} {parent state : State} {view : BlockView}
    (h : ValidBlock crates rt parent block view state) (hchain : view.chain ≠ [])
    (hcodec : AddressCodec crates) (ha : HasKey crates a) :
    state.getNonce a = parent.getNonce a +
      UInt64.ofNat (carriedNonces a block.transactions).length := by
  obtain ⟨vm, happly⟩ := h.applyBlockInner
  have hpos : 0 < block.index := UInt64.pos_iff_ne_zero.mpr (index_ne_zero h hchain)
  obtain ⟨-, cb, i, s₁, p, -, -, hcredit, hrun, heq⟩ := (applyBlockInner_ok hpos).mp happly
  obtain ⟨rfl, -⟩ := Prod.mk.inj heq
  have hnonce := nonce_applyTxs hcodec ha hrun
  rw [zipIdx_map_fst, State.getNonce_credit hcredit] at hnonce
  exact hnonce

end

/-! ### Confirmed transactions -/

theorem confirmTransactions_eq (crates : Crates) (pool : Mempool) (block : Block) :
    Blockchain.confirmTransactions crates pool block =
      ((signedTxs block.transactions).map crates.txid).foldl Mempool.remove pool := by
  rw [Blockchain.confirmTransactions, foldl_map, signedTxs, foldl_filter]
  congr 1
  funext pool tx
  cases tx.isCoinbase <;> rfl

theorem mem_map_signedTxs {crates : Crates} {txs : List Transaction} :
    id ∈ (signedTxs txs).map crates.txid ↔
      ∃ t ∈ txs, t.isCoinbase = false ∧ crates.txid t = id := by
  simp [signedTxs, and_assoc]

theorem serializeTransactionSigned_sender (tx : Transaction) :
    ∃ tag rest, serializeTransactionSigned tx =
      FORMAT_VERSION :: tag :: (writeString tx.sender ++ rest) := by
  cases tx <;>
    exact ⟨_, _, by simp only [serializeTransactionSigned, serializeTransaction,
      cons_append, append_assoc]; rfl⟩

/-- The encoding of a transaction that fits a block names its sender. -/
theorem sender_eq_of_serialize_eq {t t' : Transaction}
    (hsize : (serializeTransactionSigned t).length ≤ MAX_TX_SIZE)
    (h : serializeTransactionSigned t = serializeTransactionSigned t') : t.sender = t'.sender := by
  obtain ⟨tag, rest, hbytes⟩ := serializeTransactionSigned_sender t
  obtain ⟨tag', rest', hbytes'⟩ := serializeTransactionSigned_sender t'
  have hshort : ∀ s tag rest, (FORMAT_VERSION :: tag :: (writeString s ++ rest)).length ≤
      MAX_TX_SIZE → (asBytes s).length < 2 ^ 32 := by
    intro s tag rest hle
    simp only [length_cons, length_append, writeString, writeBytes, MAX_TX_SIZE] at hle
    omega
  rw [hbytes] at hsize h
  rw [hbytes'] at h
  have hsize' := h ▸ hsize
  simp only [List.cons.injEq, true_and] at h
  exact (delimits_writeString _ _ _ _ (hshort _ _ _ hsize) (hshort _ _ _ hsize') h.2).1

/-! ### The pool after a commit -/

section
variable {V : Type} {crates : Crates} {rt : Runtime V} {node node' : Blockchain} {block : Block}
  {now : UInt64}

theorem validateSizes_tx (h : validateSizes block = .ok ()) {t : Transaction}
    (ht : t ∈ block.transactions) : (serializeTransactionSigned t).length ≤ MAX_TX_SIZE := by
  obtain ⟨_, -, h⟩ := bind_eq_ok.mp h
  obtain ⟨_, -, h⟩ := bind_eq_ok.mp h
  exact guardNode_eq_ok.mp (forM_ok.mp h t ht)

/-- No more of a sender's pending transactions leave than the block has of the sender. -/
theorem length_confirmed_le (hpool : node.mempool.Sound crates node.chainId)
    (hsizes : ∀ t ∈ block.transactions, (serializeTransactionSigned t).length ≤ MAX_TX_SIZE)
    (hcollision : ¬ Collision crates.blake3
      ((block.transactions ++ node.mempool.txs.toList.map Prod.snd).map serializeTransactionSigned))
    (s : String) :
    ((node.mempool.pending s []).filter fun e =>
      e.1 ∈ (signedTxs block.transactions).map crates.txid).length ≤
      (carriedNonces s block.transactions).length := by
  rw [length_carriedNonces, ← length_map Prod.fst, ← length_map crates.txid]
  have hkeys : (node.mempool.txs.toList.map Prod.fst).Nodup := by
    rw [ExtTreeMap.map_fst_toList_eq_keys]
    exact ExtTreeMap.nodup_keys
  have hnodup : (((node.mempool.pending s []).filter fun e =>
      e.1 ∈ (signedTxs block.transactions).map crates.txid).map Prod.fst).Nodup :=
    hkeys.sublist ((filter_sublist.trans filter_sublist).map _)
  refine (hnodup.subperm fun id hid => ?_).length_le
  obtain ⟨e, he, rfl⟩ := mem_map.mp hid
  obtain ⟨hpending, hin⟩ := mem_filter.mp he
  obtain ⟨htx, hs, -⟩ := Mempool.mem_pending.mp hpending
  obtain ⟨t, ht, htid⟩ := mem_map.mp (of_decide_eq_true hin)
  have htblock : t ∈ block.transactions := mem_of_mem_filter ht
  have hpooled : e.2 ∈ node.mempool.txs.toList.map Prod.snd :=
    mem_map.mpr ⟨e, ExtTreeMap.mem_toList_iff_getElem?_eq_some.mpr htx, rfl⟩
  have hbytes : serializeTransactionSigned t = serializeTransactionSigned e.2 :=
    eq_of_not_collision hcollision
      (mem_map_of_mem (mem_append_left _ htblock))
      (mem_map_of_mem (mem_append_right _ hpooled))
      (htid.trans (hpool.admitted.id_eq _ _ htx).symm)
  have hsender := sender_eq_of_serialize_eq (hsizes t htblock) hbytes
  exact mem_map.mpr ⟨t, mem_filter.mpr ⟨ht, by simp [hsender, hs]⟩, htid⟩

/-- The nonce of a key after a commit, as a number. -/
theorem nonce_accountOf_commit {state : State} {s : String}
    (hnonce : state.getNonce s = node.balances.toState.getNonce s +
      UInt64.ofNat (carriedNonces s block.transactions).length)
    (hlength : block.transactions.length < 2 ^ 32) :
    ((StateCache.fromState state).accountOf s).nonce.toNat =
      ((node.balances.accountOf s).nonce.toNat +
        (carriedNonces s block.transactions).length) % 2 ^ 64 := by
  have hcount : (carriedNonces s block.transactions).length < 2 ^ 64 :=
    (length_carriedNonces_le s block.transactions).trans_lt (hlength.trans (by decide))
  have hread : ∀ cache : StateCache, (cache.accountOf s).nonce = cache.toState.getNonce s :=
    fun cache => cache.nonce_accountOf s
  rw [hread, hread]
  change (state.getNonce s).toNat = _
  rw [hnonce, UInt64.toNat_add]
  congr 2
  exact UInt64.toNat_ofNat_of_lt hcount

/-- **The pool after a block.**  After a commit on a node with a chain nothing pending is stale,
and the next nonce expected of a sender is the one after its last pending one, exactly if every
pending transaction whose nonce the block spends is one of the block's. -/
theorem commit_leaves_pool_fresh_iff (hcodec : AddressCodec crates) (hchain : node.chain ≠ [])
    (hpool : node.mempool.Sound crates node.chainId)
    (hkeys : ∀ (id : TxId) tx, node.mempool.txs[id]? = some tx → HasKey crates tx.sender)
    (hconsecutive : node.mempool.Consecutive node.balances.accountOf)
    (hcollision : ¬ Collision crates.blake3
      ((block.transactions ++ node.mempool.txs.toList.map Prod.snd).map serializeTransactionSigned))
    (hcommit : (Blockchain.commitBlock crates rt block now).run node = .ok () node') :
    node'.mempool.Fresh node'.balances.accountOf ↔
    ∀ (id : TxId) tx, node.mempool.txs[id]? = some tx →
      tx.nonce.toNat ≤ (node.balances.accountOf tx.sender).nonce.toNat +
        (carriedNonces tx.sender block.transactions).length →
      ∃ t ∈ block.transactions, t.isCoinbase = false ∧ crates.txid t = id := by
  obtain ⟨state, work, hvalid, -, rfl⟩ := (commitBlock_ok crates rt).mp hcommit
  have hlength := hvalid.length_lt
  have hnonce : ∀ (id : TxId) tx, node.mempool.txs[id]? = some tx → _ := fun id tx htx =>
    @nonce_accountOf_commit node block state tx.sender
      (hvalid.nonce hchain hcodec (hkeys id tx htx)) hlength
  have hcount : ∀ s, (carriedNonces s block.transactions).length < 2 ^ 32 := fun s =>
    Nat.lt_of_le_of_lt (length_carriedNonces_le s block.transactions) hlength
  dsimp only
  rw [confirmTransactions_eq]
  simp only [← mem_map_signedTxs]
  constructor
  · intro hfresh id tx htx hle
    exact hfresh.mem_removed _ hconsecutive hnonce hpool.coherent hpool.admitted.bounded hcount
      htx hle
  · intro hspent
    refine Mempool.Consecutive.fresh (hconsecutive.foldl_remove
      (fun s => (carriedNonces s block.transactions).length) hnonce ?_ hspent)
      (hpool.coherent.foldl_remove _) ?_
    · exact length_confirmed_le hpool (fun t ht => validateSizes_tx hvalid.sizes ht) hcollision
    · exact ((Mempool.size_foldl_remove_le _).trans hpool.admitted.bounded).trans_lt (by decide)

end

/-! ### A pending transfer and its competitor -/

theorem Mempool.toList_store_new (chainId : UInt32) (id : TxId) (tx : Transaction) (g : UInt32) :
    ((Mempool.new chainId).store id tx g).txs.toList.map Prod.snd = [tx] := by
  have hperm := HashMap.toList_insert_perm (∅ : HashMap TxId Transaction) id tx
  rw [HashMap.erase_of_none (by simp)] at hperm
  exact perm_singleton.mp (hperm.map Prod.snd)

/-- Another transfer of the key 1 with the nonce of `firstTransfer`. -/
def competingTransfer : Transaction :=
  .transfer ⟨deployer, "other", 0, 0, 1, CHAIN_ID_REGTEST,
    [118, 36, 206, 160, 84, 154, 49, 17, 181, 118, 1, 36, 223, 237, 61, 151, 226, 102, 214, 30,
     241, 20, 237, 194, 53, 124, 179, 251, 57, 139, 20, 7, 13, 232, 231, 170, 15, 136, 208, 88,
     111, 90, 123, 23, 112, 6, 196, 184, 127, 239, 1, 79, 236, 216, 143, 26, 45, 150, 226, 141,
     114, 27, 54, 61, 0], false⟩

def checkedGenesis : Replay :=
  genesisReplay checkedCrates registryRuntime regtestConfig regtestGenesis

theorem checkedGenesis_eq : checkedGenesis = genesisReplay
    { evalCrates with bech32Encode := checkedCrates.bech32Encode } registryRuntime regtestConfig
    evalGenesis := by
  rw [checkedGenesis, regtestGenesis_eq, checkedCrates_eq]

/-- The pool with the first transfer only. -/
def waitingPool : Mempool :=
  (Mempool.new CHAIN_ID_REGTEST).store (checkedCrates.txid firstTransfer) firstTransfer 0

/-- The node at the regtest genesis with the first transfer pending. -/
def waitingNode : Blockchain := .ofReplay regtestConfig checkedGenesis waitingPool

/-- The block with one transfer, mined on the regtest genesis. -/
def transferBlock (tx : Transaction) : Block :=
  minedBlock checkedCrates registryRuntime regtestConfig checkedGenesis 100 [unpaid "miner", tx]

theorem verify_waiting : verifyTransaction checkedCrates firstTransfer = .ok () := by
  rw [checkedCrates_eq]
  decide +kernel

theorem sound_waitingPool : waitingPool.Sound checkedCrates CHAIN_ID_REGTEST := by
  have hnew := Mempool.sound_new checkedCrates CHAIN_ID_REGTEST
  exact ⟨hnew.coherent.store (by simp [Mempool.new]) rfl 0,
    hnew.admitted.store verify_waiting rfl (by decide) 0, rfl⟩

theorem txs_waitingPool (htx : waitingPool.txs[id]? = some tx) :
    id = checkedCrates.txid firstTransfer ∧ tx = firstTransfer := by
  rw [waitingPool, Mempool.txs_store] at htx
  split at htx
  · rename_i hid
    exact ⟨hid, (Option.some.inj htx).symm⟩
  · simp [Mempool.new] at htx

theorem pending_waitingPool (s : String) : (waitingPool.pending s []).Perm
    (if firstTransfer.sender = s then [(checkedCrates.txid firstTransfer, firstTransfer)]
      else []) :=
  Mempool.pending_store (by simp [Mempool.new]) firstTransfer 0 s

theorem consecutive_waitingPool :
    waitingPool.Consecutive waitingNode.balances.accountOf := by
  intro s
  have hpending := pending_waitingPool s
  refine (hpending.map _).trans ?_
  rw [hpending.length_eq]
  split
  · rename_i hs
    have hnonce : (waitingNode.balances.accountOf deployer).nonce = 0 := by decide
    rw [← hs, show firstTransfer.sender = deployer from rfl, hnonce]
    exact List.Perm.refl _
  · exact List.Perm.refl _

theorem hasTip_regtestGenesis (crates : Crates) :
    (genesisReplay crates registryRuntime regtestConfig regtestGenesis).HasTip :=
  hasTip_regtestReplay

theorem commit_transferBlock {tx : Transaction}
    (hmine : mineable checkedCrates registryRuntime regtestConfig 0 checkedGenesis 100
      [unpaid "miner", tx] = true)
    (hwork : (cumulativeWork (mineOn checkedCrates registryRuntime regtestConfig checkedGenesis 100
      [unpaid "miner", tx]).done).isOk = true) :
    (Blockchain.commitBlock checkedCrates registryRuntime (transferBlock tx) 0).run waitingNode =
      .ok () (.ofReplay regtestConfig (mineOn checkedCrates registryRuntime regtestConfig
        checkedGenesis 100 [unpaid "miner", tx])
        (Blockchain.confirmTransactions checkedCrates waitingPool (transferBlock tx))) := by
  have hreplay : replayBlock checkedCrates registryRuntime regtestConfig 0 checkedGenesis
      (transferBlock tx) = .ok (mineOn checkedCrates registryRuntime regtestConfig checkedGenesis
        100 [unpaid "miner", tx]) :=
    replayBlock_mineOn _ _ _ _ _ _ nonzeroCrates_ne headerBlind_registryVm
      (hasTip_regtestGenesis checkedCrates) hmine
  exact @commitBlock_ofReplay _ _ _ _ _ _ _ _ waitingPool hreplay hwork

theorem toList_waitingPool : waitingPool.txs.toList.map Prod.snd = [firstTransfer] :=
  Mempool.toList_store_new _ _ _ _

theorem commit_leaves_pool_fresh_waiting : ∃ node',
    (Blockchain.commitBlock checkedCrates registryRuntime (transferBlock firstTransfer) 0).run
      waitingNode = .ok () node' ∧ node'.mempool.Fresh node'.balances.accountOf := by
  have hcommit := @commit_transferBlock firstTransfer (by
    rw [checkedGenesis_eq, checkedCrates_eq]
    decide +kernel) (by decide +kernel)
  refine ⟨_, hcommit, (commit_leaves_pool_fresh_iff addressCodec_checkedCrates (by decide)
    sound_waitingPool ?_ consecutive_waitingPool ?_ hcommit).mpr ?_⟩
  · intro id tx htx
    obtain ⟨-, rfl⟩ := txs_waitingPool htx
    exact hasKey_of_verify rfl verify_waiting
  · change ¬ Collision _ (([unpaid "miner", firstTransfer] ++ _).map _)
    rw [show waitingNode.mempool = waitingPool from rfl, toList_waitingPool]
    rintro ⟨x, hx, y, hy, hne, heq⟩
    have hinj : ∀ x ∈ [unpaid "miner", firstTransfer].map serializeTransactionSigned,
        ∀ y ∈ [unpaid "miner", firstTransfer].map serializeTransactionSigned,
        checkedCrates.blake3 x = checkedCrates.blake3 y → x = y := by
      rw [checkedCrates_eq]
      decide +kernel
    exact hne (hinj x (by simpa using hx) y (by simpa using hy) heq)
  · intro id tx htx _
    obtain ⟨rfl, rfl⟩ := txs_waitingPool htx
    exact ⟨firstTransfer, mem_cons_of_mem _ mem_cons_self, rfl, rfl⟩

/-- **Counterexample to commits leaving the pool fresh.**  The block has another transfer with
the nonce of the pending one, which stays pending. -/
theorem competing_transfer_leaves_stale : ∃ node',
    waitingNode.mempool.Consecutive waitingNode.balances.accountOf ∧
    (Blockchain.commitBlock checkedCrates registryRuntime (transferBlock competingTransfer) 0).run
      waitingNode = .ok () node' ∧ ¬ node'.mempool.Fresh node'.balances.accountOf := by
  have hcommit := @commit_transferBlock competingTransfer (by
    rw [checkedGenesis_eq, checkedCrates_eq]
    decide +kernel) (by decide +kernel)
  refine ⟨_, consecutive_waitingPool, hcommit, fun hfresh => ?_⟩
  have hunspent := hfresh.unspent (checkedCrates.txid firstTransfer) firstTransfer ?_
  · have hstale : ¬ ((StateCache.fromState (mineOn checkedCrates registryRuntime regtestConfig
        checkedGenesis 100 [unpaid "miner", competingTransfer]).state).accountOf
          firstTransfer.sender).nonce < firstTransfer.nonce := by
      rw [checkedGenesis_eq, checkedCrates_eq]
      decide
    exact hstale hunspent
  · change (Blockchain.confirmTransactions checkedCrates waitingPool _).txs[_]? = _
    rw [confirmTransactions_eq, Mempool.txs_foldl_remove, if_neg (by
      rw [transferBlock, checkedGenesis_eq, checkedCrates_eq]
      decide +kernel), waitingPool,
      Mempool.txs_store, if_pos rfl]

end Strangecoin
