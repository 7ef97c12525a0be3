import Strangecoin.Locality
import Strangecoin.LeafUpdates
import Strangecoin.ReferenceCrates

/-! # Blocks that stateless verification accepts

A block that `rootAfter` accepts has a witness, and the verifier runs on a state that
agrees with the full one on the touched addresses, so it reaches the same root.  What it
cannot see is the supply: its cap on the coinbase is computed from the **touched** balances
alone.
-/
namespace Strangecoin
open List Std
open SparseMerkleTrie Merkle

section
variable {crates : Crates} {chainId : UInt32} {block : Block} {s : State} {w : StateWitness}

/-! ### Inversion of the checks -/

variable {root : Digest}

theorem rootAfter_ok (hindex : 0 < block.index) :
    rootAfter crates s block chainId false = .ok root ↔
      ∃ s', applyBlock crates s block chainId = .ok s' ∧
        computeStateRoot crates s'.balances = block.stateRoot ∧
        block.stateRoot ≠ zeroDigest ∧ root = block.stateRoot := by
  have hne : block.index ≠ 0 := UInt64.pos_iff_ne_zero.mp hindex
  have hcheck : ∀ computed, checkStateRoot block false computed = .ok root ↔
      computed = block.stateRoot ∧ block.stateRoot ≠ zeroDigest ∧ root = block.stateRoot := by
    intro computed
    unfold checkStateRoot
    by_cases hzero : block.stateRoot = zeroDigest
    · simp [hzero, hne]
    · by_cases heq : block.stateRoot = computed
      · subst heq
        simp [hzero, eq_comm]
      · simp [hzero, heq, Ne.symm heq]
  unfold rootAfter
  simp only [bind_eq_ok, hcheck]

theorem checkPostStateRoot_ok {computed : Digest} (hindex : 0 < block.index) :
    checkPostStateRoot block computed = .ok () ↔ block.stateRoot = computed := by
  have hne : block.index ≠ 0 := UInt64.pos_iff_ne_zero.mp hindex
  simp [checkPostStateRoot, hne]

/-- **Inversion of the verifier.** -/
theorem verifyBlockStateless_ok (hindex : 0 < block.index) :
    verifyBlockStateless crates root block chainId w = .ok () ↔
      w.preStateRoot = root ∧
      (∀ (a : String) (p : AccountProof), w.proofs[a]? = some p →
        verifyProof crates.blake3 root a p.account p.proof = true) ∧
      (∀ a ∈ collectTouchedAddresses block, a ∈ w.proofs) ∧
      ∃ post, applyBlock crates w.reconstructed block chainId = .ok post ∧
        rootAfterUpdates crates.blake3 root (w.updates post) = .ok block.stateRoot := by
  have hproofs : (∀ e ∈ w.proofs.toList,
        verifyProof crates.blake3 root e.1 e.2.account e.2.proof = true) ↔
      ∀ (a : String) (p : AccountProof), w.proofs[a]? = some p →
        verifyProof crates.blake3 root a p.account p.proof = true := by
    constructor
    · exact fun h a p hp => h (a, p) (ExtTreeMap.mem_toList_iff_getElem?_eq_some.mpr hp)
    · exact fun h e he => h e.1 e.2 (ExtTreeMap.mem_toList_iff_getElem?_eq_some.mp he)
  unfold verifyBlockStateless
  simp only [bind_eq_ok, guardWith_eq_ok, forM_ok, checkPostStateRoot_ok hindex, hproofs]
  constructor
  · rintro ⟨_, hroot, _, hproofs, _, hcover, post, hpost, computed, hcomputed, rfl⟩
    exact ⟨hroot, hproofs, hcover, post, hpost, hcomputed⟩
  · rintro ⟨hroot, hproofs, hcover, post, hpost, hcomputed⟩
    exact ⟨(), hroot, (), hproofs, (), hcover, post, hpost, _, hcomputed, rfl⟩

/-! ### The partial state -/

theorem get?_reconstructed (w : StateWitness) (a : String) :
    w.reconstructed.balances[a]? = w.proofs[a]?.map AccountProof.account :=
  ExtTreeMap.getElem?_map

variable {a : String}

theorem account_reconstructed {p : AccountProof} (h : w.proofs[a]? = some p) :
    w.reconstructed.account a = p.account := by
  rw [State.account, get?_reconstructed, h]
  rfl

theorem addresses_updates (w : StateWitness) (post : State) :
    (w.updates post).map LeafUpdate.address = w.proofs.keys := by
  rw [StateWitness.updates, map_map, ← ExtTreeMap.map_fst_toList_eq_keys]
  rfl

/-- The leaf update for a proven account. -/
def AccountProof.update (p : AccountProof) (a : String) (post : Account) : LeafUpdate :=
  ⟨a, p.account, p.proof, post⟩

theorem mem_updates {post : State} {u : LeafUpdate} :
    u ∈ w.updates post ↔ ∃ (a : String) (p : AccountProof), w.proofs[a]? = some p ∧
      u = p.update a (post.account a) := by
  rw [StateWitness.updates, mem_map]
  constructor
  · rintro ⟨e, he, rfl⟩
    exact ⟨e.1, e.2, ExtTreeMap.mem_toList_iff_getElem?_eq_some.mp he, rfl⟩
  · rintro ⟨a, p, hp, rfl⟩
    exact ⟨(a, p), ExtTreeMap.mem_toList_iff_getElem?_eq_some.mpr hp, rfl⟩

/-- **The verifier reaches the root of the full state.**  The proofs are anchored in the
tree of the full state, and the partial state agrees with it on the touched
addresses. -/
theorem rootAfterUpdates_reconstructed {s' t' : State} (hindex : 0 < block.index)
    (hkeys : Set.InjOn (accountKeyHash crates.blake3) {a | a ∈ s.balances ∨ a ∈ w.proofs})
    (hanchored : ∀ (a : String) (p : AccountProof), w.proofs[a]? = some p → ∀ post,
      Anchored crates.blake3 (computeStateRoot crates s.balances)
        (leafOf (sortByKey (accountLeaves crates.blake3 s.balances))) (p.update a post))
    (hcover : ∀ a ∈ collectTouchedAddresses block, a ∈ w.proofs)
    (hagree : AgreeOn (collectTouchedAddresses block) s w.reconstructed)
    (hs' : applyBlock crates s block chainId = .ok s')
    (ht' : applyBlock crates w.reconstructed block chainId = .ok t') :
    rootAfterUpdates crates.blake3 (computeStateRoot crates s.balances) (w.updates t') =
      .ok (computeStateRoot crates s'.balances) := by
  obtain ⟨-, hframe, hlocal⟩ := applyBlock_local hindex hs'
  obtain ⟨-, hframe', -⟩ := applyBlock_local hindex ht'
  have hagree' := (hlocal _ hagree).2 t' ht'
  refine rootAfterUpdates_of_frame crates.blake3 ?_ ?_ ?_ ?_
  · rw [addresses_updates]
    simpa only [ExtTreeMap.mem_keys] using hkeys
  · intro u hu
    obtain ⟨a, p, hp, rfl⟩ := mem_updates.mp hu
    exact hanchored a p hp _
  · intro u hu
    obtain ⟨a, p, hp, rfl⟩ := mem_updates.mp hu
    change leafHashFor _ _ (t'.account a) = leafHashFor _ _ (s'.account a)
    by_cases ha : a ∈ collectTouchedAddresses block
    · rw [hagree' a ha]
    · -- an extra account of the witness: its leaf is the one of the full state
      have hmem : a ∈ w.proofs := ExtTreeMap.mem_iff_isSome_getElem?.mpr (by rw [hp]; rfl)
      have hleaf := (hanchored a p hp p.account).pre_leaf
      change leafHashFor _ _ p.account = leafOf _ (bits (accountKeyHash _ a)) at hleaf
      rw [leafOf_accountLeaves crates.blake3 (fun b hb h => hkeys (.inl hb) (.inr hmem) h)] at hleaf
      rw [State.account, hframe' a ha, State.account, hframe a ha, get?_reconstructed, hp]
      exact hleaf
  · intro a ha
    rw [addresses_updates, ExtTreeMap.mem_keys] at ha
    exact hframe a (fun h => ha (hcover a h))

/-! ### Building a witness -/

variable {account : Account} {trie : SparseMerkleTrie}

theorem proveAccount_ok {p : AccountProof} (h : proveAccount crates trie a account = .ok p) :
    trie.prove crates.blake3 a account = .ok p.proof ∧ p.account = account := by
  obtain ⟨proof, hproof, hp⟩ := bind_eq_ok.mp h
  cases account with
  | eoa account =>
    obtain rfl := Except.ok.inj hp
    exact ⟨hproof, rfl⟩
  | contract account =>
    obtain rfl := Except.ok.inj hp
    exact ⟨hproof, rfl⟩

theorem proveAccount_of_prove {proof : List Digest}
    (h : trie.prove crates.blake3 a account = .ok proof) :
    ∃ p, proveAccount crates trie a account = .ok p :=
  ⟨_, bind_eq_ok.mpr ⟨proof, h, rfl⟩⟩

variable {addrs : List String}

/-- The loop of `buildWitness` proves every address it visits. -/
theorem foldlM_addProof {proofs : HashMap String AccountProof}
    (h : ∀ a ∈ addrs, ∃ proof, trie.prove crates.blake3 a (s.account a) = .ok proof) :
    ∃ proofs', addrs.foldlM (addProof crates s trie) proofs = .ok proofs' ∧
      (∀ a ∈ addrs, ∃ p, proofs'[a]? = some p ∧ proveAccount crates trie a (s.account a) = .ok p) ∧
      ∀ a, a ∉ addrs → proofs'[a]? = proofs[a]? := by
  induction addrs generalizing proofs with
  | nil => exact ⟨proofs, rfl, by simp, fun _ _ => rfl⟩
  | cons addr addrs ih =>
    obtain ⟨proof, hproof⟩ := h addr mem_cons_self
    obtain ⟨p, hp⟩ := proveAccount_of_prove hproof
    obtain ⟨proofs', hrun, hin, hout⟩ := @ih (proofs.insert addr p)
      (fun a ha => h a (mem_cons_of_mem _ ha))
    refine ⟨proofs', foldlM_cons_ok.mpr ⟨_, bind_eq_ok.mpr ⟨p, hp, rfl⟩, hrun⟩, ?_, ?_⟩
    · intro a ha
      by_cases hlater : a ∈ addrs
      · exact hin a hlater
      · obtain rfl : a = addr := (mem_cons.mp ha).resolve_right hlater
        exact ⟨p, by rw [hout a hlater]; simp, hp⟩
    · intro a ha
      rw [mem_cons, not_or] at ha
      rw [hout a ha.2, HashMap.get?_insert, if_neg ha.1]

/-- What `buildWitness` returns: the accounts of the touched addresses with their
proofs. -/
structure BuiltFrom (crates : Crates) (s : State) (block : Block) (w : StateWitness) : Prop where
  root : w.preStateRoot = computeStateRoot crates s.balances
  mem : ∀ a, a ∈ w.proofs ↔ a ∈ collectTouchedAddresses block
  account : ∀ (a : String) (p : AccountProof), w.proofs[a]? = some p → p.account = s.account a
  anchored : ∀ (a : String) (p : AccountProof), w.proofs[a]? = some p → ∀ post,
    Anchored crates.blake3 (computeStateRoot crates s.balances)
      (leafOf (sortByKey (accountLeaves crates.blake3 s.balances))) (p.update a post)

/-- **A witness is built** whenever no two addresses have one key hash. -/
theorem buildWitness_ok
    (hkeys : Set.InjOn (accountKeyHash crates.blake3)
      {a | a ∈ s.balances ∨ a ∈ collectTouchedAddresses block}) :
    ∃ w, buildWitness crates s block = .ok w ∧ BuiltFrom crates s block w := by
  have hold : Set.InjOn (accountKeyHash crates.blake3) {a | a ∈ s.balances} :=
    hkeys.mono (fun a ha => .inl ha)
  obtain ⟨proofs, hrun, hin, hout⟩ := @foldlM_addProof crates s
    (buildTrie crates.blake3 s.balances) (collectTouchedAddresses block) ∅
    (fun a ha => prove_buildTrie crates.blake3 (fun b hb h => hkeys (.inl hb) (.inr ha) h) hold)
  have hmem : ∀ a, a ∈ proofs ↔ a ∈ collectTouchedAddresses block := by
    intro a
    rw [ExtTreeMap.mem_iff_isSome_getElem?]
    by_cases ha : a ∈ collectTouchedAddresses block
    · obtain ⟨p, hp, -⟩ := hin a ha
      simp [hp, ha]
    · simp [hout a ha, ha]
  have hproved : ∀ (a : String) p, proofs[a]? = some p →
      proveAccount crates (buildTrie crates.blake3 s.balances) a (s.account a) = .ok p := by
    intro a p hp
    obtain ⟨q, hq, hproved⟩ := hin a ((hmem a).mp
      (ExtTreeMap.mem_iff_isSome_getElem?.mpr (by rw [hp]; rfl)))
    obtain rfl : p = q := Option.some.inj (hp.symm.trans hq)
    exact hproved
  refine ⟨⟨_, proofs⟩, bind_eq_ok.mpr ⟨proofs, hrun, rfl⟩, rfl, hmem, ?_, ?_⟩
  · exact fun a p hp => (proveAccount_ok (hproved a p hp)).2
  · intro a p hp post
    obtain ⟨hproof, haccount⟩ := proveAccount_ok (hproved a p hp)
    refine anchored_of_prove crates.blake3 hold ?_
    change (buildTrie crates.blake3 s.balances).prove crates.blake3 a p.account = .ok p.proof
    rw [haccount]
    exact hproof

/-! ### The supply of the touched accounts -/

theorem nodup_foldl_pushAddress {addresses : List String} (h : addresses.Nodup) :
    (addrs.foldl pushAddress addresses).Nodup := by
  induction addrs generalizing addresses with
  | nil => exact h
  | cons addr addrs ih =>
    refine ih ?_
    rw [pushAddress]
    split
    · exact h
    · rename_i hnew
      rw [← concat_eq_append]
      exact List.Nodup.concat (by simpa using hnew) h

theorem nodup_collectTouchedAddresses (block : Block) : (collectTouchedAddresses block).Nodup :=
  List.foldlRecOn block.transactions _ nodup_nil
    fun _ h _ _ => nodup_foldl_pushAddress h

/-- The sum of the touched balances, modulo `2 ^ 64` as the source adds. -/
def touchedSupply (s : State) (block : Block) : UInt64 :=
  ((collectTouchedAddresses block).map s.getBalance).sum

theorem totalSupply_reconstructed (h : BuiltFrom crates s block w) :
    w.reconstructed.totalSupply = touchedSupply s block := by
  have hlist : w.reconstructed.balances.toList = w.proofs.toList.map fun e => (e.1, e.2.account) :=
    ExtTreeMap.toList_map
  have hbalances : w.proofs.toList.map (fun e => e.2.account.balance) =
      w.proofs.keys.map s.getBalance := by
    rw [← ExtTreeMap.map_fst_toList_eq_keys, map_map]
    refine map_congr_left fun e he => ?_
    rw [h.account e.1 e.2 (ExtTreeMap.mem_toList_iff_getElem?_eq_some.mp he)]
    exact (State.getBalance_eq s e.1).symm
  have hperm : w.proofs.keys.Perm (collectTouchedAddresses block) := by
    refine (perm_ext_iff_of_nodup ExtTreeMap.nodup_keys
      (nodup_collectTouchedAddresses block)).mpr fun a => ?_
    rw [ExtTreeMap.mem_keys, h.mem]
  rw [State.totalSupply, hlist, map_map]
  change (w.proofs.toList.map fun e => e.2.account.balance).sum = _
  rw [hbalances]
  exact (hperm.map s.getBalance).foldr_op_eq

/-! ### Completeness -/

/-- The built witness describes the touched part of the state. -/
theorem BuiltFrom.agree (h : BuiltFrom crates s block w) :
    AgreeOn (collectTouchedAddresses block) s w.reconstructed := by
  intro a ha
  obtain ⟨p, hp⟩ := Option.isSome_iff_exists.mp
    (ExtTreeMap.mem_iff_isSome_getElem?.mp ((h.mem a).mpr ha))
  rw [account_reconstructed hp, h.account a p hp]

/-- A built witness is accepted when the coinbase is within the reward for the
touched supply. -/
theorem BuiltFrom.verify_iff (h : BuiltFrom crates s block w) (hindex : 0 < block.index)
    (hkeys : Set.InjOn (accountKeyHash crates.blake3)
      {a | a ∈ s.balances ∨ a ∈ collectTouchedAddresses block})
    (hok : rootAfter crates s block chainId false = .ok root) :
    verifyBlockStateless crates (computeStateRoot crates s.balances) block chainId w = .ok () ↔
      CoinbaseWithin block chainId (touchedSupply s block) := by
  obtain ⟨s', hs', hroot, -, rfl⟩ := (rootAfter_ok hindex).mp hok
  obtain ⟨-, -, hlocal⟩ := applyBlock_local hindex hs'
  rw [← totalSupply_reconstructed h, ← (hlocal _ h.agree).1, verifyBlockStateless_ok hindex]
  constructor
  · rintro ⟨-, -, -, post, hpost, -⟩
    exact ⟨post, hpost⟩
  · rintro ⟨post, hpost⟩
    refine ⟨h.root, fun a p hp => (h.anchored a p hp p.account).accepted,
      fun a ha => (h.mem a).mpr ha, post, hpost, ?_⟩
    rw [← hroot]
    refine rootAfterUpdates_reconstructed hindex ?_ h.anchored (fun a ha => (h.mem a).mpr ha)
      h.agree hs' hpost
    simpa only [h.mem] using hkeys

/-- **Stateless verification is complete up to the cap.**  For a block that `rootAfter`
accepts, a witness can be built and is accepted exactly when the first coinbase is
within the reward computed from the touched balances. -/
theorem verify_built_iff_coinbaseWithin (crates : Crates) (chainId : UInt32) (s : State)
    (block : Block) (root : Digest) (hindex : 0 < block.index)
    (hkeys : Set.InjOn (accountKeyHash crates.blake3)
      {a | a ∈ s.balances ∨ a ∈ collectTouchedAddresses block})
    (hok : rootAfter crates s block chainId false = .ok root) :
    (∃ w, buildWitness crates s block = .ok w ∧
      verifyBlockStateless crates (computeStateRoot crates s.balances) block chainId w = .ok ()) ↔
    CoinbaseWithin block chainId (touchedSupply s block) := by
  obtain ⟨w, hw, hbuilt⟩ := @buildWitness_ok crates block s hkeys
  rw [← hbuilt.verify_iff hindex hkeys hok]
  constructor
  · rintro ⟨w', hw', hverify⟩
    obtain rfl : w = w' := Except.ok.inj (hw.symm.trans hw')
    exact hverify
  · exact fun hverify => ⟨w, hw, hverify⟩

end

/-! ### Blocks that pay their miner -/

section
variable {crates : Crates} {index : UInt64} {chainId : UInt32} {miner : String} {amount b : UInt64}
  {root : Digest} {s : State}

theorem collectTouchedAddresses_rewarding :
    collectTouchedAddresses (.rewarding index chainId miner amount root) = [miner] := rfl

theorem touchedSupply_rewarding :
    touchedSupply s (.rewarding index chainId miner amount root) = s.getBalance miner := by
  simp [touchedSupply, collectTouchedAddresses_rewarding]

theorem coinbaseWithin_rewarding {supply : UInt64} :
    CoinbaseWithin (.rewarding index chainId miner amount root) chainId supply ↔
      amount ≤ blockRewardAtHeightForChain index supply chainId := by
  constructor
  · exact fun h => h _ 0 rfl
  · rintro h cb i hcb
    obtain ⟨htx, -⟩ := Prod.mk.inj (Option.some.inj hcb)
    obtain rfl := Transaction.transfer.inj htx
    exact h

theorem applyBlock_rewarding (hindex : 0 < index)
    (hcap : amount ≤ blockRewardAtHeightForChain index s.totalSupply chainId)
    (hadd : checkedAdd (s.getBalance miner) amount = some b) :
    ∃ s', applyBlock crates s (.rewarding index chainId miner amount root) chainId = .ok s' ∧
      s'.balances = (s.setBalance miner b).balances := by
  have hcredit : State.credit { s with receipts := [] } miner amount =
      .ok (State.setBalance { s with receipts := [] } miner b) :=
    bind_eq_ok.mpr ⟨b, okOr_eq_ok.mpr hadd, rfl⟩
  refine ⟨_, bind_eq_ok.mpr ⟨_, (applyBlockInner_ok hindex).mpr
    ⟨?_, .reward chainId miner amount, 0, _, _, rfl, hcap, hcredit, rfl, rfl⟩, rfl⟩, ?_⟩
  · intro tx htx
    obtain rfl := mem_singleton.mp htx
    rfl
  · change (State.setBalance { s with receipts := [] } miner b).balances = _
    refine HashMap.ext_get? fun a => ?_
    rw [State.setBalance_eq, State.setBalance_eq, State.get?_setAccount, State.get?_setAccount]
    rfl

theorem computeRoot_ne {blake3 : List UInt8 → Digest} {d : Digest} (h : ∀ x, blake3 x ≠ d)
    (accounts : HashMap String Account) : computeRoot blake3 accounts ≠ d := by
  rw [computeRoot_eq]
  exact h _

/-- The block that commits to the root after it is accepted. -/
theorem exists_rootAfter_rewarding (hindex : 0 < index)
    (hcap : amount ≤ blockRewardAtHeightForChain index s.totalSupply chainId)
    (hadd : checkedAdd (s.getBalance miner) amount = some b)
    (hzero : ∀ x, crates.blake3 x ≠ zeroDigest) :
    ∃ root, rootAfter crates s (.rewarding index chainId miner amount root) chainId false =
      .ok root := by
  let root := computeStateRoot crates (s.setBalance miner b).balances
  obtain ⟨s', hs', hbalances⟩ := @applyBlock_rewarding crates index chainId miner amount b root s
    hindex hcap hadd
  exact ⟨root, (rootAfter_ok hindex).mpr
    ⟨s', hs', by rw [hbalances]; rfl, computeRoot_ne hzero _, rfl⟩⟩

end

theorem mem_funded_one {a holder : String} {b : UInt64}
    (h : a ∈ (State.funded [(holder, b)]).balances) : a = holder := by
  rw [ExtTreeMap.mem_iff_isSome_getElem?] at h
  change ((State.new.setBalance holder b).balances[a]?).isSome at h
  rw [State.setBalance_eq, State.get?_setAccount] at h
  by_contra hne
  simp [hne, State.new] at h

/-- The keys of a holder and of the miner who is paid. -/
theorem injOn_holder_miner {blake3 : List UInt8 → Digest} {holder miner : String} {b : UInt64}
    (hne : accountKeyHash blake3 holder ≠ accountKeyHash blake3 miner) :
    Set.InjOn (accountKeyHash blake3)
      {a | a ∈ (State.funded [(holder, b)]).balances ∨ a ∈ [miner]} := by
  refine (Set.injOn_pair.mpr (fun h => absurd h hne)).mono ?_
  rintro a (ha | ha)
  · exact .inl (mem_funded_one ha)
  · exact .inr (mem_singleton.mp ha)

/-- A miner's first reward on mainnet, beside one other holder. -/
theorem first_reward : ∃ s block root, s = State.funded [("alice", 10)] ∧
    block = Block.rewarding 1 CHAIN_ID_MAINNET "miner" 50 root ∧ 0 < block.index ∧
    rootAfter nonzeroCrates s block CHAIN_ID_MAINNET false = .ok root ∧
    Set.InjOn (accountKeyHash nonzeroCrates.blake3)
      {a | a ∈ s.balances ∨ a ∈ collectTouchedAddresses block} := by
  obtain ⟨root, hok⟩ := @exists_rootAfter_rewarding nonzeroCrates 1 CHAIN_ID_MAINNET "miner" 50 50
    (.funded [("alice", 10)]) (by decide) (by decide) (by decide) nonzeroCrates_ne
  have hne : accountKeyHash nonzeroCrates.blake3 "alice" ≠
      accountKeyHash nonzeroCrates.blake3 "miner" := by
    decide +kernel
  exact ⟨_, _, root, rfl, rfl, show (0 : UInt64) < 1 by decide, hok, injOn_holder_miner hne⟩

/-- A miner's first reward on mainnet. -/
theorem verify_built_first_reward :
    ∃ (s : State) (block : Block) (root : Digest) (w : StateWitness),
      rootAfter nonzeroCrates s block CHAIN_ID_MAINNET false = .ok root ∧
      buildWitness nonzeroCrates s block = .ok w ∧
      verifyBlockStateless nonzeroCrates (computeStateRoot nonzeroCrates s.balances) block
        CHAIN_ID_MAINNET w = .ok () := by
  obtain ⟨s, block, root, rfl, rfl, hindex, hok, hkeys⟩ := first_reward
  obtain ⟨w, hw, hverify⟩ := (verify_built_iff_coinbaseWithin nonzeroCrates CHAIN_ID_MAINNET _ _
    root hindex hkeys hok).mpr (coinbaseWithin_rewarding.mpr
      (by rw [touchedSupply_rewarding]; decide))
  exact ⟨_, _, root, w, hok, hw, hverify⟩

/-- After the last halving the reward is the tail emission of the whole supply.  The
verifier sees the miner's empty account only and allows nothing. -/
theorem verify_refuses_tail_reward :
    ¬ ∀ (s : State) (block : Block) (root : Digest),
      (∀ (a : String) account, s.balances[a]? = some account → account.isEmpty = false) →
      (∀ tx ∈ block.transactions, ∃ t, tx = .transfer t) → 0 < block.index →
      rootAfter nonzeroCrates s block CHAIN_ID_MAINNET false = .ok root →
      ∃ w, buildWitness nonzeroCrates s block = .ok w ∧
        verifyBlockStateless nonzeroCrates (computeStateRoot nonzeroCrates s.balances) block
          CHAIN_ID_MAINNET w = .ok () := by
  intro h
  let s : State := .funded [("holder", 2100000000000000)]
  obtain ⟨root, hok⟩ := @exists_rootAfter_rewarding nonzeroCrates 13440000 CHAIN_ID_MAINNET "miner"
    239726027 239726027 s (by decide) (by decide) (by decide) nonzeroCrates_ne
  let block := Block.rewarding 13440000 CHAIN_ID_MAINNET "miner" 239726027 root
  have hindex : 0 < block.index := show (0 : UInt64) < 13440000 by decide
  have hne : accountKeyHash nonzeroCrates.blake3 "holder" ≠
      accountKeyHash nonzeroCrates.blake3 "miner" := by
    decide +kernel
  have hkeys : Set.InjOn (accountKeyHash nonzeroCrates.blake3)
      {a | a ∈ s.balances ∨ a ∈ collectTouchedAddresses block} :=
    injOn_holder_miner hne
  obtain ⟨w, hw, hverify⟩ := h s block root (State.canonical_funded _).nonempty
    (fun tx htx => ⟨_, mem_singleton.mp htx⟩) hindex hok
  obtain ⟨w', hw', hbuilt⟩ := buildWitness_ok hkeys
  obtain rfl : w = w' := Except.ok.inj (hw.symm.trans hw')
  have hcap := coinbaseWithin_rewarding.mp ((hbuilt.verify_iff hindex hkeys hok).mp hverify)
  rw [touchedSupply_rewarding] at hcap
  exact absurd hcap (by decide)

end Strangecoin
