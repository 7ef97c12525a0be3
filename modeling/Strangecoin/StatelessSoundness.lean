import Strangecoin.StatelessCompleteness
import Strangecoin.Emission

/-! # Blocks that stateless verification should refuse

The verifier trusts nothing but the root.  Accepted proofs tie every account of a
witness to the full state **up to emptiness**: an absent account and a contract
record of all zeros have the same leaf (`account_of_accepted`).  The verifier rebuilds
the record as the witness has it, and a coinbase or a payment to that address then
leaves a contract where the full state has an externally owned account.
-/
namespace Strangecoin
open List Std
open SparseMerkleTrie Merkle

/-- The contract record of all zeros, which is empty. -/
def Account.phantom : Account := .contract ⟨zeroDigest, zeroDigest, 0, 0⟩

theorem Account.eq_phantom_of_isEmpty {a : Account} (h : a.isEmpty = true)
    (hcontract : a.isContract = true) : a = phantom := by
  cases a with
  | eoa a => simp [isContract] at hcontract
  | contract a =>
    cases a
    simp_all [isEmpty, phantom]

/-- Two empty accounts are the same when both are the phantom or neither is. -/
theorem Account.eq_of_isEmpty {a b : Account} (ha : a.isEmpty = true) (hb : b.isEmpty = true)
    (h : a = phantom ↔ b = phantom) : a = b := by
  cases hcontract : a.isContract with
  | true =>
    have hphantom := eq_phantom_of_isEmpty ha hcontract
    exact hphantom.trans (h.mp hphantom).symm
  | false =>
    have hdefault := eq_default_of_isEmpty ha hcontract
    have hb' : b.isContract = false := by
      by_contra hc
      have := h.mpr (eq_phantom_of_isEmpty hb (by simpa using hc))
      rw [this] at hcontract
      cases hcontract
    exact hdefault.trans (eq_default_of_isEmpty hb hb').symm

/-! ### Accepted proofs -/

section
variable {blake3 : List UInt8 → Digest}

/-- An accepted proof against the root of a map is anchored in the map's tree, unless
strings collide. -/
theorem anchored_of_verifyProof {accounts : HashMap String Account} {u : LeafUpdate}
    (hcol : ¬ Collision blake3 (verifyPreimages blake3 u.address u.pre u.proof ++
      rootPreimages blake3 (accountLeaves blake3 accounts)))
    (h : verifyProof blake3 (computeRoot blake3 accounts) u.address u.pre u.proof = true) :
    Anchored blake3 (computeRoot blake3 accounts)
      (leafOf (sortByKey (accountLeaves blake3 accounts))) u := by
  obtain ⟨hlen, hfold⟩ := (verifyProof_iff blake3).mp h
  rw [computeRoot_eq, ← hashRange_sortByKey] at hfold
  rcases foldPath_sound blake3 hlen hfold with hpairs | ⟨hleaf, hproof⟩
  · refine absurd (hpairs.mono ?_) hcol
    intro x hx
    rcases mem_append.mp hx with hx | hx
    · exact mem_append_left _ (mem_cons_of_mem _ (mem_append_right _ hx))
    · exact mem_append_right _ hx
  · have hslice : IsSlice 256 ((bits (accountKeyHash blake3 u.address)).take (256 - 256))
        (sortByKey (accountLeaves blake3 accounts)) := isSlice_sortByKey _
    exact ⟨h, hleaf, hproof.trans (collectSiblings_eq_siblings blake3 hslice)⟩

/-- Two accounts with one leaf are the same, or both are empty. -/
theorem account_of_leaf {key : Digest} {a b : Account} {hashed : List (List UInt8)}
    (hcol : ¬ Collision blake3 hashed)
    (ha : a.isEmpty = false → leafPreimage key a ∈ hashed ∧ blake3 (leafPreimage key a) ≠ EMPTY_HASH)
    (hb : b.isEmpty = false → leafPreimage key b ∈ hashed ∧ blake3 (leafPreimage key b) ≠ EMPTY_HASH)
    (h : leafHashFor blake3 key a = leafHashFor blake3 key b) :
    a = b ∨ a.isEmpty = true ∧ b.isEmpty = true := by
  unfold leafHashFor accountLeafHash at h
  cases hea : a.isEmpty with
  | true =>
    cases heb : b.isEmpty with
    | true => exact .inr ⟨rfl, rfl⟩
    | false =>
      simp only [hea, heb, if_true] at h
      exact absurd h.symm (hb heb).2
  | false =>
    cases heb : b.isEmpty with
    | true =>
      simp only [hea, heb, if_true] at h
      exact absurd h (ha hea).2
    | false =>
      simp only [hea, heb] at h
      exact .inl (leafPreimage_inj (eq_of_not_collision hcol (ha hea).1 (hb heb).1 h))

end

/-- The strings hashed for the root of the full state and for the proofs of a witness. -/
def statelessPreimages (blake3 : List UInt8 → Digest) (s : State) (w : StateWitness) :
    List (List UInt8) :=
  insertPreimages blake3 s.balances.toList ++
    rootPreimages blake3 (accountLeaves blake3 s.balances) ++
    w.proofs.toList.flatMap fun e => verifyPreimages blake3 e.1 e.2.account e.2.proof

section
variable {crates : Crates} {chainId : UInt32} {block : Block} {s : State} {w : StateWitness}

theorem verifyPreimages_mem {a : String} {p : AccountProof} (hp : w.proofs[a]? = some p)
    {x : List UInt8} (hx : x ∈ verifyPreimages crates.blake3 a p.account p.proof) :
    x ∈ statelessPreimages crates.blake3 s w :=
  mem_append_right _ (mem_flatMap.mpr
    ⟨(a, p), ExtTreeMap.mem_toList_iff_getElem?_eq_some.mpr hp, hx⟩)

theorem insertPreimages_mem {a : String} {account : Account} (ha : s.balances[a]? = some account)
    {x : List UInt8} (hx : x = asBytes a ∨ x ∈ leafPreimages crates.blake3 a account) :
    x ∈ statelessPreimages crates.blake3 s w := by
  refine mem_append_left _ (mem_append_left _ (mem_flatMap.mpr
    ⟨(a, account), ExtTreeMap.mem_toList_iff_getElem?_eq_some.mpr ha, ?_⟩))
  exact mem_cons.mpr hx

/-- Without a collision, addresses have different key hashes. -/
theorem injOn_of_not_collision (hcol : ¬ Collision crates.blake3 (statelessPreimages crates.blake3 s w)) :
    Set.InjOn (accountKeyHash crates.blake3) {a | a ∈ s.balances ∨ a ∈ w.proofs} := by
  have hmem : ∀ a, a ∈ s.balances ∨ a ∈ w.proofs →
      asBytes a ∈ statelessPreimages crates.blake3 s w := by
    rintro a (ha | ha)
    · obtain ⟨account, haccount⟩ := Option.isSome_iff_exists.mp
        (ExtTreeMap.mem_iff_isSome_getElem?.mp ha)
      exact insertPreimages_mem haccount (.inl rfl)
    · obtain ⟨p, hp⟩ := Option.isSome_iff_exists.mp (ExtTreeMap.mem_iff_isSome_getElem?.mp ha)
      exact verifyPreimages_mem hp mem_cons_self
  intro a ha b hb h
  exact asBytes_injective (eq_of_not_collision hcol (hmem a ha) (hmem b hb) h)

variable (crates s w) in
/-- No leaf of the state or of the witness hashes to the constant of an empty slot. -/
def LeavesNotEmpty : Prop :=
  ∀ (a : String) (p : AccountProof), w.proofs[a]? = some p →
    EmptyHashUnreached crates.blake3 s.balances.toList a p.account

/-- **An accepted account is that of the full state, up to emptiness.** -/
theorem account_of_accepted
    (hcol : ¬ Collision crates.blake3 (statelessPreimages crates.blake3 s w))
    (hempty : LeavesNotEmpty crates s w) {a : String} {p : AccountProof}
    (hp : w.proofs[a]? = some p)
    (hanchored : Anchored crates.blake3 (computeStateRoot crates s.balances)
      (leafOf (sortByKey (accountLeaves crates.blake3 s.balances))) (p.update a p.account)) :
    p.account = s.account a ∨ p.account.isEmpty = true ∧ (s.account a).isEmpty = true := by
  have hmem : a ∈ w.proofs := ExtTreeMap.mem_iff_isSome_getElem?.mpr (by rw [hp]; rfl)
  have hleaf := hanchored.pre_leaf
  change leafHashFor _ _ p.account = leafOf _ (bits (accountKeyHash _ a)) at hleaf
  rw [leafOf_accountLeaves crates.blake3
    (fun b hb h => injOn_of_not_collision hcol (.inl hb) (.inr hmem) h)] at hleaf
  refine account_of_leaf hcol ?_ ?_ hleaf
  · intro hne
    have hx : leafPreimage (accountKeyHash crates.blake3 a) p.account ∈
        leafPreimages crates.blake3 a p.account := by
      simp [leafPreimages, hne]
    exact ⟨verifyPreimages_mem hp (mem_cons_of_mem _ (mem_append_left _ hx)),
      hempty a p hp _ (.inl hx)⟩
  · intro hne
    cases haccount : s.balances[a]? with
    | none => simp [State.account, haccount] at hne
    | some account =>
      obtain rfl : s.account a = account := by rw [State.account, haccount]; rfl
      have hx : leafPreimage (accountKeyHash crates.blake3 a) (s.account a) ∈
          leafPreimages crates.blake3 a (s.account a) := by
        simp [leafPreimages, hne]
      refine ⟨insertPreimages_mem haccount (.inr hx), hempty a p hp _ (.inr ?_)⟩
      exact mem_flatMap.mpr
        ⟨(a, s.account a), ExtTreeMap.mem_toList_iff_getElem?_eq_some.mpr haccount, hx⟩

/-! ### The supply the verifier sees -/

theorem exactSupply_reconstructed_le
    (h : ∀ (a : String) (p : AccountProof), w.proofs[a]? = some p →
      p.account.balance = s.getBalance a) :
    w.reconstructed.exactSupply ≤ s.exactSupply := by
  refine HashMap.weight_mono fun a => ?_
  rw [State.weightAt_balance, State.weightAt_balance]
  cases hp : w.proofs[a]? with
  | none =>
    rw [State.getBalance, get?_reconstructed, hp]
    simp
  | some p =>
    rw [State.getBalance_eq, account_reconstructed hp, h a p hp]

/-! ### Soundness -/

variable (block s w) in
/-- At touched addresses the witness has the all-zero contract exactly where the state
has it. -/
def PhantomsAgree : Prop :=
  ∀ a ∈ collectTouchedAddresses block, ∀ p : AccountProof, w.proofs[a]? = some p →
    (p.account = Account.phantom ↔ s.account a = Account.phantom)

/-- **Stateless verification is sound, phantom contracts apart.**  Unless strings
collide, a block that the verifier accepts is accepted by `rootAfter` exactly when it
commits to a root other than zero and its coinbase is within the reward for the full
supply; on regtest and while the tail emission does not overflow, it is. -/
theorem rootAfter_of_verify (crates : Crates) (chainId : UInt32) (s : State) (block : Block)
    (w : StateWitness) (hindex : 0 < block.index) (hempty : LeavesNotEmpty crates s w)
    (hphantoms : PhantomsAgree block s w)
    (hverify : verifyBlockStateless crates (computeStateRoot crates s.balances) block chainId w =
      .ok ()) :
    Collision crates.blake3 (statelessPreimages crates.blake3 s w) ∨
      ((∃ root, rootAfter crates s block chainId false = .ok root) ↔
        block.stateRoot ≠ zeroDigest ∧ CoinbaseWithin block chainId s.totalSupply) ∧
      (chainId = CHAIN_ID_REGTEST ∨ s.exactSupply * 6 < 2 ^ 64 →
        CoinbaseWithin block chainId s.totalSupply) := by
  by_cases hcol : Collision crates.blake3 (statelessPreimages crates.blake3 s w)
  · exact .inl hcol
  refine .inr ?_
  obtain ⟨-, haccepted, hcover, t', ht', hroot⟩ := (verifyBlockStateless_ok hindex).mp hverify
  have hanchored : ∀ (a : String) (p : AccountProof), w.proofs[a]? = some p → ∀ post,
      Anchored crates.blake3 (computeStateRoot crates s.balances)
        (leafOf (sortByKey (accountLeaves crates.blake3 s.balances))) (p.update a post) := by
    intro a p hp post
    refine anchored_of_verifyProof (fun hc => hcol (hc.mono fun x hx => ?_)) (haccepted a p hp)
    rcases mem_append.mp hx with hx | hx
    · exact verifyPreimages_mem hp hx
    · exact mem_append_left _ (mem_append_right _ hx)
  have haccount : ∀ (a : String) (p : AccountProof), w.proofs[a]? = some p →
      p.account = s.account a ∨ p.account.isEmpty = true ∧ (s.account a).isEmpty = true :=
    fun a p hp => account_of_accepted hcol hempty hp (hanchored a p hp _)
  have hagree : AgreeOn (collectTouchedAddresses block) w.reconstructed s := by
    intro a ha
    obtain ⟨p, hp⟩ := Option.isSome_iff_exists.mp
      (ExtTreeMap.mem_iff_isSome_getElem?.mp (hcover a ha))
    rw [account_reconstructed hp]
    rcases haccount a p hp with heq | ⟨hpe, hse⟩
    · exact heq
    · exact Account.eq_of_isEmpty hpe hse (hphantoms a ha p hp)
  obtain ⟨hcap, -, hlocal⟩ := applyBlock_local hindex ht'
  refine ⟨?_, fun hwrap => ?_⟩
  · rw [← (hlocal s hagree).1]
    constructor
    · rintro ⟨root, hok⟩
      obtain ⟨s', hs', -, hzero, -⟩ := (rootAfter_ok hindex).mp hok
      exact ⟨hzero, s', hs'⟩
    · rintro ⟨hzero, s', hs'⟩
      have heq := rootAfterUpdates_reconstructed hindex (injOn_of_not_collision hcol) hanchored
        hcover hagree.symm hs' ht'
      rw [hroot] at heq
      exact ⟨_, (rootAfter_ok hindex).mpr ⟨s', hs', (Except.ok.inj heq).symm, hzero, rfl⟩⟩
  · intro cb i hcb
    by_cases hregtest : chainId = CHAIN_ID_REGTEST
    · have hle := hcap cb i hcb
      unfold blockRewardAtHeightForChain at hle ⊢
      rwa [if_pos hregtest] at hle ⊢
    have hbound := hwrap.resolve_left hregtest
    have hle : w.reconstructed.exactSupply ≤ s.exactSupply := by
      refine exactSupply_reconstructed_le fun a p hp => ?_
      rw [State.getBalance_eq]
      rcases haccount a p hp with heq | ⟨hpe, hse⟩
      · rw [heq]
      · rw [Account.balance_of_isEmpty hpe, Account.balance_of_isEmpty hse]
    refine UInt64.le_trans (hcap cb i hcb) (blockReward_mono hregtest ?_ ?_)
    · rwa [State.totalSupply_toNat, Nat.mod_eq_of_lt (by omega)]
    · rwa [State.totalSupply_toNat, State.totalSupply_toNat, Nat.mod_eq_of_lt (by omega),
        Nat.mod_eq_of_lt (by omega)]

end

/-- The verifier and the full node accept a miner's first reward on mainnet. -/
theorem rootAfter_first_reward :
    ∃ (s : State) (block : Block) (w : StateWitness),
      verifyBlockStateless nonzeroCrates (computeStateRoot nonzeroCrates s.balances) block
        CHAIN_ID_MAINNET w = .ok () ∧
      (Collision nonzeroCrates.blake3 (statelessPreimages nonzeroCrates.blake3 s w) ∨
        ∃ root, rootAfter nonzeroCrates s block CHAIN_ID_MAINNET false = .ok root) := by
  obtain ⟨_, _, root, rfl, rfl, hindex, hok, hkeys⟩ := first_reward
  obtain ⟨w, -, hbuilt⟩ := buildWitness_ok hkeys
  have hverify := (hbuilt.verify_iff hindex hkeys hok).mpr (coinbaseWithin_rewarding.mpr
    (by rw [touchedSupply_rewarding]; decide))
  have hempty : LeavesNotEmpty nonzeroCrates (.funded [("alice", 10)]) w := by
    intro a p hp x hx
    obtain rfl : a = "miner" := mem_singleton.mp ((hbuilt.mem a).mp
      (ExtTreeMap.mem_iff_isSome_getElem?.mpr (by rw [hp]; rfl)))
    have habsent : (State.funded [("alice", 10)]).account "miner" = Account.default := by decide
    have hlist : (State.funded [("alice", 10)]).balances.toList = [("alice", .eoa ⟨10, 0⟩)] := by decide
    rw [hbuilt.account "miner" p hp, habsent, hlist] at hx
    have hfull : (Account.eoa ⟨10, 0⟩).isEmpty = false := rfl
    obtain rfl : x = leafPreimage (accountKeyHash nonzeroCrates.blake3 "alice") (.eoa ⟨10, 0⟩) := by
      simpa [leafPreimages, hfull] using hx
    decide +kernel
  refine ⟨_, _, w, hverify, ?_⟩
  rcases rootAfter_of_verify nonzeroCrates CHAIN_ID_MAINNET _ _ w hindex hempty
    (fun a _ p hp => by rw [hbuilt.account a p hp]) hverify with hcol | ⟨hiff, hcap⟩
  · exact .inl hcol
  · obtain ⟨-, -, -, hzero, -⟩ := (rootAfter_ok hindex).mp hok
    exact .inr (hiff.mpr ⟨hzero, hcap (.inr (by decide))⟩)

/-! ### A contract from nothing -/

section
variable {blake3 : List UInt8 → Digest}

/-- One account and nothing else. -/
def loneAccount (a : String) (account : Account) : HashMap String Account :=
  (∅ : HashMap String Account).insert a account

theorem get?_loneAccount (a b : String) (account : Account) :
    (loneAccount a account)[b]? = if b = a then some account else none := by
  simp [loneAccount]

theorem mem_loneAccount {a b : String} {account : Account} (h : b ∈ loneAccount a account) :
    b = a := by
  rw [ExtTreeMap.mem_iff_isSome_getElem?, get?_loneAccount] at h
  by_contra hne
  simp [hne] at h

theorem injOn_loneAccount (a : String) (account : Account) :
    Set.InjOn (accountKeyHash blake3) {b | b ∈ loneAccount a account} := by
  intro b hb c hc _
  rw [mem_loneAccount hb, mem_loneAccount hc]

/-- The strings hashed for the roots of two states with one account each. -/
def rivalPreimages (blake3 : List UInt8 → Digest) (a : String) (x y : Account) : List (List UInt8) :=
  verifyPreimages blake3 a x (collectSiblings blake3 (accountKeyHash blake3 a) DEPTH
      (sortByKey (buildTrie blake3 (loneAccount a x)).leaves.toList)) ++
    rootPreimages blake3 (accountLeaves blake3 (loneAccount a y)) ++ leafPreimages blake3 a y

/-- Two accounts at one address have different roots, unless strings collide. -/
theorem computeRoot_loneAccount_inj {a : String} {x y : Account} (hx : x.isEmpty = false)
    (hy : y.isEmpty = false) (hcol : ¬ Collision blake3 (rivalPreimages blake3 a x y))
    (h : computeRoot blake3 (loneAccount a x) = computeRoot blake3 (loneAccount a y)) : x = y := by
  obtain ⟨proof, hproof⟩ := @prove_buildTrie blake3 (loneAccount a x) a
    (fun b hb _ => mem_loneAccount hb) (injOn_loneAccount a x)
  rw [get?_loneAccount, if_pos rfl] at hproof
  obtain rfl := ((prove_eq_ok blake3).mp hproof).2
  have haccepted := (@anchored_of_prove blake3 _ (injOn_loneAccount a x) ⟨a, x, _, x⟩ hproof).accepted
  rw [h] at haccepted
  have hleaf := (@anchored_of_verifyProof blake3 (loneAccount a y) ⟨a, x, _, x⟩
    (fun hc => hcol (hc.mono fun _ => mem_append_left _)) haccepted).pre_leaf
  rw [leafOf_accountLeaves blake3 (fun b hb _ => mem_loneAccount hb), get?_loneAccount,
    if_pos rfl] at hleaf
  change leafHashFor blake3 _ x = leafHashFor blake3 _ y at hleaf
  simp only [leafHashFor, hx, hy, Bool.false_eq_true, if_false] at hleaf
  refine leafPreimage_inj (eq_of_not_collision hcol ?_ ?_ hleaf)
  · refine mem_append_left _ (mem_append_left _ (mem_cons_of_mem _
      (mem_append_left _ ?_)))
    simp [leafPreimages, hx]
  · refine mem_append_right _ ?_
    simp [leafPreimages, hy]

end

theorem halvingSchedule_le_reward {height supply : UInt64} {chainId : UInt32}
    (hregtest : chainId ≠ CHAIN_ID_REGTEST) :
    halvingSchedule height ≤ blockRewardAtHeightForChain height supply chainId := by
  unfold blockRewardAtHeightForChain
  rw [if_neg hregtest]
  change _ ≤ (if _ then _ else _)
  split
  · assumption
  · exact UInt64.le_refl _

section
variable (crates : Crates)

/-- The miner's absent account, shown as the all-zero contract. -/
def phantomProof : AccountProof where
  balance := 0
  nonce := 0
  codeHash := some zeroDigest
  storageRoot := some zeroDigest
  keyHash := crates.blake3 (asBytes "miner")
  proof := collectSiblings crates.blake3 (accountKeyHash crates.blake3 "miner") DEPTH
    (sortByKey (buildTrie crates.blake3 ∅).leaves.toList)

def phantomWitness : StateWitness where
  preStateRoot := computeStateRoot crates ∅
  proofs := (∅ : HashMap String AccountProof).insert "miner" (phantomProof crates)

/-- The all-zero contract after a reward of 50. -/
def paidPhantom : Account := .contract ⟨zeroDigest, zeroDigest, 0, 50⟩

/-- The first block of mainnet, committing to the contract. -/
def phantomBlock : Block :=
  .rewarding 1 CHAIN_ID_MAINNET "miner" 50 (computeStateRoot crates (loneAccount "miner" paidPhantom))

end

section
variable {crates : Crates}

theorem get?_phantomWitness (a : String) :
    (phantomWitness crates).proofs[a]? = if a = "miner" then some (phantomProof crates) else none := by
  simp [phantomWitness]

theorem phantomProof_anchored (post : Account) :
    Anchored crates.blake3 (computeStateRoot crates ∅)
      (leafOf (sortByKey (accountLeaves crates.blake3 ∅))) ((phantomProof crates).update "miner" post) := by
  have hold : Set.InjOn (accountKeyHash crates.blake3) {a | a ∈ (∅ : HashMap String Account)} :=
    fun a ha => absurd ha ExtTreeMap.not_mem_empty
  obtain ⟨proof, hproof⟩ := @prove_buildTrie crates.blake3 ∅ "miner"
    (fun b hb _ => absurd hb ExtTreeMap.not_mem_empty) hold
  -- an absent account and the phantom have the same slot
  have hslot := ((prove_eq_ok crates.blake3).mp hproof).1
  exact anchored_of_prove crates.blake3 hold ((prove_eq_ok crates.blake3).mpr ⟨hslot, rfl⟩)

theorem phantomBlock_index : 0 < (phantomBlock crates).index := show (0 : UInt64) < 1 by decide

/-- What the verifier makes of the reward: a contract. -/
theorem applyBlock_phantom :
    ∃ t, applyBlock crates (phantomWitness crates).reconstructed (phantomBlock crates)
        CHAIN_ID_MAINNET = .ok t ∧ t.account "miner" = paidPhantom := by
  have hminer : (phantomWitness crates).reconstructed.balances["miner"]? = some Account.phantom := by
    rw [get?_reconstructed, get?_phantomWitness]
    rfl
  have haccount : (phantomWitness crates).reconstructed.account "miner" = Account.phantom := by
    rw [State.account, hminer]
    rfl
  have hbalance : (phantomWitness crates).reconstructed.getBalance "miner" = 0 := by
    rw [State.getBalance_eq, haccount]
    rfl
  obtain ⟨t, ht, hbalances⟩ := @applyBlock_rewarding crates 1 CHAIN_ID_MAINNET "miner" 50 50
    (computeStateRoot crates (loneAccount "miner" paidPhantom)) (phantomWitness crates).reconstructed
    (by decide) (UInt64.le_trans (by decide) (halvingSchedule_le_reward (by decide)))
    (by rw [hbalance]; decide)
  refine ⟨t, ht, ?_⟩
  rw [State.account, hbalances, State.setBalance_eq, State.get?_setAccount, haccount, if_pos rfl]
  rfl

/-- **The verifier accepts the contract.** -/
theorem verify_phantom :
    verifyBlockStateless crates (computeStateRoot crates State.new.balances) (phantomBlock crates)
      CHAIN_ID_MAINNET (phantomWitness crates) = .ok () := by
  have hproof : ∀ (a : String) (p : AccountProof), (phantomWitness crates).proofs[a]? = some p →
      a = "miner" ∧ p = phantomProof crates := by
    intro a p hp
    rw [get?_phantomWitness] at hp
    split at hp
    · exact ⟨by assumption, (Option.some.inj hp).symm⟩
    · cases hp
  have hmem : "miner" ∈ (phantomWitness crates).proofs := by
    rw [ExtTreeMap.mem_iff_isSome_getElem?, get?_phantomWitness]
    rfl
  obtain ⟨t, ht, haccount⟩ := @applyBlock_phantom crates
  refine (verifyBlockStateless_ok phantomBlock_index).mpr ⟨rfl, ?_, ?_, t, ht, ?_⟩
  · intro a p hp
    obtain ⟨rfl, rfl⟩ := hproof a p hp
    exact (phantomProof_anchored Account.default).accepted
  · intro a ha
    obtain rfl : a = "miner" := mem_singleton.mp ha
    exact hmem
  · change rootAfterUpdates crates.blake3 (computeRoot crates.blake3 ∅) _ =
      .ok (computeRoot crates.blake3 (loneAccount "miner" paidPhantom))
    refine rootAfterUpdates_of_frame crates.blake3 ?_ ?_ ?_ ?_
    · have honly : ∀ a, a ∈ (∅ : HashMap String Account) ∨ a ∈ ((phantomWitness crates).updates t).map
          LeafUpdate.address → a = "miner" := by
        rintro a (ha | ha)
        · exact absurd ha ExtTreeMap.not_mem_empty
        · obtain ⟨u, hu, rfl⟩ := mem_map.mp ha
          obtain ⟨a, p, hp, rfl⟩ := mem_updates.mp hu
          exact (hproof a p hp).1
      intro a ha b hb _
      rw [honly a ha, honly b hb]
    · intro u hu
      obtain ⟨a, p, hp, rfl⟩ := mem_updates.mp hu
      obtain ⟨rfl, rfl⟩ := hproof a p hp
      exact phantomProof_anchored _
    · intro u hu
      obtain ⟨a, p, hp, rfl⟩ := mem_updates.mp hu
      obtain ⟨rfl, rfl⟩ := hproof a p hp
      change leafHashFor _ _ (t.account "miner") = _
      rw [haccount]
      change _ = leafHashFor _ _ ((loneAccount "miner" paidPhantom)["miner"]?.getD _)
      rw [get?_loneAccount]
      rfl
    · intro a ha
      rw [addresses_updates, ExtTreeMap.mem_keys] at ha
      rw [get?_loneAccount, if_neg]
      · rfl
      · rintro rfl
        exact ha hmem

/-- A reward to an absent account is accepted as a payment to a contract; the full state
has an externally owned account there and another root, unless strings collide. -/
theorem verify_accepts_phantom :
    ¬ ∃ crates : Crates,
      ¬ Collision crates.blake3 (rivalPreimages crates.blake3 "miner" (.eoa ⟨50, 0⟩) paidPhantom) ∧
      ∀ (s : State) (block : Block) (w : StateWitness), 0 < block.index →
        verifyBlockStateless crates (computeStateRoot crates s.balances) block CHAIN_ID_MAINNET w =
          .ok () →
        ∃ root, rootAfter crates s block CHAIN_ID_MAINNET false = .ok root := by
  rintro ⟨crates, hcol, h⟩
  obtain ⟨root, hok⟩ := h .new (phantomBlock crates) (phantomWitness crates) phantomBlock_index
    verify_phantom
  obtain ⟨s', hs', hroot, -⟩ := (rootAfter_ok phantomBlock_index).mp hok
  obtain ⟨t, ht, hbalances⟩ := @applyBlock_rewarding crates 1 CHAIN_ID_MAINNET "miner" 50 50
    (computeStateRoot crates (loneAccount "miner" paidPhantom)) .new
    (by decide) (UInt64.le_trans (by decide) (halvingSchedule_le_reward (by decide))) (by decide)
  obtain rfl : s' = t := Except.ok.inj (hs'.symm.trans ht)
  have hlone : (State.new.setBalance "miner" 50).balances = loneAccount "miner" (.eoa ⟨50, 0⟩) := by
    decide
  rw [hbalances, hlone] at hroot
  have heq := computeRoot_loneAccount_inj rfl rfl hcol hroot
  cases heq

end

end Strangecoin
