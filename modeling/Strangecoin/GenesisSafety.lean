import Strangecoin.NodeAtomicity

/-! # Which genesis a node stands on

A replay credits the holder of the genesis coinbase.  A fresh node credits nothing, since
the coinbase has the sender `genesis`, which it skips.

Adoption checks the hash of a candidate's first block against the block itself and not
against the pinned one, so the genesis can change with the chain.
-/
namespace Strangecoin

variable {block : Block} {chainId : UInt32}

section
variable {V : Type} (crates : Crates) (rt : Runtime V)

/-! ### Genesis blocks -/

/-- Blocks built around a coinbase of the sender `genesis`. -/
def IsGenesis (block : Block) (holder : String) (amount : UInt64) (chainId : UInt32) : Prop :=
  block.index = 0 ∧ block.transactions = [.coinbase "genesis" holder amount chainId]

variable {amount : UInt64} {holder : String}

theorem hashed_isGenesis {timestamp : UInt64} {version : UInt32}
    (h : hashed crates (genesisTemplate crates timestamp
      (.coinbase "genesis" holder amount chainId) version) = .ok block) :
    IsGenesis block holder amount chainId := by
  obtain ⟨hash, -, ⟨⟩⟩ := bind_eq_ok.mp h
  exact ⟨rfl, rfl⟩

theorem loadGenesis_isGenesis {genesis : GenesisConfig} (h : loadGenesis crates genesis = .ok block) :
    ∃ holder, IsGenesis block holder genesis.initialAmount genesis.chainId := by
  obtain ⟨⟨⟩, -, h⟩ := bind_eq_ok.mp h
  obtain ⟨pkBytes, -, h⟩ := bind_eq_ok.mp h
  obtain ⟨publicKey, -, h⟩ := bind_eq_ok.mp h
  obtain ⟨holder, -, h⟩ := bind_eq_ok.mp h
  exact ⟨holder, hashed_isGenesis crates h⟩

theorem orPanic_ok {α : Type} {message : String} {x : Except Failure α} {a : α}
    (h : orPanic message x = .ok a) : x = .ok a := by
  unfold orPanic at h
  split at h
  · exact h
  · cases h
  · cases h

/-- The amount the genesis of a network mints is zero: never on regtest, and elsewhere
what the genesis file says. -/
def MintsNothing (files : String → Option GenesisConfig) (chainId : UInt32) : Prop :=
  chainId ≠ CHAIN_ID_REGTEST ∧
    ∀ path genesis, genesisFileForChain chainId = some path → files path = some genesis →
      genesis.initialAmount = 0

variable {files : String → Option GenesisConfig} {config : NodeConfig}

theorem freshGenesis_isGenesis (h : freshGenesis crates files config = .ok block) :
    ∃ holder amount chainId, IsGenesis block holder amount chainId ∧
      (amount = 0 ↔ MintsNothing files config.chainId) := by
  unfold freshGenesis at h
  by_cases hregtest : config.chainId = CHAIN_ID_REGTEST
  · rw [if_pos hregtest] at h
    refine ⟨_, _, _, hashed_isGenesis crates h, ?_⟩
    exact ⟨fun hzero => absurd hzero (by decide), fun hnone => absurd hregtest hnone.1⟩
  · rw [if_neg hregtest] at h
    obtain ⟨path, hpath, h⟩ := bind_eq_ok.mp h
    obtain ⟨genesis, hgenesis, h⟩ := bind_eq_ok.mp h
    obtain ⟨loaded, hloaded, h⟩ := bind_eq_ok.mp h
    rw [okOr_eq_ok] at hpath hgenesis
    split at h
    · cases h
      obtain ⟨holder, hblock⟩ := loadGenesis_isGenesis crates (orPanic_ok hloaded)
      refine ⟨holder, _, _, hblock, fun hzero => ⟨hregtest, ?_⟩, fun hnone => ?_⟩
      · intro path' genesis' hpath' hgenesis'
        rw [hpath] at hpath'
        cases hpath'
        rw [hgenesis] at hgenesis'
        cases hgenesis'
        exact hzero
      · exact hnone.2 path genesis hpath hgenesis
    · cases h

/-! ### Crediting the genesis -/

/-- The hand-made credit skips the sender `genesis`. -/
theorem IsGenesis.creditFresh (h : IsGenesis block holder amount chainId) (cache : StateCache) :
    block.transactions.foldl creditFresh cache = cache := by
  rw [h.2]
  rfl

variable {cache : StateCache} {receipts : List Receipt}

/-- The replay credits the holder. -/
theorem IsGenesis.rebuilt {now : UInt64} (h : IsGenesis block holder amount chainId)
    (hrebuilt : rebuildFromChain crates rt config [block] now = .ok (cache, receipts)) :
    ∀ a, cache.balance a = if a = holder then amount else 0 := by
  obtain ⟨r, hr, rfl, -⟩ := (rebuildFromChain_ok crates rt).mp hrebuilt
  obtain ⟨u, hu, hr⟩ := foldlM_cons_ok.mp hr
  cases foldlM_nil_ok.mp hr
  obtain ⟨state, hvalid, rfl⟩ := (replayBlock_ok crates rt).mp hu
  obtain ⟨vm, hinner⟩ := hvalid.applyBlockInner
  unfold applyBlockInner at hinner
  simp only [if_pos h.1] at hinner
  obtain ⟨p, hgenesis, ⟨⟩⟩ := bind_eq_ok.mp hinner
  unfold applyGenesis at hgenesis
  rw [h.2] at hgenesis
  obtain ⟨q, hq, hgenesis⟩ := foldlM_cons_ok.mp hgenesis
  cases foldlM_nil_ok.mp hgenesis
  obtain ⟨⟨⟩, -, hq⟩ := bind_eq_ok.mp hq
  obtain ⟨s, hcredit, ⟨⟩⟩ := bind_eq_ok.mp hq
  obtain ⟨b, hb, rfl⟩ := State.credit_ok.mp hcredit
  have hzero : ∀ a, ({ Replay.start.state with receipts := [] } : State).getBalance a = 0 :=
    fun a => rfl
  intro a
  have hbalance : ∀ s : State, (StateCache.fromState s).balance a = s.getBalance a := fun s => rfl
  rw [hbalance]
  change ((State.setBalance _ holder b).getBalance) a = _
  rw [State.getBalance_setBalance_eq, Function.update_apply, hzero]
  have hamount : b = amount := by
    apply UInt64.toNat_inj.mp
    rw [hb, hzero, UInt64.toNat_zero, Nat.zero_add]
  rw [hamount]

/-- The two agree exactly when nothing is minted. -/
theorem IsGenesis.balance_eq_iff {now : UInt64} (h : IsGenesis block holder amount chainId)
    (hrebuilt : rebuildFromChain crates rt config [block] now = .ok (cache, receipts)) :
    (∀ a, (block.transactions.foldl Strangecoin.creditFresh StateCache.new).balance a =
      cache.balance a) ↔ amount = 0 := by
  have hfresh : ∀ a, StateCache.new.balance a = 0 := fun a => rfl
  have hcache := h.rebuilt crates rt hrebuilt
  rw [h.creditFresh]
  constructor
  · intro heq
    have hholder := heq holder
    rw [hfresh, hcache, if_pos rfl] at hholder
    exact hholder.symm
  · rintro rfl a
    rw [hfresh, hcache, ite_self]

theorem installFreshGenesis_ok {node node' : Blockchain}
    (h : (installFreshGenesis crates files).run node = .ok () node') :
    ∃ block, freshGenesis crates files node.toNodeConfig = .ok block ∧
      node' = { node with
        chain := node.chain ++ [block]
        balances := block.transactions.foldl creditFresh node.balances } := by
  unfold installFreshGenesis at h
  simp only [run_get_bind, run_check_bind_ok, run_modify_bind] at h
  obtain ⟨block, hblock, ⟨⟩, -, ⟨⟩⟩ := h
  exact ⟨block, hblock, rfl⟩

/-- **A fresh node and a replay agree on the genesis balances exactly when the genesis
mints nothing**, for every genesis installed on an empty node and for every genesis built
from a file. -/
theorem fresh_genesis_iff (config : NodeConfig) (now : UInt64) :
    (∀ files (node node' : Blockchain) cache receipts, node.toNodeConfig = config →
      node.chain = [] → node.balances = StateCache.new →
      (installFreshGenesis crates files).run node = .ok () node' →
      rebuildFromChain crates rt config node'.chain now = .ok (cache, receipts) →
      ((∀ a, node'.balances.balance a = cache.balance a) ↔ MintsNothing files config.chainId)) ∧
    ∀ genesis block cache receipts, loadGenesis crates genesis = .ok block →
      rebuildFromChain crates rt config [block] now = .ok (cache, receipts) →
      ((∀ a, (block.transactions.foldl creditFresh StateCache.new).balance a = cache.balance a) ↔
        genesis.initialAmount = 0) := by
  constructor
  · rintro files node node' cache receipts rfl hchain hbalances hinstall hrebuilt
    obtain ⟨block, hblock, rfl⟩ := installFreshGenesis_ok crates hinstall
    obtain ⟨holder, amount, chainId, hgenesis, hamount⟩ := freshGenesis_isGenesis crates hblock
    dsimp only at hrebuilt ⊢
    rw [hchain, List.nil_append] at hrebuilt
    rw [hbalances, hgenesis.balance_eq_iff crates rt hrebuilt, hamount]
  · intro genesis block cache receipts hload hrebuilt
    obtain ⟨holder, hgenesis⟩ := loadGenesis_isGenesis crates hload
    exact hgenesis.balance_eq_iff crates rt hrebuilt

end

/-- A node of a network before anything is loaded installs its genesis. -/
def installRegtest : EStateM Failure Blockchain Unit := installFreshGenesis nonzeroCrates fun _ => none

/-- What the node looks like then. -/
def freshRegtest : Blockchain :=
  { Blockchain.empty CHAIN_ID_REGTEST with chain := [regtestGenesis] }

theorem installRegtest_ok : installRegtest.run (Blockchain.empty CHAIN_ID_REGTEST) =
    .ok () freshRegtest := by
  have hprevious : regtestTemplate.previousHash = hexEncode zeroDigest.toList := by decide
  obtain ⟨hash, hhash, hstored⟩ := storedHash_eq nonzeroCrates hprevious rfl
  have hgenesis : regtestGenesisBlock nonzeroCrates CURRENT_CONSENSUS_VERSION =
      .ok regtestGenesis := by
    refine bind_eq_ok.mpr ⟨hash, hhash, ?_⟩
    rw [regtestGenesis, hstored]
    rfl
  unfold installRegtest installFreshGenesis
  simp only [run_get_bind, run_check_bind_ok, run_modify_bind]
  exact ⟨regtestGenesis, hgenesis, (), rfl, rfl⟩

theorem rebuild_regtest : ∃ cache receipts,
    rebuildFromChain nonzeroCrates registryRuntime regtestConfig freshRegtest.chain 0 =
      .ok (cache, receipts) :=
  ⟨_, _, (rebuildFromChain_ok _ _).mpr ⟨regtestReplay, complete_regtestReplay clockInRange_zero,
    rfl, rfl⟩⟩

/-- **A fresh regtest node lacks the coins its own replay finds.** -/
theorem fresh_regtest_balances_differ :
    ¬ ∀ (node' : Blockchain) (cache : StateCache) (receipts : List Receipt),
      installRegtest.run (Blockchain.empty CHAIN_ID_REGTEST) = .ok () node' →
      rebuildFromChain nonzeroCrates registryRuntime regtestConfig node'.chain 0 =
        .ok (cache, receipts) →
      ∀ a, node'.balances.balance a = cache.balance a := by
  intro h
  obtain ⟨cache, receipts, hrebuilt⟩ := rebuild_regtest
  have heq := h freshRegtest cache receipts installRegtest_ok hrebuilt "regtest_initial_holder"
  have hgenesis : IsGenesis regtestGenesis "regtest_initial_holder" 1000000000 CHAIN_ID_REGTEST :=
    ⟨rfl, rfl⟩
  rw [hgenesis.rebuilt _ _ hrebuilt, if_pos rfl] at heq
  exact absurd heq (by decide)

/-- The mainnet genesis file with another amount. -/
def mainnetGenesisFile (initialAmount : UInt64) : GenesisConfig where
  networkId := CHAIN_ID_MAINNET
  chainId := CHAIN_ID_MAINNET
  timestamp := 0
  initialHolderPubkey := "0x026f7d841405eb8af268dd422994e708a3c343396aa4c85f87aa9628e25248da87"
  initialAmount := initialAmount

/-- The regtest genesis mints, a mainnet genesis with amount zero does not. -/
theorem fresh_genesis_iff_regtest :
    (∃ cache receipts, rebuildFromChain nonzeroCrates registryRuntime regtestConfig
        freshRegtest.chain 0 = .ok (cache, receipts) ∧
      ((∀ a, freshRegtest.balances.balance a = cache.balance a) ↔
        MintsNothing (fun _ => none) CHAIN_ID_REGTEST)) ∧
    ∃ block cache receipts, loadGenesis nonzeroCrates (mainnetGenesisFile 0) = .ok block ∧
      rebuildFromChain nonzeroCrates registryRuntime
        (Blockchain.empty CHAIN_ID_MAINNET).toNodeConfig [block] 0 = .ok (cache, receipts) ∧
      ∀ a, (block.transactions.foldl creditFresh StateCache.new).balance a = cache.balance a := by
  constructor
  · obtain ⟨cache, receipts, hrebuilt⟩ := rebuild_regtest
    refine ⟨cache, receipts, hrebuilt, ?_⟩
    exact (fresh_genesis_iff nonzeroCrates registryRuntime regtestConfig 0).1 _ _ _ _ _ rfl rfl rfl
      installRegtest_ok hrebuilt
  · have hrun : (loadGenesis nonzeroCrates (mainnetGenesisFile 0) >>= fun block =>
        (rebuildFromChain nonzeroCrates registryRuntime
          (Blockchain.empty CHAIN_ID_MAINNET).toNodeConfig [block] 0)).isOk = true := by
      rw [nonzeroCrates_eq]
      decide +kernel
    obtain ⟨⟨cache, receipts⟩, hrun⟩ := isOk_iff.mp hrun
    obtain ⟨block, hload, hrebuilt⟩ := bind_eq_ok.mp hrun
    refine ⟨block, cache, receipts, hload, hrebuilt, ?_⟩
    exact ((fresh_genesis_iff nonzeroCrates registryRuntime _ 0).2 _ _ _ _ hload hrebuilt).mpr rfl

/-! ### Adoption -/

section
variable {V : Type} (crates : Crates) (rt : Runtime V)

/-- What a pinned network requires of a genesis block. -/
theorem validateGenesis_ok (hpinned : chainId ≠ CHAIN_ID_REGTEST) :
    validateGenesis crates block chainId = .ok () ↔
      ∃ hash, pinnedHash chainId = .ok hash ∧ crates.blockHash block = .ok hash := by
  unfold validateGenesis
  rw [if_neg hpinned]
  constructor
  · intro h
    obtain ⟨expected, hexpected, h⟩ := bind_eq_ok.mp h
    obtain ⟨hash, hhash, h⟩ := bind_eq_ok.mp h
    rw [guardNode_eq_ok] at h
    exact ⟨expected, hexpected, h ▸ hhash⟩
  · rintro ⟨hash, hexpected, hhash⟩
    exact bind_eq_ok.mpr ⟨hash, hexpected, bind_eq_ok.mpr ⟨hash, hhash,
      guardNode_eq_ok.mpr rfl⟩⟩

/-- The first blocks hash to the same value exactly when their headers have the same
encoding, unless the encodings collide. -/
theorem blockHash_eq_iff {b b' : Block}
    (hcol : ∀ x y, serializeBlockHeader b = .ok x → serializeBlockHeader b' = .ok y →
      crates.blake3 x = crates.blake3 y → x = y) :
    crates.blockHash b = crates.blockHash b' ↔ serializeBlockHeader b = serializeBlockHeader b' := by
  constructor
  · intro h
    unfold Crates.blockHash at h
    cases hx : serializeBlockHeader b with
    | error e =>
      cases hy : serializeBlockHeader b' with
      | error e' =>
        rw [hx, hy] at h
        have herror : (Except.error e : Except Failure Digest) = .error e' := h
        rw [Except.error.inj herror]
      | ok y =>
        rw [hx, hy] at h
        cases h
    | ok x =>
      cases hy : serializeBlockHeader b' with
      | error e' =>
        rw [hx, hy] at h
        cases h
      | ok y =>
        rw [hx, hy] at h
        rw [hcol x y hx hy (Except.ok.inj h)]
  · intro h
    rw [Crates.blockHash, h, Crates.blockHash]

/-- **Adoption keeps the genesis exactly when the candidate brings it**: on a public
network when the candidate's first block would pass `validate_genesis`, which is not
called; on regtest when its header has the encoding of the node's. -/
theorem adoption_keeps_genesis_iff (node node' : Blockchain) (old new : Block)
    (candidate : List Block) (balances : Option (HashMap String Account))
    (candidateTxs : List Transaction) (difficulty : UInt32) (now : UInt64)
    (localTxs : List Transaction) (_hold : node.chain.head? = some old)
    (hpin : validateGenesis crates old node.chainId = .ok ()) (hnew : candidate.head? = some new)
    (hcol : ∀ x y, serializeBlockHeader new = .ok x → serializeBlockHeader old = .ok y →
      crates.blake3 x = crates.blake3 y → x = y)
    (hrun : (Blockchain.tryAdoptCandidate crates rt candidate balances candidateTxs difficulty now
      localTxs).run node = .ok true node') :
    (∃ first, node'.chain.head? = some first ∧ crates.blockHash first = crates.blockHash old ∧
        validateGenesis crates first node'.chainId = .ok ()) ↔
      if node.chainId = CHAIN_ID_REGTEST then serializeBlockHeader new = serializeBlockHeader old
      else validateGenesis crates new node.chainId = .ok () := by
  rcases tryAdoptCandidate_ok crates rt hrun with ⟨hfalse, -⟩ | ⟨-, hadopted⟩
  · cases hfalse
  have hchainId : node'.chainId = node.chainId := congrArg NodeConfig.chainId hadopted.config
  have hfirst : node'.chain.head? = some new := hadopted.chain ▸ hnew
  rw [hfirst, hchainId]
  by_cases hregtest : node.chainId = CHAIN_ID_REGTEST
  · rw [if_pos hregtest, ← blockHash_eq_iff crates hcol]
    constructor
    · rintro ⟨_, ⟨⟩, hhash, -⟩
      exact hhash
    · intro hhash
      refine ⟨new, rfl, hhash, ?_⟩
      rw [validateGenesis, if_pos hregtest]
  · rw [if_neg hregtest]
    constructor
    · rintro ⟨_, ⟨⟩, -, hvalid⟩
      exact hvalid
    · intro hvalid
      refine ⟨new, rfl, ?_, hvalid⟩
      obtain ⟨hash, hpinned, hhash⟩ := (validateGenesis_ok crates hregtest).mp hvalid
      obtain ⟨hash', hpinned', hhash'⟩ := (validateGenesis_ok crates hregtest).mp hpin
      rw [hpinned] at hpinned'
      rw [hhash, hhash', Except.ok.inj hpinned']

end

def mainnetConfig : NodeConfig := (Blockchain.empty CHAIN_ID_MAINNET).toNodeConfig

def mainnetTemplate (initialAmount : UInt64) : Block :=
  genesisTemplate nonzeroCrates 0 (.coinbase "genesis"
    "sc1qfhhmpq5qh4c4ungm4pzn988pz3uxseed2jvshu842tz3cjjfrdgwgfe47g" initialAmount CHAIN_ID_MAINNET)
    CURRENT_CONSENSUS_VERSION

/-- The genesis block built from `mainnetGenesisFile`. -/
def mainnetGenesis (initialAmount : UInt64) : Block :=
  { mainnetTemplate initialAmount with
    hash := storedHash nonzeroCrates (mainnetTemplate initialAmount) }

/-- A mainnet node with the pinned genesis only. -/
def mainnetNode : Blockchain :=
  { Blockchain.empty CHAIN_ID_MAINNET with chain := [mainnetGenesis 1000000000] }

/-- A chain on a mainnet genesis with another amount. -/
def foreignReplay (initialAmount : UInt64) : Replay :=
  mineAll nonzeroCrates registryRuntime mainnetConfig
    [(1, [.transfer (.reward CHAIN_ID_MAINNET "miner" 0)])]
    (genesisReplay nonzeroCrates registryRuntime mainnetConfig (mainnetGenesis initialAmount))

/-- The offer of such a chain. -/
def adoptForeign (initialAmount : UInt64) : EStateM Failure Blockchain Bool :=
  Blockchain.tryAdoptCandidate nonzeroCrates registryRuntime (foreignReplay initialAmount).done none
    [] 1 0 []

theorem pinned_mainnetGenesis :
    validateGenesis nonzeroCrates (mainnetGenesis 1000000000) CHAIN_ID_MAINNET = .ok () := by
  obtain ⟨⟨⟩, h⟩ := isOk_iff.mp (show (validateGenesis nonzeroCrates
    (mainnetGenesis 1000000000) CHAIN_ID_MAINNET).isOk = true by
      unfold mainnetGenesis mainnetTemplate
      rw [nonzeroCrates_eq]
      decide +kernel)
  exact h

variable {initialAmount : UInt64}

theorem complete_foreignReplay
    (hgenesis : (replayBlock nonzeroCrates registryRuntime mainnetConfig 0 Replay.start
      (mainnetGenesis initialAmount)).isOk = true)
    (hmine : mineable nonzeroCrates registryRuntime mainnetConfig 0 (genesisReplay nonzeroCrates
      registryRuntime mainnetConfig (mainnetGenesis initialAmount)) 1
      [.transfer (.reward CHAIN_ID_MAINNET "miner" 0)] = true) :
    (foreignReplay initialAmount).Complete nonzeroCrates registryRuntime mainnetConfig 0 := by
  have hprevious : (mainnetTemplate initialAmount).previousHash = hexEncode zeroDigest.toList := by
    change zeroHash = _
    decide
  obtain ⟨hash, -, hstored⟩ := storedHash_eq nonzeroCrates hprevious rfl
  refine complete_mineAll _ _ _ _ nonzeroCrates_ne headerBlind_registryVm _
    ⟨mainnetGenesis initialAmount, hash, rfl, hstored, rfl⟩ (complete_genesisReplay _ _ _ _ hgenesis)
    ?_
  exact Bool.and_eq_true_iff.mpr ⟨hmine, rfl⟩

theorem adoptForeign_ok
    (h : (foreignReplay initialAmount).Complete nonzeroCrates registryRuntime mainnetConfig 0)
    (hwins : Blockchain.shouldAdopt mainnetNode.chain (foreignReplay initialAmount).done = .ok true)
    (hwork : (cumulativeWork (foreignReplay initialAmount).done).isOk = true) :
    ∃ node', (adoptForeign initialAmount).run mainnetNode = .ok true node' :=
  ⟨_, tryAdoptCandidate_adopts _ _ hwins ((rebuildFromChain_ok _ _).mpr
    ⟨_, h, rfl, rfl⟩) rfl rfl (cumulativeWork_of_isOk hwork)⟩

/-- **A mainnet node adopts a chain with another genesis.** -/
theorem adoption_changes_mainnet_genesis :
    ¬ ∀ (node node' : Blockchain) (old new : Block) (candidate : List Block),
      node.chain.head? = some old →
      validateGenesis nonzeroCrates old node.chainId = .ok () →
      (Blockchain.tryAdoptCandidate nonzeroCrates registryRuntime candidate none [] 1 0 []).run
        node = .ok true node' →
      node'.chain.head? = some new →
      nonzeroCrates.blockHash new = nonzeroCrates.blockHash old ∧
        validateGenesis nonzeroCrates new node'.chainId = .ok () := by
  intro h
  obtain ⟨node', hrun⟩ := adoptForeign_ok (@complete_foreignReplay 0 (by
    unfold mainnetGenesis mainnetTemplate
    rw [nonzeroCrates_eq]
    decide +kernel) (by decide +kernel))
    (by decide +kernel) (by decide +kernel)
  rcases tryAdoptCandidate_ok _ _ hrun with ⟨⟨⟩, -⟩ | ⟨-, hadopted⟩
  have hfirst : node'.chain.head? = some (mainnetGenesis 0) := by
    rw [hadopted.chain]
    rfl
  have hchainId : node'.chainId = CHAIN_ID_MAINNET := congrArg NodeConfig.chainId hadopted.config
  have hvalid := (h mainnetNode node' _ _ _ rfl pinned_mainnetGenesis hrun hfirst).2
  rw [hchainId] at hvalid
  have hrefused : (validateGenesis nonzeroCrates (mainnetGenesis 0) CHAIN_ID_MAINNET).isOk =
      false := by
    unfold mainnetGenesis mainnetTemplate
    rw [nonzeroCrates_eq]
    decide +kernel
  rw [isOk_iff.mpr ⟨_, hvalid⟩] at hrefused
  cases hrefused

/-- A longer chain on the pinned genesis is adopted and keeps it. -/
theorem adoption_keeps_mainnet_genesis :
    ∃ node', (adoptForeign 1000000000).run mainnetNode = .ok true node' ∧
      ∃ first, node'.chain.head? = some first ∧
        nonzeroCrates.blockHash first = nonzeroCrates.blockHash (mainnetGenesis 1000000000) ∧
        validateGenesis nonzeroCrates first node'.chainId = .ok () := by
  obtain ⟨node', hrun⟩ := adoptForeign_ok (@complete_foreignReplay 1000000000 (by
    unfold mainnetGenesis mainnetTemplate
    rw [nonzeroCrates_eq]
    decide +kernel) (by decide +kernel))
    (by decide +kernel) (by decide +kernel)
  refine ⟨node', hrun, (adoption_keeps_genesis_iff nonzeroCrates registryRuntime mainnetNode node'
    (mainnetGenesis 1000000000) (mainnetGenesis 1000000000) _ _ _ _ _ _ rfl pinned_mainnetGenesis
    rfl ?_ hrun).mpr ?_⟩
  · intro x y hx hy _
    rw [hx] at hy
    exact Except.ok.inj hy
  · exact pinned_mainnetGenesis

end Strangecoin
