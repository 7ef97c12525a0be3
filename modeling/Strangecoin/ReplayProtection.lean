import Strangecoin.KeyAccounts
import Strangecoin.MergeOrder

/-! # Replay protection over whole chains

A block is applied without a look at the nonces its transactions carry: each one raises
the account nonce of its sender and that is all.  Whether every transaction was applied
at its own nonce, and none twice, is a property of the chain alone (`NoncesCount`).

At genesis nothing raises a nonce, so a sender there must have no other transaction.
-/
namespace Strangecoin
open List

/-! ### The nonces of a chain -/

/-- The nonce of a transaction, if `a` has signed it. -/
def carriedBy (a : String) (tx : Transaction) : List Nat :=
  if tx.isCoinbase = false ∧ tx.sender = a then [tx.nonce.toNat] else []

/-- The nonces of the transactions `a` has signed, in order. -/
def carriedNonces (a : String) (txs : List Transaction) : List Nat := txs.flatMap (carriedBy a)

def chainTxs (chain : List Block) : List Transaction := chain.flatMap Block.transactions

/-- The transactions other than coinbases. -/
def signedTxs (txs : List Transaction) : List Transaction :=
  txs.filter fun tx => !tx.isCoinbase

def senderNonces (txs : List Transaction) : List (String × UInt64) :=
  (signedTxs txs).map fun tx => (tx.sender, tx.nonce)

/-- **The nonces of every sender count up from one** over the whole chain, and a sender
of the genesis block sends nothing else. -/
def NoncesCount (chain : List Block) : Prop :=
  ∀ a, CountsFrom 0 (carriedNonces a (chainTxs chain)) ∧
    (carriedNonces a (chainTxs (chain.take 1)) ≠ [] →
      (carriedNonces a (chainTxs chain)).length = 1)

theorem carriedNonces_cons (a : String) (tx : Transaction) (txs : List Transaction) :
    carriedNonces a (tx :: txs) = carriedBy a tx ++ carriedNonces a txs :=
  flatMap_cons

theorem carriedNonces_append (a : String) (txs txs' : List Transaction) :
    carriedNonces a (txs ++ txs') = carriedNonces a txs ++ carriedNonces a txs' :=
  flatMap_append

variable {txs : List Transaction} {a : String}

theorem mem_carriedNonces {n : Nat} :
    n ∈ carriedNonces a txs ↔
      ∃ tx ∈ txs, tx.isCoinbase = false ∧ tx.sender = a ∧ tx.nonce.toNat = n := by
  rw [carriedNonces, mem_flatMap]
  refine exists_congr fun tx => and_congr_right fun _ => ?_
  unfold carriedBy
  split
  · rename_i h
    simp [h, eq_comm]
  · rename_i h
    simp only [not_mem_nil, false_iff]
    rintro ⟨hflag, hsender, -⟩
    exact h ⟨hflag, hsender⟩

theorem mem_senderNonces {n : UInt64} :
    (a, n) ∈ senderNonces txs ↔ n.toNat ∈ carriedNonces a txs := by
  rw [senderNonces, mem_map, mem_carriedNonces]
  constructor
  · rintro ⟨tx, htx, heq⟩
    obtain ⟨hmem, hflag⟩ := mem_filter.mp htx
    obtain ⟨hsender, hnonce⟩ := Prod.mk.inj heq
    exact ⟨tx, hmem, by simpa using hflag, hsender, by rw [hnonce]⟩
  · rintro ⟨tx, hmem, hflag, hsender, hnonce⟩
    refine ⟨tx, mem_filter.mpr ⟨hmem, by simp [hflag]⟩, ?_⟩
    rw [hsender, UInt64.toNat_inj.mp hnonce]

/-- No pair of sender and nonce occurs twice if no nonce of one sender does. -/
theorem nodup_senderNonces : (senderNonces txs).Nodup ↔ ∀ a, (carriedNonces a txs).Nodup := by
  induction txs with
  | nil => simp [senderNonces, signedTxs, carriedNonces]
  | cons tx txs ih =>
    cases hflag : tx.isCoinbase with
    | true =>
      have hskip : senderNonces (tx :: txs) = senderNonces txs := by
        simp [senderNonces, signedTxs, hflag]
      simp only [hskip, ih, carriedNonces_cons, carriedBy, hflag, Bool.true_eq_false, false_and,
        if_false, nil_append]
    | false =>
      have htake : senderNonces (tx :: txs) = (tx.sender, tx.nonce) :: senderNonces txs := by
        simp [senderNonces, signedTxs, hflag]
      rw [htake, nodup_cons, ih, mem_senderNonces]
      constructor
      · rintro ⟨hnew, hrest⟩ a
        rw [carriedNonces_cons, carriedBy]
        split
        · rename_i h
          obtain ⟨-, rfl⟩ := h
          exact nodup_cons.mpr ⟨hnew, hrest _⟩
        · exact hrest a
      · intro hall
        have hown := hall tx.sender
        rw [carriedNonces_cons, carriedBy, if_pos ⟨hflag, rfl⟩] at hown
        refine ⟨(nodup_cons.mp hown).1, fun a => ?_⟩
        have ha := hall a
        rw [carriedNonces_cons] at ha
        exact (nodup_append.mp ha).2.1

/-! ### One block -/

/-- A signed transaction has the nonce after its sender's account nonce, by the check of
`validate_nonce`. -/
def NonceMatches {V : Type} (p : Progress V) (e : Transaction × Nat) : Prop :=
  e.1.isCoinbase = false → validateNonce e.1.nonce (p.state.getNonce e.1.sender) = .ok ()

section
variable {V : Type} {crates : Crates} {exec : VmExecutor V} {chainId : UInt32} {block : Block}

theorem nonceMatches_iff {p : Progress V} {e : Transaction × Nat}
    (hkey : e.1.isCoinbase = false → HasKey crates e.1.sender) :
    NonceMatches p e ↔
      ∀ a, HasKey crates a → CountsFrom (p.state.getNonce a).toNat (carriedBy a e.1) := by
  unfold NonceMatches carriedBy
  rw [validateNonce_ok]
  constructor
  · intro h a _
    split
    · rename_i hown
      obtain ⟨hflag, rfl⟩ := hown
      exact countsFrom_cons.mpr ⟨h hflag, countsFrom_nil⟩
    · exact countsFrom_nil
  · intro h hflag
    have hown := h e.1.sender (hkey hflag)
    rw [if_pos ⟨hflag, rfl⟩] at hown
    exact (countsFrom_cons.mp hown).1

theorem nonce_applyTx (hcodec : AddressCodec crates) (ha : HasKey crates a) {p q : Progress V}
    {e : Transaction × Nat} (hstep : applyTx crates exec chainId block p e = .ok q) :
    q.state.getNonce a = p.state.getNonce a + UInt64.ofNat (carriedBy a e.1).length := by
  unfold carriedBy
  rcases applyTx_ok hstep with ⟨hcoinbase, rfl⟩ | ⟨hflag, _, -, -, -, heffect⟩
  · rw [if_neg (by simp [hcoinbase])]
    exact (UInt64.add_zero _).symm
  · rw [heffect.nonce hcodec ha]
    by_cases hown : a = e.1.sender
    · rw [if_pos hown, if_pos ⟨hflag, hown.symm⟩]
      rfl
    · rw [if_neg hown, if_neg fun h => hown h.2.symm]
      exact (UInt64.add_zero _).symm

/-- A transaction at its own nonce does not make the account nonce wrap. -/
theorem nonce_after_applyTx (hcodec : AddressCodec crates) {p q : Progress V}
    {e : Transaction × Nat} (hmatch : NonceMatches p e)
    (hstep : applyTx crates exec chainId block p e = .ok q) (ha : HasKey crates a) :
    (q.state.getNonce a).toNat = (p.state.getNonce a).toNat + (carriedBy a e.1).length := by
  rw [nonce_applyTx hcodec ha hstep, carriedBy]
  split
  · rename_i hown
    have hnonce := validateNonce_ok.mp (hmatch hown.1)
    have hlt := e.1.nonce.toNat_lt
    rw [hown.2] at hnonce
    rw [UInt64.toNat_add]
    exact Nat.mod_eq_of_lt (show _ + 1 < _ by omega)
  · exact congrArg UInt64.toNat (UInt64.add_zero _)

theorem flatMap_zipIdx {β : Type} (f : Transaction → List β) (txs : List Transaction) (n : Nat) :
    (txs.zipIdx n).flatMap (fun e => f e.1) = txs.flatMap f := by
  have h := congrArg (List.flatMap f) (zipIdx_map_fst n txs)
  rwa [flatMap_map] at h

theorem forall_mem_zipIdx {P : Transaction → Prop} :
    (∀ e ∈ txs.zipIdx, P e.1) ↔ ∀ tx ∈ txs, P tx := by
  have h : txs.zipIdx.map Prod.fst = txs := zipIdx_map_fst 0 txs
  rw [← forall_mem_map, h]

/-- The nonces of a block after genesis count on from the account nonces if and only if
every transaction meets its own. -/
theorem atEachTx_nonces (hcodec : AddressCodec crates) {s s' : State} {vm vm' : Option V}
    (hindex : block.index ≠ 0)
    (hkeys : ∀ tx ∈ block.transactions, tx.isCoinbase = false → HasKey crates tx.sender)
    (happly : applyBlockInner crates exec s block chainId vm = .ok (s', vm')) :
    (AtEachTx crates exec chainId block s vm NonceMatches ↔
      ∀ a, HasKey crates a →
        CountsFrom (s.getNonce a).toNat (carriedNonces a block.transactions)) ∧
    (AtEachTx crates exec chainId block s vm NonceMatches →
      ∀ a, HasKey crates a → (s'.getNonce a).toNat =
        (s.getNonce a).toNat + (carriedNonces a block.transactions).length) := by
  have hpos : 0 < block.index := UInt64.pos_iff_ne_zero.mpr hindex
  obtain ⟨-, cb, i, s₁, p, hcb, hle, hcredit, hrun, ⟨⟩⟩ := (applyBlockInner_ok hpos).mp happly
  have hcoinbase : applyCoinbase crates ⟨{ s with receipts := [] }, vm, []⟩ block chainId =
      .ok ⟨s₁, vm, [transferReceipt crates (.transfer cb) block (UInt32.ofNat i) []]⟩ :=
    applyCoinbase_ok.mpr ⟨cb, i, s₁, hcb, hle, hcredit, rfl⟩
  have hnonces := State.getNonce_credit hcredit
  change s₁.getNonce = s.getNonce at hnonces
  have hkeys' : ∀ e ∈ block.transactions.zipIdx, e.1.isCoinbase = false →
      HasKey crates e.1.sender := forall_mem_zipIdx.mpr hkeys
  have hall := eachStep_countsFrom (P := NonceMatches (V := V)) (K := HasKey crates)
    (I := fun _ => True) (fun p a => (p.state.getNonce a).toNat) (fun a e => carriedBy a e.1)
    (fun _ _ _ _ _ _ => trivial)
    (fun p e he q _ _ => nonceMatches_iff (hkeys' e he))
    (fun p e he q _ hstep hmatch a ha => nonce_after_applyTx hcodec hmatch hstep ha) trivial hrun
  simp only [flatMap_zipIdx, hnonces] at hall
  have heach : AtEachTx crates exec chainId block s vm NonceMatches ↔
      EachStep (applyTx crates exec chainId block) NonceMatches
        ⟨s₁, vm, [transferReceipt crates (.transfer cb) block (UInt32.ofNat i) []]⟩
        block.transactions.zipIdx := by
    constructor
    · intro h
      exact h _ hcoinbase
    · intro h p hp
      rw [hcoinbase] at hp
      exact Except.ok.inj hp ▸ h
  rw [heach]
  exact hall

/-- At genesis every account nonce stays what it is. -/
theorem genesis_nonces {p p' : Progress V} {es : List (Transaction × Nat)}
    (hp : ∀ a, p.state.getNonce a = 0)
    (hrun : es.foldlM (applyGenesisTx crates chainId block) p = .ok p') :
    (∀ a, p'.state.getNonce a = 0) ∧
      (EachStep (applyGenesisTx crates chainId block) NonceMatches p es ↔
        ∀ e ∈ es, e.1.isCoinbase = false → e.1.nonce.toNat = 1) := by
  induction es generalizing p with
  | nil =>
    obtain rfl := foldlM_nil_ok.mp hrun
    exact ⟨hp, by simp⟩
  | cons e es ih =>
    obtain ⟨q, hstep, hrest⟩ := foldlM_cons_ok.mp hrun
    have hq : ∀ a, q.state.getNonce a = 0 := by
      unfold applyGenesisTx at hstep
      obtain ⟨_, -, hstep⟩ := bind_eq_ok.mp hstep
      obtain ⟨tx, i⟩ := e
      cases tx with
      | transfer tx =>
        obtain ⟨s₁, hcredit, ⟨⟩⟩ := bind_eq_ok.mp hstep
        intro a
        have hcredit : p.state.credit tx.receiver tx.amount = .ok s₁ := hcredit
        exact (congrFun (State.getNonce_credit hcredit) a).trans (hp a)
      | create create => cases hstep
      | call call => cases hstep
    obtain ⟨hlast, hiff⟩ := ih hq hrest
    refine ⟨hlast, ?_⟩
    rw [eachStep_cons hstep, hiff, forall_mem_cons]
    refine and_congr_left fun _ => imp_congr_right fun _ => ?_
    rw [validateNonce_ok, hp]
    rfl

end

/-! ### Chains -/

section
variable {V : Type} (crates : Crates) (rt : Runtime V) (config : NodeConfig) (now : UInt64)

/-- Every signed transaction of the next block has the nonce after its sender's account
nonce when it is applied. -/
def NextMatchesNonces (r : Replay) (block : Block) : Prop :=
  if block.index = 0 then
    EachStep (applyGenesisTx crates config.chainId block) NonceMatches
      ⟨{ r.state with receipts := [] }, some (rt.seed r.codes), []⟩ block.transactions.zipIdx
  else AtEachTx crates rt.exec config.chainId block r.state (some (rt.seed r.codes)) NonceMatches

/-- **Replay protection**: on the way through the chain every signed transaction meets its
own nonce; no pair of sender and nonce, and no signed transaction, is applied twice. -/
structure ReplayProtected (chain : List Block) : Prop where
  nonces : EachStep (replayBlock crates rt config now) (NextMatchesNonces crates rt config)
    Replay.start chain
  pairs : (senderNonces (chainTxs chain)).Nodup
  signed : (signedTxs (chainTxs chain)).Nodup

variable {crates rt config now}

theorem keys_of_validBlock {parent state : State} {block : Block} {view : BlockView}
    (hvalid : ValidBlock crates rt parent block view state)
    (hgrant : view.allowGrantBlocks = false) :
    ∀ tx ∈ block.transactions, tx.isCoinbase = false → HasKey crates tx.sender := by
  intro tx htx hflag
  have htxs := hvalid.transactions
  unfold validateTransactions at htxs
  rw [if_neg (by simp [hgrant])] at htxs
  have htx := forM_ok.mp htxs tx htx
  obtain ⟨⟨⟩, -, hverify⟩ := bind_eq_ok.mp htx
  exact hasKey_of_verify hflag (liftCore_eq_ok.mp hverify)

theorem index_ne_zero {parent state : State} {block : Block} {view : BlockView}
    (hvalid : ValidBlock crates rt parent block view state) (hchain : view.chain ≠ []) :
    block.index ≠ 0 := by
  intro hindex
  have hposition := hvalid.position
  unfold validatePosition at hposition
  rw [if_pos hindex] at hposition
  obtain ⟨⟨⟩, hempty, -⟩ := bind_eq_ok.mp hposition
  exact hchain (guardNode_eq_ok.mp hempty)

/-- After genesis the transactions meet their nonces exactly when the nonces count on
from the accounts of the genesis state. -/
theorem replay_nonces (hcodec : AddressCodec crates) (hgrant : config.allowGrantBlocks = false)
    {r r' : Replay} {chain : List Block} (hr : r.done ≠ [])
    (hrun : chain.foldlM (replayBlock crates rt config now) r = .ok r') :
    EachStep (replayBlock crates rt config now) (NextMatchesNonces crates rt config) r chain ↔
      ∀ a, HasKey crates a →
        CountsFrom (r.state.getNonce a).toNat (carriedNonces a (chainTxs chain)) := by
  have hblock : ∀ (r : Replay) (block : Block) (r' : Replay), r.done ≠ [] →
      replayBlock crates rt config now r block = .ok r' →
      r'.done ≠ [] ∧
      (NextMatchesNonces crates rt config r block ↔ ∀ a, HasKey crates a →
        CountsFrom (r.state.getNonce a).toNat (carriedNonces a block.transactions)) ∧
      (NextMatchesNonces crates rt config r block → ∀ a, HasKey crates a →
        (r'.state.getNonce a).toNat =
          (r.state.getNonce a).toNat + (carriedNonces a block.transactions).length) := by
    intro r block r' hr hstep
    obtain ⟨state, hvalid, rfl⟩ := (replayBlock_ok crates rt).mp hstep
    obtain ⟨vm, happly⟩ := hvalid.applyBlockInner
    have hindex := index_ne_zero hvalid hr
    have hnonces := atEachTx_nonces hcodec hindex (keys_of_validBlock hvalid hgrant) happly
    refine ⟨by simp, ?_⟩
    rw [NextMatchesNonces, if_neg hindex]
    exact hnonces
  have hall := (eachStep_countsFrom (P := NextMatchesNonces crates rt config) (K := HasKey crates)
    (I := fun r => r.done ≠ []) (fun r a => (r.state.getNonce a).toNat)
    (fun a block => carriedNonces a block.transactions)
    (fun r b _ r' hr hstep => (hblock r b r' hr hstep).1)
    (fun r b _ r' hr hstep => (hblock r b r' hr hstep).2.1)
    (fun r b _ r' hr hstep => (hblock r b r' hr hstep).2.2) hr hrun).1
  rw [hall]
  refine forall_congr' fun a => imp_congr_right fun _ => ?_
  rw [carriedNonces, chainTxs, flatMap_assoc]
  rfl

/-- What the genesis block has to satisfy, and the nonces it leaves. -/
theorem genesis_block_nonces {genesis : Block} {r : Replay}
    (hstep : replayBlock crates rt config now Replay.start genesis = .ok r) :
    (∀ a, r.state.getNonce a = 0) ∧
      (NextMatchesNonces crates rt config Replay.start genesis ↔
        ∀ tx ∈ genesis.transactions, tx.isCoinbase = false → tx.nonce.toNat = 1) := by
  obtain ⟨state, hvalid, rfl⟩ := (replayBlock_ok crates rt).mp hstep
  obtain ⟨vm, happly⟩ := hvalid.applyBlockInner
  have hindex : genesis.index = 0 := hvalid.index
  unfold applyBlockInner applyGenesis at happly
  rw [if_pos hindex] at happly
  obtain ⟨p, hrun, ⟨⟩⟩ := bind_eq_ok.mp happly
  obtain ⟨hlast, hiff⟩ := genesis_nonces (fun a => rfl) hrun
  refine ⟨hlast, ?_⟩
  rw [NextMatchesNonces, if_pos hindex]
  exact hiff.trans (forall_mem_zipIdx (P := fun tx => tx.isCoinbase = false → tx.nonce.toNat = 1))

/-- The nonces of a sender of the genesis block and those that follow count up, the ones
at genesis alone, if and only if both count from the state and none occurs twice. -/
theorem countsFrom_genesis {gs ns : List Nat} :
    ((∀ n ∈ gs, n = 1) ∧ CountsFrom 0 ns ∧ (gs ++ ns).Nodup) ↔
      CountsFrom 0 (gs ++ ns) ∧ (gs ≠ [] → (gs ++ ns).length = 1) := by
  cases gs with
  | nil =>
    simp only [not_mem_nil, false_imp_iff, implies_true, nil_append, true_and, ne_eq,
      not_true_eq_false, and_true]
    exact ⟨fun h => h.1, fun h => ⟨h, h.nodup⟩⟩
  | cons g gs =>
    rw [cons_append, forall_mem_cons, countsFrom_cons, nodup_cons, length_cons]
    constructor
    · rintro ⟨⟨rfl, hgs⟩, hns, hnew, -⟩
      -- another `1` would stand twice
      have hnil : gs ++ ns = [] := by
        rcases gs with _ | ⟨g, gs⟩
        · rcases ns with _ | ⟨n, ns⟩
          · rfl
          · exact absurd (by simp [(countsFrom_cons.mp hns).1]) hnew
        · exact absurd (by simp [hgs g mem_cons_self]) hnew
      rw [hnil]
      exact ⟨⟨rfl, countsFrom_nil⟩, fun _ => rfl⟩
    · rintro ⟨⟨rfl, -⟩, hlength⟩
      have hnil : gs ++ ns = [] :=
        eq_nil_of_length_eq_zero (Nat.succ.inj (hlength (cons_ne_nil _ _)))
      obtain ⟨rfl, rfl⟩ := append_eq_nil_iff.mp hnil
      simp

/-- Every account whose transactions a chain has signed has a key. -/
theorem carriedNonces_keyless (hgrant : config.allowGrantBlocks = false) {r r' : Replay}
    {chain : List Block} (hrun : chain.foldlM (replayBlock crates rt config now) r = .ok r')
    (ha : ¬ HasKey crates a) : carriedNonces a (chainTxs chain) = [] := by
  induction chain generalizing r with
  | nil => rfl
  | cons block chain ih =>
    obtain ⟨u, hu, hrest⟩ := foldlM_cons_ok.mp hrun
    obtain ⟨state, hvalid, -⟩ := (replayBlock_ok crates rt).mp hu
    rw [chainTxs, flatMap_cons, carriedNonces_append]
    refine append_eq_nil_iff.mpr ⟨?_, ih hrest⟩
    refine eq_nil_iff_forall_not_mem.mpr fun n hn => ?_
    obtain ⟨tx, htx, hflag, rfl, -⟩ := mem_carriedNonces.mp hn
    exact ha (keys_of_validBlock hvalid hgrant tx htx hflag)

/-- **When replay is impossible.**  On a chain that the rebuild accepts, every signed
transaction was applied at its own nonce, and none twice, if and only if the nonces the
chain carries count up from one, sender by sender. -/
theorem replay_protected_iff (hcodec : AddressCodec crates)
    (hgrant : config.allowGrantBlocks = false) {chain : List Block} {cache : StateCache}
    {receipts : List Receipt}
    (h : rebuildFromChain crates rt config chain now = .ok (cache, receipts)) :
    ReplayProtected crates rt config now chain ↔ NoncesCount chain := by
  obtain ⟨r, hrun, -, -⟩ := (rebuildFromChain_ok crates rt).mp h
  have hsplit : ReplayProtected crates rt config now chain ↔
      EachStep (replayBlock crates rt config now) (NextMatchesNonces crates rt config)
        Replay.start chain ∧ ∀ a, (carriedNonces a (chainTxs chain)).Nodup := by
    rw [← nodup_senderNonces]
    exact ⟨fun h => ⟨h.nonces, h.pairs⟩, fun h => ⟨h.1, h.2, h.2.of_map⟩⟩
  rw [hsplit]
  cases chain with
  | nil => simp [NoncesCount, chainTxs, carriedNonces]
  | cons genesis chain =>
    obtain ⟨u, hu, hrest⟩ := foldlM_cons_ok.mp hrun
    obtain ⟨hzero, hgenesis⟩ := genesis_block_nonces hu
    have hdone : u.done ≠ [] := by
      obtain ⟨state, -, rfl⟩ := (replayBlock_ok crates rt).mp hu
      simp
    have hgenesis' : (∀ tx ∈ genesis.transactions, tx.isCoinbase = false → tx.nonce.toNat = 1) ↔
        ∀ a, ∀ n ∈ carriedNonces a genesis.transactions, n = 1 := by
      constructor
      · intro hone a n hn
        obtain ⟨tx, htx, hflag, -, rfl⟩ := mem_carriedNonces.mp hn
        exact hone tx htx hflag
      · intro hone tx htx hflag
        exact hone tx.sender _ (mem_carriedNonces.mpr ⟨tx, htx, hflag, rfl, rfl⟩)
    have hlater : (∀ a, HasKey crates a →
        CountsFrom (u.state.getNonce a).toNat (carriedNonces a (chainTxs chain))) ↔
        ∀ a, CountsFrom 0 (carriedNonces a (chainTxs chain)) := by
      refine forall_congr' fun a => ?_
      rw [hzero a]
      refine ⟨fun hkey => ?_, fun hcounts _ => hcounts⟩
      by_cases ha : HasKey crates a
      · exact hkey ha
      · rw [carriedNonces_keyless hgrant hrest ha]
        exact countsFrom_nil
    rw [eachStep_cons hu, hgenesis, hgenesis', replay_nonces hcodec hgrant hdone hrest, hlater]
    have hall : ∀ a, carriedNonces a (chainTxs (genesis :: chain)) =
        carriedNonces a genesis.transactions ++ carriedNonces a (chainTxs chain) := by
      intro a
      rw [chainTxs, flatMap_cons, carriedNonces_append]
      rfl
    have hfirst : chainTxs ((genesis :: chain).take 1) = genesis.transactions := by
      simp [chainTxs]
    simp only [NoncesCount, hall, hfirst, ← countsFrom_genesis]
    exact ⟨fun h a => ⟨h.1.1 a, h.1.2 a, h.2 a⟩,
      fun h => ⟨⟨fun a => (h a).1, fun a => (h a).2.1⟩, fun a => (h a).2.2⟩⟩

end

/-! ### Two chains on regtest -/

/-- The reference crates with an encoder that checks its own output. -/
def checkedCrates : Crates :=
  { nonzeroCrates with
    bech32Encode := fun hrp payload =>
      if bech32mDecode (bech32mEncode hrp payload) = some (hrp, payload) then
        .ok (bech32mEncode hrp payload)
      else .error "not decodable" }

theorem checkedCrates_eq : checkedCrates =
    { evalCrates with bech32Encode := checkedCrates.bech32Encode } := by
  unfold checkedCrates
  rw [nonzeroCrates_eq]

theorem addressCodec_checkedCrates : AddressCodec checkedCrates := by
  constructor
  · intro network hrp payload address _ hencode
    dsimp only [checkedCrates] at hencode
    split at hencode
    · rename_i hdecode
      rw [← Except.ok.inj hencode]
      exact hdecode
    · cases hencode
  · intro bytes pk hslice
    have hkey : secp256k1PublicKey bytes = some pk := okOr_eq_ok.mp hslice
    unfold secp256k1PublicKey at hkey
    split at hkey
    · split at hkey
      · rename_i hlength
        exact .inl (by simp [hlength.1])
      · split at hkey
        · rename_i hlength
          exact .inr (by simp [hlength.1])
        · cases hkey
    · cases hkey

/-! ### The addresses of a key -/

/-- The sender is what `bech32` makes of its own payload, with the human-readable part of
the transaction's network and the key in its compressed form. -/
def OwnAddress (crates : Crates) (tx : Transaction) : Prop :=
  ∃ hrp payload, crates.bech32Decode tx.sender = some (hrp, payload) ∧
    hrpForNetwork tx.chainId = .ok hrp ∧ crates.publicKeyFromSlice payload = .ok payload ∧
    crates.bech32Encode hrp payload = .ok tx.sender

/-- **Which senders are the address of their key**, one for each key and network. -/
theorem sender_of_key_iff {crates : Crates} (hcodec : AddressCodec crates) (tx : Transaction)
    (hflag : tx.isCoinbase = false) (h : verifyTransaction crates tx = .ok ()) : ∃ key,
      recoverPubkeyFromSig crates tx.signature (serializeTransaction tx) = .ok key ∧
      (crates.encodeAddress key tx.chainId = .ok tx.sender ↔ OwnAddress crates tx) ∧
      ∀ tx' : Transaction, tx'.isCoinbase = false → verifyTransaction crates tx' = .ok () →
        recoverPubkeyFromSig crates tx'.signature (serializeTransaction tx') = .ok key →
        tx'.chainId = tx.chainId → OwnAddress crates tx → OwnAddress crates tx' →
        tx'.sender = tx.sender := by
  have hown : ∀ {tx : Transaction} {key : List UInt8 × UInt32},
      crates.decodeAddress tx.sender = .ok key → OwnAddress crates tx →
      crates.encodeAddress key.1 tx.chainId = .ok tx.sender := by
    rintro tx key hdecode ⟨hrp, payload, hpayload, hhrp, hslice, hencode⟩
    obtain ⟨hrp', data, hdata, hkey⟩ := slice_of_decodeAddress hdecode
    obtain ⟨-, rfl⟩ := Prod.mk.inj (Option.some.inj (hpayload.symm.trans hdata))
    rw [← Except.ok.inj (hslice.symm.trans hkey)]
    exact encodeAddress_ok.mpr ⟨hrp, hhrp, hencode⟩
  obtain ⟨key, hrecover, hdecode⟩ := recovered_of_verify hflag h
  refine ⟨key.1, hrecover, ⟨fun hsender => ?_, hown hdecode⟩,
    fun tx' hflag' h' hrecover' hnetwork hself hself' => ?_⟩
  · obtain ⟨hrp, hhrp, hencode⟩ := encodeAddress_ok.mp hsender
    obtain ⟨hrp', data, hdata, hkey⟩ := slice_of_decodeAddress hdecode
    have hpayload := hcodec.decode_encode _ _ _ _ hhrp hencode
    obtain ⟨-, rfl⟩ := Prod.mk.inj (Option.some.inj (hdata.symm.trans hpayload))
    exact ⟨hrp, key.1, hpayload, hhrp, hkey, hencode⟩
  · obtain ⟨key', hkey', hdecode'⟩ := recovered_of_verify hflag' h'
    have hsame := hown hdecode' hself'
    rw [← Except.ok.inj (hrecover'.symm.trans hkey'), hnetwork, hown hdecode hself] at hsame
    exact (Except.ok.inj hsame).symm

theorem verify_checkedTransfer : verifyTransaction checkedCrates firstTransfer = .ok () := by
  rw [checkedCrates_eq]
  decide +kernel

theorem sender_of_key_first : ∃ key, recoverPubkeyFromSig checkedCrates firstTransfer.signature
      (serializeTransaction firstTransfer) = .ok key ∧
    checkedCrates.encodeAddress key CHAIN_ID_REGTEST = .ok firstTransfer.sender := by
  obtain ⟨key, hkey, hiff, -⟩ := sender_of_key_iff addressCodec_checkedCrates firstTransfer rfl
    verify_checkedTransfer
  refine ⟨key, hkey, hiff.mpr ⟨"rsc", (bech32mDecode firstTransfer.sender).elim [] Prod.snd, ?_⟩⟩
  rw [checkedCrates_eq]
  decide +kernel

/-- A regtest transfer from the mainnet address of the deployer's key. -/
def foreignTransfer : Transaction :=
  .transfer ⟨"sc1qfumuen7l8wthtz45p3ftn58pvrs9xlumvkuu2xet8egzkcklqteskzhqjv", "recipient", 0, 0, 1,
    CHAIN_ID_REGTEST,
    [58, 146, 49, 246, 184, 136, 190, 198, 97, 80, 41, 122, 24, 49, 74, 175, 129, 223, 62, 108,
     204, 198, 253, 7, 202, 246, 4, 13, 15, 160, 201, 60, 23, 147, 198, 32, 148, 188, 95, 66,
     251, 218, 146, 202, 241, 91, 5, 92, 236, 79, 49, 254, 76, 255, 219, 230, 162, 119, 246,
     160, 15, 229, 193, 174, 1], false⟩

/-- **One key acts for two accounts of one network.** -/
theorem key_acts_for_two : verifyTransaction checkedCrates firstTransfer = .ok () ∧
    verifyTransaction checkedCrates foreignTransfer = .ok () ∧
    foreignTransfer.chainId = firstTransfer.chainId ∧
    foreignTransfer.sender ≠ firstTransfer.sender ∧
    ∃ key, recoverPubkeyFromSig checkedCrates firstTransfer.signature
        (serializeTransaction firstTransfer) = .ok key ∧
      recoverPubkeyFromSig checkedCrates foreignTransfer.signature
        (serializeTransaction foreignTransfer) = .ok key ∧
      checkedCrates.encodeAddress key CHAIN_ID_REGTEST = .ok firstTransfer.sender := by
  refine ⟨verify_checkedTransfer, ?_, rfl, by decide,
    (bech32mDecode firstTransfer.sender).elim [] Prod.snd, ?_⟩ <;>
  · rw [checkedCrates_eq]
    decide +kernel

/-- Two blocks with one transaction each. -/
def twoSteps (first second : Transaction) : List (UInt64 × List Transaction) :=
  [(100, [unpaid "miner", first]), (200, [unpaid "miner", second])]

/-- A chain mined on the regtest genesis with other crates. -/
theorem complete_minedWith {crates : Crates} (hnz : ∀ x, crates.blake3 x ≠ zeroDigest)
    {steps : List (UInt64 × List Transaction)}
    (hgenesis : (replayBlock crates registryRuntime regtestConfig 0 Replay.start
      regtestGenesis).isOk = true)
    (h : mineableAll crates registryRuntime regtestConfig 0 steps
      (genesisReplay crates registryRuntime regtestConfig regtestGenesis) = true) :
    (mineAll crates registryRuntime regtestConfig steps
      (genesisReplay crates registryRuntime regtestConfig regtestGenesis)).Complete crates
        registryRuntime regtestConfig 0 :=
  complete_mineAll crates registryRuntime regtestConfig 0 hnz headerBlind_registryVm _
    hasTip_regtestReplay (complete_genesisReplay _ _ _ _ hgenesis) h

/-- Two transfers in order, on the regtest genesis. -/
def orderedReplay : Replay :=
  mineAll checkedCrates registryRuntime regtestConfig (twoSteps firstTransfer secondTransfer)
    (genesisReplay checkedCrates registryRuntime regtestConfig regtestGenesis)

theorem complete_orderedReplay :
    orderedReplay.Complete checkedCrates registryRuntime regtestConfig 0 := by
  refine @complete_minedWith checkedCrates nonzeroCrates_ne _ ?_ ?_
  · rw [checkedCrates_eq, regtestGenesis_eq]
    decide +kernel
  · rw [checkedCrates_eq, regtestGenesis_eq]
    decide +kernel

theorem noncesCount_orderedReplay : NoncesCount orderedReplay.done := by
  -- only the deployer has signed anything, and nothing at genesis
  have htxs : chainTxs orderedReplay.done =
      [.coinbase "genesis" "regtest_initial_holder" 1000000000 CHAIN_ID_REGTEST, unpaid "miner",
        firstTransfer, unpaid "miner", secondTransfer] := rfl
  have hsigned : ∀ tx ∈ chainTxs orderedReplay.done, tx.isCoinbase = false →
      tx.sender = deployer := by
    rw [htxs]
    decide
  intro a
  refine ⟨?_, fun hsent => absurd rfl hsent⟩
  by_cases ha : a = deployer
  · rw [ha, htxs]
    decide
  · have hnone : carriedNonces a (chainTxs orderedReplay.done) = [] := by
      refine eq_nil_iff_forall_not_mem.mpr fun n hn => ?_
      obtain ⟨tx, htx, hflag, rfl, -⟩ := mem_carriedNonces.mp hn
      exact ha (hsigned tx htx hflag)
    rw [hnone]
    exact countsFrom_nil

/-- Two transfers in order are each applied at their nonce. -/
theorem ordered_transfers_protected : ∃ cache receipts,
    rebuildFromChain checkedCrates registryRuntime regtestConfig orderedReplay.done 0 =
      .ok (cache, receipts) ∧
    ReplayProtected checkedCrates registryRuntime regtestConfig 0 orderedReplay.done := by
  have h := (rebuildFromChain_ok _ _).mpr ⟨_, complete_orderedReplay, rfl, rfl⟩
  exact ⟨_, _, h, (replay_protected_iff addressCodec_checkedCrates rfl h).mpr
    noncesCount_orderedReplay⟩

/-- The same signed transfer is accepted in two blocks. -/
theorem transfer_replayed : ∃ cache receipts,
    rebuildFromChain nonzeroCrates registryRuntime regtestConfig
      (regtestChain (twoSteps firstTransfer firstTransfer)).done 0 = .ok (cache, receipts) ∧
    ¬ ReplayProtected nonzeroCrates registryRuntime regtestConfig 0
      (regtestChain (twoSteps firstTransfer firstTransfer)).done := by
  have hcomplete := @complete_regtestChain 0 (twoSteps firstTransfer firstTransfer)
    clockInRange_zero (by decide +kernel)
  refine ⟨_, _, (rebuildFromChain_ok _ _).mpr ⟨_, hcomplete, rfl, rfl⟩, fun hprotected => ?_⟩
  have htxs : chainTxs (regtestChain (twoSteps firstTransfer firstTransfer)).done =
      [.coinbase "genesis" "regtest_initial_holder" 1000000000 CHAIN_ID_REGTEST, unpaid "miner",
        firstTransfer, unpaid "miner", firstTransfer] := rfl
  have hpairs := hprotected.pairs
  rw [htxs] at hpairs
  exact absurd hpairs (by decide)

end Strangecoin
