import Strangecoin.Witness
import Strangecoin.ApplySteps

/-! # A block of transfers reads and writes the accounts it touches

Without an executor the transition is **local**: on two states that agree on the
touched addresses it succeeds on both or on neither, and the results agree there again.  One
check looks further, the cap on the coinbase, which reads the supply of the whole state.
-/
namespace Strangecoin
open List

/-! ### Touched addresses -/

variable {a : String}

theorem mem_foldl_pushAddress {addrs addresses : List String} :
    a ∈ addrs.foldl pushAddress addresses ↔ a ∈ addresses ∨ a ∈ addrs := by
  induction addrs generalizing addresses with
  | nil => simp
  | cons addr addrs ih =>
    rw [foldl_cons, ih, pushAddress]
    by_cases h : addr ∈ addresses
    · rw [if_pos (by simpa using h), mem_cons]
      constructor
      · rintro (ha | ha)
        · exact .inl ha
        · exact .inr (.inr ha)
      · rintro (ha | rfl | ha)
        · exact .inl ha
        · exact .inl h
        · exact .inr ha
    · rw [if_neg (by simpa using h), mem_append, mem_singleton, mem_cons, or_assoc]

theorem mem_collectTouchedAddresses {block : Block} :
    a ∈ collectTouchedAddresses block ↔ ∃ tx ∈ block.transactions, a ∈ touchedBy tx := by
  have h : ∀ (txs : List Transaction) (addresses : List String),
      a ∈ txs.foldl (fun addresses tx => (touchedBy tx).foldl pushAddress addresses) addresses ↔
        a ∈ addresses ∨ ∃ tx ∈ txs, a ∈ touchedBy tx := by
    intro txs
    induction txs with
    | nil => simp
    | cons tx txs ih =>
      intro addresses
      rw [foldl_cons, ih, mem_foldl_pushAddress, or_assoc]
      simp
  rw [collectTouchedAddresses, h]
  simp

/-! ### Local steps -/

/-- The states hold the same accounts at the listed addresses. -/
def AgreeOn (A : List String) (s t : State) : Prop := ∀ a ∈ A, s.account a = t.account a

/-- The second state differs from the first at the listed addresses only. -/
def SameOutside (A : List String) (s s' : State) : Prop :=
  ∀ a, a ∉ A → s'.balances[a]? = s.balances[a]?

variable {addr : String}

section
variable {A : List String} {s t : State}

section
variable (h : AgreeOn A s t)
include h

theorem AgreeOn.symm : AgreeOn A t s := fun a ha => (h a ha).symm

theorem AgreeOn.getBalance (ha : a ∈ A) : s.getBalance a = t.getBalance a := by
  rw [State.getBalance_eq, State.getBalance_eq, h a ha]

theorem AgreeOn.getNonce (ha : a ∈ A) : s.getNonce a = t.getNonce a := by
  rw [State.getNonce_eq, State.getNonce_eq, h a ha]

theorem AgreeOn.setAccount (addr : String) (account : Account) :
    AgreeOn A (s.setAccount addr account) (t.setAccount addr account) := by
  intro a ha
  rw [State.account_setAccount, State.account_setAccount, h a ha]

theorem AgreeOn.setBalance (haddr : addr ∈ A) (b : UInt64) :
    AgreeOn A (s.setBalance addr b) (t.setBalance addr b) := by
  rw [State.setBalance_eq, State.setBalance_eq, h addr haddr]
  exact h.setAccount addr _

theorem AgreeOn.setNonce (haddr : addr ∈ A) (n : UInt64) :
    AgreeOn A (s.setNonce addr n) (t.setNonce addr n) := by
  rw [State.setNonce_eq, State.setNonce_eq, h addr haddr]
  exact h.setAccount addr _

end

theorem sameOutside_setAccount (haddr : addr ∈ A) (account : Account) :
    SameOutside A s (s.setAccount addr account) := by
  intro a ha
  rw [State.get?_setAccount, if_neg]
  rintro rfl
  exact ha haddr

end

/-- A step that reads and writes the accounts at the listed addresses only. -/
structure LocalOn (A : List String) (step : State → Except CoreError State) : Prop where
  agree : ∀ {s t s' : State}, AgreeOn A s t → step s = .ok s' →
    ∃ t', step t = .ok t' ∧ AgreeOn A s' t'
  frame : ∀ {s s' : State}, step s = .ok s' → SameOutside A s s'

section
variable {A : List String} {f g : State → Except CoreError State}

theorem LocalOn.bind (hf : LocalOn A f) (hg : LocalOn A g) : LocalOn A (fun s => f s >>= g) where
  agree := by
    intro s t s' hst h
    obtain ⟨m, hm, hs'⟩ := bind_eq_ok.mp h
    obtain ⟨n, hn, hmn⟩ := hf.agree hst hm
    obtain ⟨t', ht', hs't'⟩ := hg.agree hmn hs'
    exact ⟨t', bind_eq_ok.mpr ⟨n, hn, ht'⟩, hs't'⟩
  frame := by
    intro s s' h a ha
    obtain ⟨m, hm, hs'⟩ := bind_eq_ok.mp h
    rw [hg.frame hs' a ha, hf.frame hm a ha]

/-- A balance replaced by a function of itself, when that is defined. -/
theorem localOn_setBalance (haddr : addr ∈ A) (next : UInt64 → Option UInt64) (e : CoreError) :
    LocalOn A (fun s => okOr (next (s.getBalance addr)) e >>= fun b => .ok (s.setBalance addr b)) where
  agree := by
    intro s t s' hst h
    obtain ⟨b, hb, hs'⟩ := bind_eq_ok.mp h
    obtain rfl := Except.ok.inj hs'
    rw [hst.getBalance haddr] at hb
    exact ⟨_, bind_eq_ok.mpr ⟨b, hb, rfl⟩, hst.setBalance haddr b⟩
  frame := by
    intro s s' h
    obtain ⟨b, -, hs'⟩ := bind_eq_ok.mp h
    obtain rfl := Except.ok.inj hs'
    rw [State.setBalance_eq]
    exact sameOutside_setAccount haddr _

theorem localOn_credit (haddr : addr ∈ A) (amount : UInt64) :
    LocalOn A (fun s => s.credit addr amount) :=
  localOn_setBalance haddr (fun b => checkedAdd b amount) .stateOverflow

theorem localOn_debit (haddr : addr ∈ A) (amount : UInt64) :
    LocalOn A (fun s => s.debit addr amount) :=
  localOn_setBalance haddr (fun b => checkedSub b amount) .stateOverflow

variable {tx : TransferTx}

theorem localOn_deductSender (hsender : tx.sender ∈ A) :
    LocalOn A (fun s => s.deductSender tx) where
  agree := by
    intro s t s' hst h
    obtain ⟨_, hguard, hs'⟩ := bind_eq_ok.mp h
    obtain ⟨t', ht', hs't'⟩ := (localOn_debit hsender tx.amount).agree hst hs'
    rw [guardWith_eq_ok, hst.getBalance hsender] at hguard
    exact ⟨t', bind_eq_ok.mpr ⟨(), guardWith_eq_ok.mpr hguard, ht'⟩, hs't'⟩
  frame := by
    intro s s' h
    obtain ⟨_, -, hs'⟩ := bind_eq_ok.mp h
    exact (localOn_debit hsender tx.amount).frame hs'

theorem localOn_incrementNonce (hsender : tx.sender ∈ A) :
    LocalOn A (fun s => s.incrementNonce tx) where
  agree := by
    intro s t s' hst h
    obtain rfl := Except.ok.inj h
    rw [hst.getNonce hsender]
    exact ⟨_, rfl, hst.setNonce hsender _⟩
  frame := by
    intro s s' h
    obtain rfl := Except.ok.inj h
    rw [State.setNonce_eq]
    exact sameOutside_setAccount hsender _

theorem localOn_applyTransfer (hsender : tx.sender ∈ A) (hreceiver : tx.receiver ∈ A) :
    LocalOn A (fun s => applyTransfer s tx) :=
  (localOn_deductSender hsender).bind
    ((localOn_credit hreceiver tx.amount).bind (localOn_incrementNonce hsender))

end

/-! ### Blocks -/

section
variable {A : List String} {crates : Crates} {V : Type} {exec : VmExecutor V} {chainId : UInt32}
  {block : Block}

/-- **One transaction without an executor is local.** -/
theorem applyTx_local {p p' : Progress V} {e : Transaction × Nat}
    (hvm : p.vm = none) (htouched : ∀ a ∈ touchedBy e.1, a ∈ A)
    (h : applyTx crates exec chainId block p e = .ok p') :
    p'.vm = none ∧ SameOutside A p.state p'.state ∧
      ∀ q : Progress V, q.vm = none → AgreeOn A p.state q.state →
        ∃ q', applyTx crates exec chainId block q e = .ok q' ∧ q'.vm = none ∧
          AgreeOn A p'.state q'.state := by
  obtain ⟨tx, i⟩ := e
  unfold applyTx at h ⊢
  dsimp only at h htouched ⊢
  cases hcb : tx.isCoinbase with
  | true =>
    rw [hcb, if_pos rfl] at h
    obtain rfl := Except.ok.inj h
    exact ⟨hvm, fun _ _ => rfl, fun q hq hagree => ⟨q, rfl, hq, hagree⟩⟩
  | false =>
    rw [hcb, if_neg Bool.false_ne_true] at h
    cases tx with
    | transfer tx =>
      obtain ⟨s', hs', hp'⟩ := bind_eq_ok.mp h
      obtain rfl := Except.ok.inj hp'
      have hlocal : LocalOn A (fun s => applyTransfer s tx) := by
        rw [touchedBy, hcb] at htouched
        exact localOn_applyTransfer (htouched _ mem_cons_self)
          (htouched _ (mem_cons_of_mem _ mem_cons_self))
      refine ⟨hvm, hlocal.frame hs', fun q hq hagree => ?_⟩
      obtain ⟨t', ht', hs't'⟩ := hlocal.agree hagree hs'
      exact ⟨_, bind_eq_ok.mpr ⟨t', ht', rfl⟩, hq, hs't'⟩
    | create create =>
      rw [hvm] at h
      cases h
    | call call =>
      rw [hvm] at h
      cases h

/-- The transactions of a block without an executor. -/
theorem run_local {es : List (Transaction × Nat)} {p p' : Progress V}
    (hvm : p.vm = none) (htouched : ∀ e ∈ es, ∀ a ∈ touchedBy e.1, a ∈ A)
    (h : es.foldlM (applyTx crates exec chainId block) p = .ok p') :
    SameOutside A p.state p'.state ∧
      ∀ q : Progress V, q.vm = none → AgreeOn A p.state q.state →
        ∃ q', es.foldlM (applyTx crates exec chainId block) q = .ok q' ∧
          AgreeOn A p'.state q'.state := by
  induction es generalizing p with
  | nil =>
    obtain rfl := foldlM_nil_ok.mp h
    exact ⟨fun _ _ => rfl, fun q _ hagree => ⟨q, rfl, hagree⟩⟩
  | cons e es ih =>
    obtain ⟨m, hstep, hrest⟩ := foldlM_cons_ok.mp h
    obtain ⟨hm, hframe, hstep⟩ := applyTx_local hvm (htouched e mem_cons_self) hstep
    obtain ⟨hframe', hrest⟩ := ih hm (fun e he => htouched e (mem_cons_of_mem _ he)) hrest
    refine ⟨fun a ha => (hframe' a ha).trans (hframe a ha), fun q hq hagree => ?_⟩
    obtain ⟨n, hn, hnvm, hagree⟩ := hstep q hq hagree
    obtain ⟨q', hq', hagree⟩ := hrest n hnvm hagree
    exact ⟨q', foldlM_cons_ok.mpr ⟨n, hn, hq'⟩, hagree⟩

end

/-- The amount of the first coinbase is within the reward for the supply. -/
def CoinbaseWithin (block : Block) (chainId : UInt32) (supply : UInt64) : Prop :=
  ∀ cb i, coinbaseOf block = some (.transfer cb, i) →
    cb.amount ≤ blockRewardAtHeightForChain block.index supply chainId

theorem mem_transactions_of_coinbaseOf {block : Block} {tx : Transaction} {i : Nat}
    (h : coinbaseOf block = some (tx, i)) :
    tx ∈ block.transactions ∧ tx.isCoinbase = true := by
  have hfst := coinbaseOf_fst block
  rw [h] at hfst
  exact ⟨mem_of_find?_eq_some hfst.symm, find?_some hfst.symm⟩

/-- **A block is local, the cap apart.**  It changes touched accounts only, and it is
applied with the same outcome to every state that agrees on them and in which the
coinbase is within the reward. -/
theorem applyBlock_local {crates : Crates} {chainId : UInt32} {block : Block} {s s' : State}
    (hindex : 0 < block.index) (h : applyBlock crates s block chainId = .ok s') :
    CoinbaseWithin block chainId s.totalSupply ∧
      SameOutside (collectTouchedAddresses block) s s' ∧
      ∀ t, AgreeOn (collectTouchedAddresses block) s t →
        ((∃ t', applyBlock crates t block chainId = .ok t') ↔
          CoinbaseWithin block chainId t.totalSupply) ∧
        ∀ t', applyBlock crates t block chainId = .ok t' →
          AgreeOn (collectTouchedAddresses block) s' t' := by
  obtain ⟨r, hr, hs'⟩ := bind_eq_ok.mp h
  obtain rfl := Except.ok.inj hs'
  obtain ⟨hids, cb, i, s₁, p, hcb, hle, hcredit, hrun, rfl⟩ := (applyBlockInner_ok hindex).mp hr
  obtain ⟨hmem, hflag⟩ := mem_transactions_of_coinbaseOf hcb
  have hreceiver : cb.receiver ∈ collectTouchedAddresses block := by
    refine mem_collectTouchedAddresses.mpr ⟨_, hmem, ?_⟩
    rw [touchedBy, if_pos hflag]
    exact mem_cons_self
  have hcap : ∀ {supply : UInt64}, CoinbaseWithin block chainId supply ↔
      cb.amount ≤ blockRewardAtHeightForChain block.index supply chainId := by
    intro supply
    constructor
    · exact fun hwithin => hwithin cb i hcb
    · intro hle cb' i' hcb'
      obtain ⟨rfl, rfl⟩ : cb = cb' ∧ i = i' := by simpa [hcb] using hcb'
      exact hle
  have htouched : ∀ e ∈ block.transactions.zipIdx, ∀ a ∈ touchedBy e.1,
      a ∈ collectTouchedAddresses block := by
    intro e he a ha
    exact mem_collectTouchedAddresses.mpr ⟨e.1, fst_mem_of_mem_zipIdx he, ha⟩
  have hlocal := localOn_credit hreceiver cb.amount
  obtain ⟨hframe, hrun⟩ := run_local rfl htouched hrun
  refine ⟨hcap.mpr hle, fun a ha => (hframe a ha).trans (hlocal.frame hcredit a ha),
    fun t hagree => ?_⟩
  have hagree' : AgreeOn (collectTouchedAddresses block) { s with receipts := [] }
      { t with receipts := [] } := hagree
  obtain ⟨t₁, ht₁, hagree₁⟩ := hlocal.agree hagree' hcredit
  obtain ⟨q, hq, hagree₂⟩ := hrun ⟨t₁, none, _⟩ rfl hagree₁
  have hall : ∀ t', applyBlock crates t block chainId = .ok t' →
      CoinbaseWithin block chainId t.totalSupply ∧
        AgreeOn (collectTouchedAddresses block) p.state t' := by
    intro t' ht'
    obtain ⟨r', hr', heq⟩ := bind_eq_ok.mp ht'
    obtain rfl := Except.ok.inj heq
    obtain ⟨-, cb', i', t₁', q', hcb', hle', hcredit', hrun', rfl⟩ :=
      (applyBlockInner_ok hindex).mp hr'
    obtain ⟨rfl, rfl⟩ : cb = cb' ∧ i = i' := by simpa [hcb] using hcb'
    obtain rfl : t₁ = t₁' := Except.ok.inj (ht₁.symm.trans hcredit')
    obtain rfl : q = q' := Except.ok.inj (hq.symm.trans hrun')
    exact ⟨hcap.mpr hle', hagree₂⟩
  refine ⟨⟨fun ⟨t', ht'⟩ => (hall t' ht').1, fun hwithin => ?_⟩, fun t' ht' => (hall t' ht').2⟩
  exact ⟨_, bind_eq_ok.mpr ⟨_, (applyBlockInner_ok hindex).mpr
    ⟨hids, cb, i, t₁, q, hcb, hcap.mp hwithin, ht₁, hq, rfl⟩, rfl⟩⟩

end Strangecoin
