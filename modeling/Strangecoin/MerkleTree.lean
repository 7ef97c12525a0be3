import Mathlib

/-! # Binary Merkle trees over paths

A perfect binary tree of depth `n` assigns a digest to every path of `n` bits;
an inner node is `node left right`.  Nothing is assumed of `node` or of the
digests: where an argument needs that different pairs have different digests, it
asks for it on the pairs it meets, so that a failure is a collision of two pairs
that were really combined.

A multi-leaf update writes the new leaves into a table of known nodes and recomputes the
path of each of them in turn.  On the way a path may combine a stale sibling, but whatever it
computed from it is recomputed by the later path through that sibling.
-/
namespace Strangecoin
open List Function
namespace Merkle

variable {D : Type} (node : D → D → D)

/-! ### Trees and paths -/

/-- Digest of the subtree with `n` levels below the node at path `p`. -/
def treeHash (leaf : List Bool → D) : Nat → List Bool → D
  | 0, p => leaf p
  | n + 1, p => node (treeHash leaf n (p ++ [false])) (treeHash leaf n (p ++ [true]))

/-- The pair of children of a node, the on-path child on side `b`. -/
def joinPair (b : Bool) (below sibling : D) : D × D :=
  if b then (sibling, below) else (below, sibling)

/-- Digest of the node whose child on side `b` is `below`. -/
def join (b : Bool) (below sibling : D) : D :=
  node (joinPair b below sibling).1 (joinPair b below sibling).2

/-- The sibling subtrees met on the way down `path` from the node at `p`. -/
def siblings (leaf : List Bool → D) : List Bool → List Bool → List D
  | _, [] => []
  | p, b :: bs => treeHash node leaf bs.length (p ++ [!b]) :: siblings leaf (p ++ [b]) bs

/-- The digest at the top of a path, from the leaf and the siblings. -/
def foldPath : List Bool → List D → D → D
  | b :: bs, s :: ss, l => join node b (foldPath bs ss l) s
  | _, _, l => l

/-- The pairs combined by `foldPath`, from the top. -/
def pathPairs : List Bool → List D → D → List (D × D)
  | b :: bs, s :: ss, l => joinPair b (foldPath node bs ss l) s :: pathPairs bs ss l
  | _, _, _ => []

variable {node}

theorem joinPair_inj {b : Bool} {x y s t : D} (h : joinPair b x s = joinPair b y t) :
    x = y ∧ s = t := by
  cases b <;> simp_all [joinPair]

theorem treeHash_succ (leaf : List Bool → D) (n : Nat) (p : List Bool) (b : Bool) :
    treeHash node leaf (n + 1) p =
      join node b (treeHash node leaf n (p ++ [b])) (treeHash node leaf n (p ++ [!b])) := by
  cases b <;> rfl

variable {p : List Bool}

/-- A subtree depends only on the leaves below it. -/
theorem treeHash_congr {leaf leaf' : List Bool → D} {n : Nat}
    (h : ∀ q, q.length = n → leaf (p ++ q) = leaf' (p ++ q)) :
    treeHash node leaf n p = treeHash node leaf' n p := by
  induction n generalizing p with
  | zero => simpa [treeHash] using h [] rfl
  | succ n ih =>
    have hchild : ∀ b, treeHash node leaf n (p ++ [b]) = treeHash node leaf' n (p ++ [b]) := by
      intro b
      apply ih
      intro q hq
      simpa using h (b :: q) (by simp [hq])
    rw [treeHash, treeHash, hchild, hchild]

variable {path : List Bool}

/-- The siblings below a node depend only on the leaves below it. -/
theorem siblings_congr {leaf leaf' : List Bool → D}
    (h : ∀ q, q.length = path.length → leaf (p ++ q) = leaf' (p ++ q)) :
    siblings node leaf p path = siblings node leaf' p path := by
  induction path generalizing p with
  | nil => rfl
  | cons b bs ih =>
    have hsib : treeHash node leaf bs.length (p ++ [!b]) = treeHash node leaf' bs.length (p ++ [!b]) := by
      apply treeHash_congr
      intro q hq
      simpa using h ((!b) :: q) (by simp [hq])
    have hrest := ih (p := p ++ [b]) (fun q hq => by simpa using h (b :: q) (by simp [hq]))
    rw [siblings, siblings, hsib, hrest]

/-- The deepest level of a folding can be folded first. -/
theorem foldPath_concat {ss : List D} (hlen : ss.length = path.length) (b : Bool) (s l : D) :
    foldPath node (path ++ [b]) (ss ++ [s]) l = foldPath node path ss (join node b l s) := by
  induction path generalizing ss with
  | nil =>
    rw [length_nil, length_eq_zero_iff] at hlen
    subst hlen
    rfl
  | cons c cs ih =>
    obtain ⟨x, xs, rfl⟩ := exists_cons_of_length_eq_add_one hlen
    have hrec := @ih xs (by simpa using hlen)
    rw [cons_append, cons_append, foldPath, foldPath, hrec]

/-- **Completeness.** -/
theorem foldPath_siblings (leaf : List Bool → D) (p path : List Bool) :
    foldPath node path (siblings node leaf p path) (leaf (p ++ path)) =
      treeHash node leaf path.length p := by
  induction path generalizing p with
  | nil => simp [foldPath, treeHash]
  | cons b bs ih =>
    have hrec := ih (p ++ [b])
    rw [append_assoc, singleton_append] at hrec
    rw [siblings, foldPath, hrec, length_cons, treeHash_succ leaf _ p b]

/-- **Soundness**: a folding determines its leaf and its siblings, as far as
`node` separates the pairs combined on the two sides. -/
theorem foldPath_inj {path : List Bool} {s₁ s₂ : List D} {l₁ l₂ : D}
    (hsep : ∀ x ∈ pathPairs node path s₁ l₁, ∀ y ∈ pathPairs node path s₂ l₂,
      node x.1 x.2 = node y.1 y.2 → x = y)
    (h₁ : s₁.length = path.length) (h₂ : s₂.length = path.length)
    (h : foldPath node path s₁ l₁ = foldPath node path s₂ l₂) : l₁ = l₂ ∧ s₁ = s₂ := by
  induction path generalizing s₁ s₂ with
  | nil =>
    rw [length_nil, length_eq_zero_iff] at h₁ h₂
    exact ⟨by simpa [foldPath] using h, h₁.trans h₂.symm⟩
  | cons b bs ih =>
    obtain ⟨x, ss₁, rfl⟩ := exists_cons_of_length_eq_add_one h₁
    obtain ⟨y, ss₂, rfl⟩ := exists_cons_of_length_eq_add_one h₂
    -- the two top pairs have the same digest, so they are the same pair
    have htop := hsep _ (mem_cons_self ..) _ (mem_cons_self ..) h
    obtain ⟨hbelow, hxy⟩ := joinPair_inj htop
    obtain ⟨hl, hs⟩ := ih
      (fun x hx y hy => hsep x (mem_cons_of_mem _ hx) y (mem_cons_of_mem _ hy))
      (by simpa using h₁) (by simpa using h₂) hbelow
    exact ⟨hl, by rw [hxy, hs]⟩

/-! ### Recomputing the paths of several leaves -/

/-- A table of known nodes, by path. -/
abbrev Table (D : Type) := List Bool → Option D

/-- The sibling of the node at depth `level + 1` on the path `u`. -/
def siblingOf (u : List Bool) (level : Nat) : List Bool :=
  u.take level ++ [!u.getD level false]

variable {level : Nat}

/-- The sibling at a level, by its place in the list of siblings. -/
theorem getElem?_siblings (leaf : List Bool → D) (p : List Bool) (h : level < path.length) :
    (siblings node leaf p path)[level]? =
      some (treeHash node leaf (path.length - (level + 1)) (p ++ siblingOf path level)) := by
  induction path generalizing p level with
  | nil => simp at h
  | cons b bs ih =>
    cases level with
    | zero => simp [siblings, siblingOf]
    | succ level =>
      rw [siblings, getElem?_cons_succ, ih (p ++ [b]) (by simpa using h)]
      simp [siblingOf]

variable (node) in
/-- Recompute the node at depth `level` on the path `u` from its two children. -/
def rehashStep (u : List Bool) (t : Table D) (level : Nat) : Option (Table D) := do
  let below ← t (u.take (level + 1))
  let sibling ← t (siblingOf u level)
  return update t (u.take level) (some (join node (u.getD level false) below sibling))

variable (node) in
/-- Recompute every node on the path `u`, the deepest first. -/
def rehash (t : Table D) (u : List Bool) : Option (Table D) :=
  (List.range u.length).reverse.foldlM (rehashStep node u) t

/-- The node at `p` lies on the path `u`. -/
def OnPath (p u : List Bool) : Prop := u.take p.length = p

variable {u : List Bool}

theorem OnPath.length_le (h : OnPath p u) : p.length ≤ u.length := by
  have := congrArg List.length h
  simp at this
  omega

theorem onPath_take (u : List Bool) (k : Nat) : OnPath (u.take k) u := by
  unfold OnPath
  rw [length_take]
  rcases Nat.le_total k u.length with h | h
  · rw [min_eq_left h]
  · rw [min_eq_right h, take_length, take_of_length_le h]

theorem OnPath.eq_take (h : OnPath p u) : p = u.take p.length := h.symm

/-- Whoever passes through a child passes through its parent. -/
theorem OnPath.of_append {v : List Bool} {b : Bool} (h : OnPath (p ++ [b]) v) : OnPath p v := by
  unfold OnPath at *
  have := congrArg (List.take p.length) h
  simpa [take_take] using this

theorem take_succ_eq (h : level < u.length) :
    u.take (level + 1) = u.take level ++ [u.getD level false] := by
  rw [take_add_one, getElem?_eq_getElem h]
  simp [h]

theorem length_siblingOf {u : List Bool} {level : Nat} (h : level < u.length) :
    (siblingOf u level).length = level + 1 := by
  simp [siblingOf]
  omega

theorem not_onPath_siblingOf (h : level < u.length) : ¬ OnPath (siblingOf u level) u := by
  unfold OnPath
  rw [length_siblingOf h, take_succ_eq h, siblingOf]
  intro heq
  have := append_cancel_left heq
  cases hb : u.getD level false <;> simp_all

/-- The nodes an update of the leaves `us` of a tree of depth `n` knows: those
on a path, and their siblings. -/
def Known (n : Nat) (us : List (List Bool)) (p : List Bool) : Prop :=
  (∃ u ∈ us, OnPath p u) ∨ ∃ u ∈ us, ∃ level, level < n ∧ p = siblingOf u level

section
variable {n : Nat} {us : List (List Bool)} {leaf : List Bool → D}

/-- **The invariant of a multi-leaf update** with the paths `todo` still to be
recomputed: every updated leaf and every sibling of a path is in the table, and a
known node that no path of `todo` passes through has its final digest. -/
structure Fresh (node : D → D → D) (n : Nat) (us : List (List Bool)) (leaf : List Bool → D)
    (todo : List (List Bool)) (t : Table D) : Prop where
  leaf_mem : ∀ u ∈ us, t u = some (leaf u)
  sibling_mem : ∀ u ∈ us, ∀ level, level < n → (t (siblingOf u level)).isSome
  final : ∀ p, Known n us p → (∀ v ∈ todo, ¬ OnPath p v) →
    t p = some (treeHash node leaf (n - p.length) p)

/-- Inside the recomputation of `u`, with the levels from `level` on done: as
`Fresh`, except for the nodes of `u` above `level`. -/
structure FreshBelow (node : D → D → D) (n : Nat) (us : List (List Bool)) (leaf : List Bool → D)
    (todo : List (List Bool)) (u : List Bool) (level : Nat) (t : Table D) : Prop where
  leaf_mem : ∀ u ∈ us, t u = some (leaf u)
  sibling_mem : ∀ u ∈ us, ∀ level, level < n → (t (siblingOf u level)).isSome
  reached : (t (u.take level)).isSome
  final : ∀ p, Known n us p → (∀ v ∈ todo, ¬ OnPath p v) → (OnPath p u → level ≤ p.length) →
    t p = some (treeHash node leaf (n - p.length) p)

variable {todo : List (List Bool)} {t : Table D}

theorem Fresh.start (hlen : u.length = n) (hu : u ∈ us) (h : Fresh node n us leaf (u :: todo) t) :
    FreshBelow node n us leaf todo u n t where
  leaf_mem := h.leaf_mem
  sibling_mem := h.sibling_mem
  reached := by
    rw [take_of_length_le (by omega), h.leaf_mem u hu]
    rfl
  final := by
    intro p hp htodo hdeep
    by_cases hon : OnPath p u
    · have hpl : p.length = n := le_antisymm (hlen ▸ hon.length_le) (hdeep hon)
      have hpu : p = u := by
        rw [hon.eq_take, take_of_length_le (by omega)]
      rw [hpu, h.leaf_mem u hu, hlen, Nat.sub_self]
      rfl
    · exact h.final p hp (by simpa [hon] using htodo)

section
variable (hlens : ∀ v ∈ us, v.length = n)
include hlens

/-- **Step lemma**: recomputing one node makes it final unless a path of `todo`
still passes through it. -/
theorem FreshBelow.step (hu : u ∈ us) (hlevel : level < n)
    (h : FreshBelow node n us leaf todo u (level + 1) t) :
    ∃ t', rehashStep node u t level = some t' ∧ FreshBelow node n us leaf todo u level t' := by
  have hul : level < u.length := by rw [hlens u hu]; exact hlevel
  obtain ⟨below, hbelow⟩ := Option.isSome_iff_exists.mp h.reached
  obtain ⟨sib, hsib⟩ := Option.isSome_iff_exists.mp (h.sibling_mem u hu level hlevel)
  have hlenTake : (u.take level).length = level := by
    rw [length_take]
    omega
  refine ⟨update t (u.take level) (some (join node (u.getD level false) below sib)),
    by simp [rehashStep, hbelow, hsib], ?_⟩
  constructor
  case leaf_mem =>
    intro v hv
    have hne : v ≠ u.take level := by
      intro heq
      have := congrArg List.length heq
      rw [hlens v hv, hlenTake] at this
      omega
    rw [update_of_ne hne, h.leaf_mem v hv]
  case sibling_mem =>
    intro v hv k hk
    rcases eq_or_ne (siblingOf v k) (u.take level) with heq | hne
    · rw [heq, update_self]
      rfl
    · rw [update_of_ne hne]
      exact h.sibling_mem v hv k hk
  case reached =>
    rw [update_self]
    rfl
  case final =>
    intro p hp htodo hdeep
    rcases eq_or_ne p (u.take level) with rfl | hne
    · -- no path of `todo` passes through the node, hence none through a child
      have hchild : ∀ b, ∀ v ∈ todo, ¬ OnPath (u.take level ++ [b]) v :=
        fun b v hv hon => htodo v hv hon.of_append
      have hb : below = treeHash node leaf (n - (level + 1)) (u.take level ++ [u.getD level false]) := by
        have hf := h.final (u.take (level + 1)) (.inl ⟨u, hu, onPath_take u _⟩)
          (by rw [take_succ_eq hul]; exact hchild _)
          (by intro _; rw [length_take]; omega)
        rw [hbelow, Option.some.injEq, length_take, min_eq_left (by omega)] at hf
        rw [hf, take_succ_eq hul]
      have hs : sib = treeHash node leaf (n - (level + 1)) (siblingOf u level) := by
        have hf := h.final (siblingOf u level) (.inr ⟨u, hu, level, hlevel, rfl⟩) (hchild _)
          (fun hon => absurd hon (not_onPath_siblingOf hul))
        rwa [hsib, Option.some.injEq, length_siblingOf hul] at hf
      rw [update_self, hlenTake, hb, hs,
        show n - level = n - (level + 1) + 1 by omega,
        treeHash_succ leaf _ (u.take level) (u.getD level false)]
      rfl
    · rw [update_of_ne hne]
      refine h.final p hp htodo (fun hon => ?_)
      have hle := hdeep hon
      rcases Nat.lt_or_ge level p.length with hlt | hge
      · exact hlt
      · exact absurd (by rw [hon.eq_take, le_antisymm hge hle]) hne

theorem FreshBelow.steps (hu : u ∈ us) {k : Nat} (hk : k ≤ n)
    (h : FreshBelow node n us leaf todo u k t) :
    ∃ t', (List.range k).reverse.foldlM (rehashStep node u) t = some t' ∧
      FreshBelow node n us leaf todo u 0 t' := by
  induction k generalizing t with
  | zero => exact ⟨t, rfl, h⟩
  | succ k ih =>
    obtain ⟨t₁, hstep, h₁⟩ := h.step hlens hu (by omega)
    obtain ⟨t₂, hrun, h₂⟩ := ih (by omega) h₁
    refine ⟨t₂, ?_, h₂⟩
    rw [range_succ, reverse_append, reverse_singleton, singleton_append,
      foldlM_cons, hstep]
    exact hrun

theorem Fresh.rehash (hu : u ∈ us)
    (h : Fresh node n us leaf (u :: todo) t) :
    ∃ t', rehash node t u = some t' ∧ Fresh node n us leaf todo t' := by
  obtain ⟨t', hrun, h'⟩ := (h.start (hlens u hu) hu).steps hlens hu le_rfl
  refine ⟨t', by rw [Merkle.rehash, hlens u hu, hrun], h'.leaf_mem, h'.sibling_mem, ?_⟩
  exact fun p hp htodo => h'.final p hp htodo (fun _ => Nat.zero_le _)

/-- **Run lemma**: every path recomputed in turn, in the order of the list. -/
theorem Fresh.rehashAll (hsub : ∀ u ∈ todo, u ∈ us)
    (h : Fresh node n us leaf todo t) :
    ∃ t', todo.foldlM (Merkle.rehash node) t = some t' ∧ Fresh node n us leaf [] t' := by
  induction todo generalizing t with
  | nil => exact ⟨t, rfl, h⟩
  | cons u todo ih =>
    obtain ⟨t₁, hstep, h₁⟩ := h.rehash hlens (hsub u (mem_cons_self ..))
    obtain ⟨t₂, hrun, h₂⟩ := ih (fun v hv => hsub v (mem_cons_of_mem _ hv)) h₁
    refine ⟨t₂, ?_, h₂⟩
    rw [foldlM_cons, hstep]
    exact hrun

/-- **Multi-leaf update**: from a table that holds the new leaves and, for every
sibling no path passes through, its digest, recomputing all paths leaves the
digest of the new tree at the root. -/
theorem rehashAll_root (hne : us ≠ [])
    (h : Fresh node n us leaf us t) :
    ∃ t', us.foldlM (rehash node) t = some t' ∧ t' [] = some (treeHash node leaf n []) := by
  obtain ⟨t', hrun, h'⟩ := h.rehashAll hlens (fun _ hu => hu)
  obtain ⟨u, hu⟩ := exists_mem_of_ne_nil us hne
  exact ⟨t', hrun, h'.final [] (.inl ⟨u, hu, rfl⟩) (by simp)⟩

end

end

end Merkle
end Strangecoin
