import Strangecoin.SyncComplete

/-! # Sync with any peer

What a round of sync still guarantees when the peer answers as it likes: how far the first
phase gets with every batch of headers, and which candidate the third phase can end with.
-/
namespace Strangecoin
open List

variable {crates : Crates} {peer : Answers} {localHashes : List String}
  {headers : List BlockHeader} {cache cache' : HeaderCache}

/-! ### The rounds of the first phase -/

namespace HeaderCache

/-- What is taken of a batch is a front part of it, all with the work they declare. -/
theorem ingestFrom_ok {prev : Option (String × UInt64)} {accepted : Nat}
    (h : cache.ingestFrom crates localHashes prev headers = .ok (accepted, cache')) :
    accepted ≤ headers.length ∧ cache' = (headers.take accepted).foldl insert cache ∧
      ∀ header ∈ headers.take accepted, validateHeaderPow crates header = .ok () := by
  induction headers generalizing cache prev accepted with
  | nil =>
    obtain ⟨rfl, rfl⟩ := ok_pair h
    exact ⟨le_rfl, rfl, forall_mem_nil _⟩
  | cons header headers ih =>
    rw [ingestFrom] at h
    split at h
    · cases h
    · obtain ⟨rfl, rfl⟩ := ok_pair h
      exact ⟨Nat.zero_le _, rfl, forall_mem_nil _⟩
    · rename_i hpow
      split at h
      · obtain ⟨⟨n, c⟩, hrest, h⟩ := bind_eq_ok.mp h
        obtain ⟨rfl, rfl⟩ := ok_pair h
        obtain ⟨hle, rfl, hall⟩ := ih hrest
        exact ⟨Nat.succ_le_succ hle, rfl, forall_mem_cons.mpr ⟨hpow, hall⟩⟩
      · obtain ⟨rfl, rfl⟩ := ok_pair h
        exact ⟨Nat.zero_le _, rfl, forall_mem_nil _⟩

theorem mem_insert {header : BlockHeader} {hash : String} :
    hash ∈ (cache.insert header).byHash ↔ hash = header.hash ∨ hash ∈ cache.byHash := by
  rw [insert, Std.ExtTreeMap.mem_insert, Std.LawfulEqOrd.compare_eq_iff_eq, eq_comm]

theorem mem_foldl_insert {hash : String} : hash ∈ (headers.foldl insert cache).byHash ↔
    hash ∈ cache.byHash ∨ ∃ header ∈ headers, header.hash = hash := by
  induction headers generalizing cache with
  | nil => simp
  | cons header headers ih =>
    rw [foldl_cons, ih, mem_insert, exists_mem_cons_iff, eq_comm, or_assoc, or_left_comm]

/-- A batch enlarges the cache exactly if one of its headers is new. -/
theorem size_foldl_insert (headers : List BlockHeader) (cache : HeaderCache) :
    cache.byHash.size ≤ (headers.foldl insert cache).byHash.size ∧
      (cache.byHash.size < (headers.foldl insert cache).byHash.size ↔
        ∃ header ∈ headers, header.hash ∉ cache.byHash) := by
  induction headers generalizing cache with
  | nil => simp
  | cons header headers ih =>
    obtain ⟨hle, hlt⟩ := ih (cache.insert header)
    have hsize : (cache.insert header).byHash.size =
        if header.hash ∈ cache.byHash then cache.byHash.size else cache.byHash.size + 1 :=
      Std.ExtTreeMap.size_insert
    rw [foldl_cons, exists_mem_cons_iff]
    by_cases hmem : header.hash ∈ cache.byHash
    · rw [if_pos hmem] at hsize
      rw [hsize] at hle hlt
      refine ⟨hle, hlt.trans ?_⟩
      have hsame : ∀ hash, hash ∉ (cache.insert header).byHash ↔ hash ∉ cache.byHash := by
        intro hash
        rw [mem_insert, not_or, and_iff_right_of_imp]
        rintro h rfl
        exact h hmem
      simp only [hsame, hmem, not_true_eq_false, false_or]
    · rw [if_neg hmem] at hsize
      exact ⟨by omega, fun _ => .inl hmem, fun _ => by omega⟩

theorem maxIndex_foldl_insert (headers : List BlockHeader) {m : UInt64} (h : m ∈ cache.maxIndex) :
    ∃ m' ∈ (headers.foldl insert cache).maxIndex,
      ∀ x, x < m' ↔ x < m ∨ ∃ header ∈ headers, x < header.index := by
  induction headers generalizing cache m with
  | nil => exact ⟨m, h, by simp⟩
  | cons header headers ih =>
    have hmax : max m header.index ∈ (cache.insert header).maxIndex := by
      rw [insert, Option.mem_def.mp h]
      rfl
    obtain ⟨m', hm', hlt⟩ := ih hmax
    refine ⟨m', hm', fun x => ?_⟩
    have hmax : max m header.index = if m ≤ header.index then header.index else m := rfl
    rw [hlt, exists_mem_cons_iff, hmax, ← or_assoc]
    refine or_congr_left ?_
    simp only [UInt64.lt_iff_toNat_lt, UInt64.le_iff_toNat_le]
    split <;> omega

end HeaderCache

/-- A round of the first phase after which it goes on: the headers it brings, and the cache
and the height that is asked for before and after it. -/
def HeaderRound (crates : Crates) (peer : Answers) (localHashes : List String)
    (s : HeaderCache × UInt64) (headers : List BlockHeader) (s' : HeaderCache × UInt64) : Prop :=
  (peer (encodeGetHeaders s.2) >>= fun payload => liftNet (parseHeaders crates payload)) =
      .ok headers ∧
    s.1.ingest crates headers localHashes = .ok (headers.length, s'.1) ∧
    MAX_HEADERS_BATCH ≤ headers.length ∧ s'.2 = (s'.1.maxIndex.map (· + 1)).getD 0

/-- The first phase goes on after `fuel + 1` rounds. -/
theorem syncHeaders_succ {fuel : Nat} {s : HeaderCache × UInt64}
    (h : syncHeaders crates peer localHashes (fuel + 1) s.1 s.2 = none) :
    ∃ headers s', HeaderRound crates peer localHashes s headers s' ∧
      syncHeaders crates peer localHashes fuel s'.1 s'.2 = none := by
  rw [syncHeaders] at h
  split at h
  · cases h
  · rename_i headers hanswer
    split at h
    · cases h
    · split at h
      · cases h
      · rename_i accepted cache hingest
        split at h
        · cases h
        · split at h
          · cases h
          · rename_i hfull
            have hle := (HeaderCache.ingestFrom_ok hingest).1
            obtain ⟨hbatch, hall⟩ := not_or.mp hfull
            rw [Nat.le_antisymm hle (Nat.not_lt.mp hall)] at hingest
            exact ⟨headers, (cache, _), ⟨hanswer, hingest, Nat.not_lt.mp hbatch, rfl⟩, h⟩

/-- The cache has grown and its highest index has risen. -/
def Advances (cache cache' : HeaderCache) : Prop :=
  cache.byHash.size < cache'.byHash.size ∧ ∀ m ∈ cache.maxIndex, ∃ m' ∈ cache'.maxIndex, m < m'

/-- A batch with a header that is not known, and one above all that are. -/
def FreshBatch (cache : HeaderCache) (headers : List BlockHeader) : Prop :=
  (∃ header ∈ headers, header.hash ∉ cache.byHash) ∧
    ∀ m ∈ cache.maxIndex, ∃ header ∈ headers, m < header.index

theorem HeaderRound.eq_foldl {s s' : HeaderCache × UInt64}
    (h : HeaderRound crates peer localHashes s headers s') :
    s'.1 = headers.foldl HeaderCache.insert s.1 ∧
      ∀ header ∈ headers, validateHeaderPow crates header = .ok () := by
  have hingest := (HeaderCache.ingestFrom_ok h.2.1).2
  rwa [take_length] at hingest

theorem HeaderRound.advances_iff {s s' : HeaderCache × UInt64}
    (h : HeaderRound crates peer localHashes s headers s') :
    Advances s.1 s'.1 ↔ FreshBatch s.1 headers := by
  rw [Advances, FreshBatch, h.eq_foldl.1, (HeaderCache.size_foldl_insert headers s.1).2]
  refine and_congr_right fun _ => forall₂_congr fun m hm => ?_
  obtain ⟨m', hm', hlt⟩ := HeaderCache.maxIndex_foldl_insert headers hm
  have hraised := hlt m
  rw [or_iff_right (UInt64.lt_irrefl m)] at hraised
  rw [← hraised]
  exact ⟨fun ⟨m'', hm'', h⟩ => Option.mem_unique hm'' hm' ▸ h, fun h => ⟨m', hm', h⟩⟩

variable (crates peer localHashes) in
/-- **When the first phase makes progress.**  A round after which it goes on enlarges the
cache and raises its highest index exactly if its batch is fresh.  If all of them are, there
are no more rounds than the peer has headers with the work they declare. -/
theorem header_rounds_advance_iff :
    (∀ s headers s', HeaderRound crates peer localHashes s headers s' →
      (Advances s.1 s'.1 ↔ FreshBatch s.1 headers)) ∧
    ∀ valid : List String,
      (∀ height headers, (peer (encodeGetHeaders height) >>= fun payload =>
        liftNet (parseHeaders crates payload)) = .ok headers → ∀ header ∈ headers,
          validateHeaderPow crates header = .ok () → header.hash ∈ valid) →
      (∀ s headers s', Relation.ReflTransGen
        (fun s s' => ∃ headers, HeaderRound crates peer localHashes s headers s') (.new, 0) s →
          HeaderRound crates peer localHashes s headers s' → FreshBatch s.1 headers) →
      ∀ fuel, valid.length < fuel →
        (syncHeaders crates peer localHashes fuel .new 0).isSome := by
  refine ⟨fun s headers s' h => h.advances_iff, fun valid hvalid hfresh => ?_⟩
  -- The rounds that are left and the headers that are cached fit into the valid ones.
  have hrun : ∀ fuel s, Relation.ReflTransGen
      (fun s s' => ∃ headers, HeaderRound crates peer localHashes s headers s') (.new, 0) s →
      (∀ hash ∈ s.1.byHash, hash ∈ valid) →
      syncHeaders crates peer localHashes fuel s.1 s.2 = none →
      fuel + s.1.byHash.size ≤ valid.length := by
    intro fuel
    induction fuel with
    | zero =>
      intro s _ hmem _
      rw [Nat.zero_add, ← Std.ExtTreeMap.length_keys]
      exact (Std.ExtTreeMap.nodup_keys.subperm fun hash hhash =>
        hmem hash (Std.ExtTreeMap.mem_keys.mp hhash)).length_le
    | succ fuel ih =>
      intro s hreach hmem h
      obtain ⟨headers, s', hround, hrest⟩ := syncHeaders_succ h
      have hgrows := (hround.advances_iff.mpr (hfresh s headers s' hreach hround)).1
      obtain ⟨hcache, hpow⟩ := hround.eq_foldl
      have hbound := ih s' (hreach.tail ⟨headers, hround⟩) ?_ hrest
      · omega
      · intro hash hhash
        rw [hcache, HeaderCache.mem_foldl_insert] at hhash
        rcases hhash with hold | ⟨header, hheader, rfl⟩
        · exact hmem hash hold
        · exact hvalid _ _ hround.1 header hheader (hpow header hheader)
  intro fuel hfuel
  rw [Option.isSome_iff_ne_none]
  intro h
  have hbound := hrun fuel (.new, 0) .refl (fun hash hhash => by simp [HeaderCache.new] at hhash) h
  omega

/-- Blocks at the highest target, one after another. -/
def easyFrom : Nat → UInt64 → Digest → List Block
  | 0, _, _ => []
  | n + 1, index, previousHash =>
    easyBlock index previousHash [] :: easyFrom n (index + 1) (easyHash index previousHash)

theorem mem_easyFrom {n : Nat} {index : UInt64} {previousHash : Digest} {block : Block}
    (h : block ∈ easyFrom n index previousHash) : ∃ i d, block = easyBlock i d [] := by
  induction n generalizing index previousHash with
  | zero => cases h
  | succ n ih =>
    rcases mem_cons.mp h with rfl | h
    · exact ⟨_, _, rfl⟩
    · exact ih h

theorem follows_easyFrom (n : Nat) (index : UInt64) (previousHash : Digest) :
    ((easyFrom n index previousHash).map Block.header).IsChain Follows := by
  induction n generalizing index previousHash with
  | zero => exact .nil
  | succ n ih =>
    cases n with
    | zero => exact .singleton _
    | succ n => exact isChain_cons_cons.mpr ⟨⟨rfl, rfl⟩, ih _ _⟩

theorem length_easyFrom (n : Nat) (index : UInt64) (previousHash : Digest) :
    (easyFrom n index previousHash).length = n := by
  induction n generalizing index previousHash with
  | zero => rfl
  | succ n ih => exact congrArg (· + 1) (ih _ _)

/-- A peer that answers every request with the same full batch. -/
def repeatingPeer : Answers := fun _ =>
  encodeHeaders ((easyFrom MAX_HEADERS_BATCH 0 zeroDigest).map Block.header)

theorem syncHeaders_repeated {header : BlockHeader} (hzero : header.index = 0)
    (hanswer : ∀ height, (peer (encodeGetHeaders height) >>= fun payload =>
      liftNet (parseHeaders crates payload)) = .ok (header :: headers))
    (hfull : MAX_HEADERS_BATCH ≤ headers.length + 1)
    (hpow : ∀ h ∈ header :: headers, validateHeaderPow crates h = .ok ())
    (hfollows : (header :: headers).IsChain Follows) (fuel : Nat) (cache : HeaderCache)
    (height : UInt64) : syncHeaders crates peer localHashes fuel cache height = none := by
  induction fuel generalizing cache height with
  | zero => rfl
  | succ fuel ih =>
    have hfirst : cache.linked localHashes none header = true := by
      rw [HeaderCache.linked]
      exact decide_eq_true (.inl hzero)
    rw [syncHeaders, hanswer]
    dsimp only
    rw [if_neg (cons_ne_nil _ _), HeaderCache.ingest_follows hpow cache hfirst hfollows]
    dsimp only
    rw [if_neg (Nat.succ_ne_zero _), if_neg (by rw [length_cons]; omega)]
    exact ih _ _

/-- **A peer that repeats its headers is listened to for ever.** -/
theorem repeating_peer_never_ends :
    ¬ ∃ fuel outcome, syncHeaders nonzeroCrates repeatingPeer [] fuel .new 0 = some outcome := by
  obtain ⟨n, hn⟩ : ∃ n, MAX_HEADERS_BATCH = n + 1 := ⟨1999, rfl⟩
  have heasy : ∀ block ∈ easyFrom (n + 1) 0 zeroDigest, Survives nonzeroCrates block ∧
      validateHeaderPow nonzeroCrates block.header = .ok () := by
    intro block hblock
    obtain ⟨i, d, rfl⟩ := mem_easyFrom hblock
    exact ⟨survives_easyBlock i d, pow_easyBlock i d []⟩
  obtain ⟨payload, hencode, hparse⟩ := encodeHeaders_survives
    (fun block hblock => (heasy block hblock).1) ((length_easyFrom _ _ _).trans hn.symm).le
  rintro ⟨fuel, outcome, h⟩
  rw [syncHeaders_repeated rfl (fun height => bind_eq_ok.mpr ⟨payload, ?_, ?_⟩) ?_
    (fun header hheader => ?_) (follows_easyFrom (n + 1) 0 zeroDigest)] at h
  · cases h
  · rw [hn, length_map, length_easyFrom]
  · rw [repeatingPeer, hn, hencode]
  · rw [hparse]
    rfl
  · have hmem : header ∈ (easyFrom (n + 1) 0 zeroDigest).map Block.header := hheader
    obtain ⟨block, hblock, rfl⟩ := mem_map.mp hmem
    exact (heasy block hblock).2

end Strangecoin
