import Strangecoin.HeaderSync
import Strangecoin.KnownMessages
import Strangecoin.ForkChoice

/-! # Sync with an honest peer

A round with a peer that answers from its own chain takes all of its headers, whatever their
number, finds their only tip, walks back to the genesis block, and asks for the blocks after
the fork point (`sync_candidate`).  The bodies below the fork point are the local ones.
-/
namespace Strangecoin
open List

/-! ### Headers -/

variable {block : Block}

section
variable {crates : Crates} {header : BlockHeader} {chain : List Block}

variable {d : Digest}

theorem digestOfSlice_eq_ok {bytes : List UInt8} :
    digestOfSlice bytes = .ok d ↔ bytes = d.toList := by
  rw [digestOfSlice]
  split
  · rw [Except.ok.injEq, ← Vector.toList_inj]
    rfl
  · rename_i hlength
    refine iff_of_false nofun fun h => hlength ?_
    rw [h, Vector.length_toList]

theorem targetBytes_eq_ok {target : String} :
    targetBytes target = .ok d ↔ hexDecode target = .ok d.toList := by
  rw [targetBytes]
  cases hexDecode target with
  | error e => exact iff_of_false (by rintro ⟨⟩) (by rintro ⟨⟩)
  | ok bytes => exact digestOfSlice_eq_ok.trans ⟨congrArg _, Except.ok.inj⟩

theorem validateHeaderPow_eq_ok : validateHeaderPow crates header = .ok () ↔
    ∃ computed target, crates.headerHash header = .ok computed ∧
      (header.hash = "" ∨ header.hash = hexEncode computed.toList) ∧
      targetBytes header.target = .ok target ∧
      (u256FromBytes computed).toNat ≤ (u256FromBytes target).toNat := by
  have hle : ∀ a b : U256, u256Gt a b = false ↔ a.toNat ≤ b.toNat := by
    intro a b
    rw [← Bool.not_eq_true, u256Gt_iff, Nat.not_lt]
  constructor
  · intro h
    obtain ⟨computed, hcomputed, h⟩ := bind_eq_ok.mp h
    obtain ⟨_, hhash, h⟩ := bind_eq_ok.mp h
    rw [liftCore_eq_ok, guardWith_eq_ok] at hhash
    cases hdecode : hexDecode header.target with
    | error e =>
      rw [hdecode] at h
      exact absurd h nofun
    | ok bytes =>
      rw [hdecode] at h
      obtain ⟨_, -, h⟩ := bind_eq_ok.mp h
      obtain ⟨target, htarget, h⟩ := bind_eq_ok.mp h
      rw [liftCore_eq_ok, guardWith_eq_ok, hle] at h
      rw [digestOfSlice_eq_ok.mp htarget] at hdecode
      exact ⟨computed, target, hcomputed, hhash, targetBytes_eq_ok.mpr hdecode, h⟩
  · rintro ⟨computed, target, hcomputed, hhash, htarget, h⟩
    refine bind_eq_ok.mpr ⟨computed, hcomputed, bind_eq_ok.mpr
      ⟨(), liftCore_eq_ok.mpr (guardWith_eq_ok.mpr hhash), ?_⟩⟩
    rw [targetBytes_eq_ok.mp htarget]
    refine bind_eq_ok.mpr ⟨(), liftCore_eq_ok.mpr (guardWith_eq_ok.mpr (by simp)),
      bind_eq_ok.mpr ⟨target, digestOfSlice_eq_ok.mpr rfl, ?_⟩⟩
    exact liftCore_eq_ok.mpr (guardWith_eq_ok.mpr ((hle _ _).mpr h))

theorem targetBytes_of_pow (h : validateHeaderPow crates header = .ok ()) :
    ∃ target, targetBytes header.target = .ok target := by
  obtain ⟨_, target, -, -, htarget, -⟩ := validateHeaderPow_eq_ok.mp h
  exact ⟨target, htarget⟩

theorem eq_zeroDigest (h : (u256FromBytes d).toNat = 0) : d = zeroDigest := by
  have hzero : u256ToBytes U256.zero = zeroDigest := by decide
  rw [← u256ToBytes_u256FromBytes d, U256.toNat_eq_zero.mp h, hzero]

/-- A target is zero only if the digest zero meets it. -/
theorem targetValue_of_pow (h : validateHeaderPow crates block.header = .ok ())
    (hzero : crates.headerHash block.header ≠ .ok zeroDigest) : block.targetValue ≠ 0 := by
  obtain ⟨computed, target, hcomputed, -, htarget, hle⟩ := validateHeaderPow_eq_ok.mp h
  have htarget : targetBytes block.target = .ok target := htarget
  rw [Block.targetValue, htarget]
  change beNat target.toList ≠ 0
  rw [← toNat_u256FromBytes]
  intro hnone
  have hnone : (u256FromBytes computed).toNat = 0 := by omega
  exact hzero (eq_zeroDigest hnone ▸ hcomputed)

end

/-! ### Chains and their encodings -/

/-- The headers have the work they declare, link to one another and are numbered from zero. -/
structure HeaderChain (crates : Crates) (chain : List Block) : Prop where
  pow : ∀ block ∈ chain, validateHeaderPow crates block.header = .ok ()
  link : ∀ (i : Nat) (a b : Block), chain[i]? = some a → chain[i + 1]? = some b → b.previousHash = a.hash
  index : ∀ (i : Nat) (block : Block), chain[i]? = some block → block.index.toNat = i
  work : exactWork chain < 2 ^ 256

/-- The codec returns the block. -/
def Survives (crates : Crates) (block : Block) : Prop :=
  ∃ bytes, serializeBlock block = .ok bytes ∧ deserializeBlock crates bytes = .ok block

/-- A chain that an honest peer answers from. -/
structure Served (crates : Crates) (chain : List Block) : Prop
    extends HeaderChain crates chain where
  survive : ∀ block ∈ chain, Survives crates block
  distinct : (chain.map Block.hash).Nodup
  root : ∀ genesis ∈ chain.head?, genesis.previousHash ∉ chain.map Block.hash
  ne : chain ≠ []

variable {blocks : List Block}

section
variable {crates : Crates} {block : Block} {chain : List Block}

theorem Survives.wellFormed (h : Survives crates block) : WellFormedHeader crates block.header := by
  obtain ⟨bytes, -, hdecode⟩ := h
  unfold deserializeBlock at hdecode
  split at hdecode
  · exact absurd hdecode nofun
  · obtain ⟨header, hheader, hrest⟩ := bind_eq_ok.mp hdecode
    obtain ⟨⟨txs, rest⟩, -, hrest⟩ := bind_eq_ok.mp hrest
    obtain ⟨_, -, hmade⟩ := bind_eq_ok.mp hrest
    obtain rfl := Except.ok.inj hmade
    exact ((isHeader_iff crates).mp hheader).1

theorem Survives.hash (h : Survives crates block) :
    ∃ d : Digest, crates.headerHash block.header = .ok d ∧ block.hash = hexEncode d.toList :=
  h.wellFormed.hash

theorem WellFormedHeader.serialized {header : BlockHeader}
    (h : WellFormedHeader crates header) :
    ∃ body, serializeHeader header = .ok body ∧ body.length = HEADER_WIRE_LEN := by
  obtain ⟨f, rfl⟩ := h.exists_fields
  exact ⟨f.bytes, f.serializeHeader_eq _, f.length_bytes⟩

variable {bodies : List (List UInt8)}

theorem length_flatMap_writeBytes_le {n : Nat} (h : ∀ body ∈ bodies, body.length ≤ n) :
    (bodies.flatMap writeBytes).length ≤ (4 + n) * bodies.length := by
  induction bodies with
  | nil => simp
  | cons body bodies ih =>
    obtain ⟨hbody, hbodies⟩ := forall_mem_cons.mp h
    have hrest := ih hbodies
    rw [flatMap_cons, length_append, length_writeBytes, length_cons, Nat.mul_add]
    omega

section
variable (h : ∀ block ∈ blocks, Survives crates block)
include h

theorem encodeHeaders_survives
    (hcount : blocks.length ≤ MAX_HEADERS_BATCH) :
    ∃ payload, encodeHeaders (blocks.map Block.header) = .ok payload ∧
      parseHeaders crates payload = .ok (blocks.map Block.header) := by
  have hwell : ∀ header ∈ blocks.map Block.header, WellFormedHeader crates header := by
    intro header hheader
    obtain ⟨block, hblock, rfl⟩ := mem_map.mp hheader
    exact (h block hblock).wellFormed
  obtain ⟨bodies, hbodies⟩ := exists_forall₂ fun header hheader =>
    (hwell header hheader).serialized
  let payload := MSG_HEADERS :: (putCount (blocks.map Block.header) ++ bodies.flatMap writeBytes)
  have hpayload : encodeHeaders (blocks.map Block.header) = .ok payload := by
    refine ensureFits_bind.mpr ⟨by simpa using hcount, bind_eq_ok.mpr
      ⟨bodies, mapM_ok.mpr (hbodies.imp fun _ _ h => liftPanic_eq_ok.mpr h.1), ?_⟩⟩
    refine ensureFits_return.mpr ⟨?_, rfl⟩
    have hlength : (bodies.flatMap writeBytes).length ≤ 193 * blocks.length := by
      have h := length_flatMap_writeBytes_le (n := 189) fun body hbody =>
        (exists_of_forall₂ hbodies hbody).elim fun _ h => h.2.2.le
      rw [← hbodies.length_eq, length_map] at h
      exact h
    have hbatch : MAX_HEADERS_BATCH = 2000 := rfl
    have hmessage : MAX_MESSAGE_SIZE = 33554432 := rfl
    simp only [length_cons, length_append, length_putCount]
    omega
  exact ⟨payload, hpayload, (headersCodec crates).roundTrip _ _ hwell nofun hpayload⟩

theorem isBlock_bodies
    (hbodies : blocks.mapM encodeBlockBody = .ok bodies) :
    List.Forall₂ (IsBlock crates) bodies blocks := by
  rw [mapM_ok] at hbodies
  induction hbodies with
  | nil => exact .nil
  | cons hbody _ ih =>
    obtain ⟨⟨bytes, hbytes, hdecode⟩, hrest⟩ := forall_mem_cons.mp h
    obtain ⟨hserialized, hsize⟩ := encodeBlockBody_ok.mp hbody
    obtain rfl := Except.ok.inj (hserialized.symm.trans hbytes)
    exact .cons ⟨hsize, hdecode⟩ (ih hrest)

theorem parseBlocks_survives {payload : List UInt8}
    (hpayload : encodeBlocks blocks = .ok payload) : parseBlocks crates payload = .ok blocks := by
  obtain ⟨hcount, hpayload⟩ := ensureFits_bind.mp hpayload
  obtain ⟨bodies, hbodies, hpayload⟩ := bind_eq_ok.mp hpayload
  obtain ⟨-, rfl⟩ := ensureFits_return.mp hpayload
  exact ((accepts_blocks crates).iff _ _).mpr
    ⟨_, rfl, counted_sized.mpr ⟨hcount, bodies, rfl, isBlock_bodies h hbodies⟩⟩

end

end

/-! ### The first phase -/

variable {headers : List BlockHeader}

section
variable {crates : Crates} {chain : List Block}

/-- One header after another. -/
def Follows (a b : BlockHeader) : Prop := b.previousHash = a.hash ∧ b.index = a.index + 1

variable {localHashes : List String}

namespace HeaderCache

theorem ingestFrom_follows (hpow : ∀ header ∈ headers, validateHeaderPow crates header = .ok ())
    (self : HeaderCache) (last : BlockHeader) (h : (last :: headers).IsChain Follows) :
    self.ingestFrom crates localHashes (some (last.hash, last.index)) headers =
      .ok (headers.length, headers.foldl insert self) := by
  induction headers generalizing self last with
  | nil => rfl
  | cons header headers ih =>
    obtain ⟨hheader, hheaders⟩ := forall_mem_cons.mp hpow
    obtain ⟨hfollows, hchain⟩ := isChain_cons_cons.mp h
    have hlinked : self.linked localHashes (some (last.hash, last.index)) header = true :=
      decide_eq_true hfollows
    rw [ingestFrom, hheader]
    dsimp only
    rw [if_pos hlinked, ih hheaders _ _ hchain]
    rfl

/-- A batch of headers that follow one another, the first of them in its place. -/
theorem ingest_follows {header : BlockHeader}
    (hpow : ∀ h ∈ header :: headers, validateHeaderPow crates h = .ok ()) (self : HeaderCache)
    (hfirst : self.linked localHashes none header = true) (h : (header :: headers).IsChain Follows) :
    self.ingest crates (header :: headers) localHashes =
      .ok (headers.length + 1, (header :: headers).foldl insert self) := by
  obtain ⟨hheader, hheaders⟩ := forall_mem_cons.mp hpow
  rw [ingest, ingestFrom, hheader]
  dsimp only
  rw [if_pos hfirst, ingestFrom_follows hheaders _ _ h]
  rfl

end HeaderCache

/-- The cache with the headers of blocks. -/
def cached (blocks : List Block) : HeaderCache :=
  (blocks.map Block.header).foldl HeaderCache.insert .new

theorem byHash_foldl_insert (headers : List BlockHeader) (cache : HeaderCache) :
    (headers.foldl HeaderCache.insert cache).byHash =
      headers.foldl (fun m header => m.insert header.hash header) cache.byHash := by
  induction headers generalizing cache with
  | nil => rfl
  | cons header headers ih => exact ih _

theorem byHash_cached (blocks : List Block) :
    (cached blocks).byHash = HashMap.keyed BlockHeader.hash (blocks.map Block.header) :=
  byHash_foldl_insert _ _

theorem map_hash_header (blocks : List Block) :
    (blocks.map Block.header).map BlockHeader.hash = blocks.map Block.hash := by
  rw [map_map]
  rfl

theorem get?_cached (hdistinct : (blocks.map Block.hash).Nodup) (h : block ∈ blocks) :
    (cached blocks).byHash[block.hash]? = some block.header := by
  rw [← map_hash_header] at hdistinct
  rw [byHash_cached]
  exact HashMap.get?_keyed hdistinct (mem_map_of_mem h)

namespace HeaderChain

section
variable (h : HeaderChain crates chain)
include h

theorem hexTargets : HexTargets chain :=
  fun block hblock => targetBytes_of_pow (h.pow block hblock)

theorem length_le : chain.length ≤ 2 ^ 64 := by
  by_contra hlong
  have hget := getElem?_eq_getElem (l := chain) (i := 2 ^ 64) (by omega)
  have hindex := h.index _ _ hget
  have hlt := (chain.get ⟨2 ^ 64, by omega⟩).index.toNat_lt
  exact absurd hindex hlt.ne

theorem follows : (chain.map Block.header).IsChain Follows := by
  rw [isChain_map, isChain_iff_getElem]
  intro i hi
  have ha := getElem?_eq_getElem (Nat.lt_of_succ_lt hi)
  have hb := getElem?_eq_getElem hi
  refine ⟨h.link i _ _ ha hb, UInt64.toNat_inj.mp ?_⟩
  have hindex := h.index _ _ ha
  have hnext := h.index _ _ hb
  have hlt := chain[i + 1].index.toNat_lt
  change chain[i + 1].index.toNat = (chain[i].index + 1).toNat
  rw [UInt64.toNat_add, hindex, hnext, UInt64.toNat_one]
  omega

theorem take (n : Nat) : HeaderChain crates (chain.take n) := by
  have hget : ∀ {i : Nat} {block : Block}, (chain.take n)[i]? = some block → chain[i]? = some block := by
    intro i block hblock
    rw [getElem?_take] at hblock
    split at hblock
    · exact hblock
    · exact absurd hblock nofun
  refine ⟨fun block hblock => h.pow block (mem_of_mem_take hblock),
    fun i a b ha hb => h.link i a b (hget ha) (hget hb),
    fun i block hblock => h.index i block (hget hblock), ?_⟩
  have hsum := exactWork_append (chain.take n) (chain.drop n)
  rw [take_append_drop] at hsum
  have hwork := h.work
  omega

/-- The blocks from a height on are those after the first ones. -/
theorem filter_fromHeight (fromHeight : UInt64) :
    (chain.filter fun block => fromHeight ≤ block.index) = chain.drop fromHeight.toNat := by
  have hoffset : ∀ (blocks : List Block) (offset : Nat),
      (∀ (i : Nat) (block : Block), blocks[i]? = some block → block.index.toNat = offset + i) →
      (blocks.filter fun block => fromHeight ≤ block.index) =
        blocks.drop (fromHeight.toNat - offset) := by
    intro blocks
    induction blocks with
    | nil => simp
    | cons block blocks ih =>
      intro offset hindex
      have hblock : block.index.toNat = offset := hindex 0 block rfl
      have hrest := ih (offset + 1) fun i b hb => by
        rw [hindex (i + 1) b hb]
        omega
      rw [filter_cons, hrest]
      by_cases hle : fromHeight ≤ block.index
      · have hle' := UInt64.le_iff_toNat_le.mp hle
        rw [if_pos (decide_eq_true hle), show fromHeight.toNat - (offset + 1) = 0 by omega,
          show fromHeight.toNat - offset = 0 by omega]
        rfl
      · have hle' := mt UInt64.le_iff_toNat_le.mpr hle
        rw [if_neg (by simpa using hle), show fromHeight.toNat - offset =
          (fromHeight.toNat - (offset + 1)) + 1 by omega, drop_succ_cons]
  exact hoffset chain 0 fun i block hblock => by
    rw [h.index i block hblock]
    omega

/-- The highest index in the cache is that of the last block. -/
theorem maxIndex_cached {k : Nat} (hblock : chain[k]? = some block) :
    (cached (chain.take (k + 1))).maxIndex = some block.index := by
  have hlast : ∀ {k : Nat} {block : Block}, chain[k]? = some block →
      cached (chain.take (k + 1)) = (cached (chain.take k)).insert block.header := by
    intro k block hblock
    rw [take_add_one, hblock, cached, map_append, foldl_append]
    rfl
  induction k generalizing block with
  | zero =>
    rw [hlast hblock]
    rfl
  | succ k ih =>
    obtain ⟨hlt, -⟩ := List.getElem?_eq_some_iff.mp hblock
    have hprev := getElem?_eq_getElem (Nat.lt_of_succ_lt hlt)
    rw [hlast hblock, HeaderCache.insert, ih hprev]
    have hle : chain[k].index ≤ block.index := by
      rw [UInt64.le_iff_toNat_le, h.index _ _ hprev, h.index _ _ hblock]
      omega
    have hmax : max chain[k].index block.header.index = block.index := if_pos hle
    exact congrArg some hmax

end

end HeaderChain

theorem answerFrom_getHeaders (chain : List Block) (fromHeight : UInt64) :
    answerFrom chain (encodeGetHeaders fromHeight) =
      encodeHeaders (headersFromHeight chain fromHeight MAX_HEADERS_BATCH) := by
  rw [answerFrom, decodeMessage_getHeaders]

theorem headers_of_answer (h : Served crates chain) (fromHeight : UInt64) :
    (answerFrom chain (encodeGetHeaders fromHeight) >>= fun payload =>
      liftNet (parseHeaders crates payload)) =
      .ok (((chain.drop fromHeight.toNat).take MAX_HEADERS_BATCH).map Block.header) := by
  have hown : ∀ block ∈ (chain.drop fromHeight.toNat).take MAX_HEADERS_BATCH, Survives crates block :=
    fun block hblock => h.survive block (mem_of_mem_drop (mem_of_mem_take hblock))
  obtain ⟨payload, hpayload, hparse⟩ := encodeHeaders_survives hown (length_take_le _ _)
  rw [answerFrom_getHeaders, headersFromHeight, h.filter_fromHeight, hpayload]
  exact liftNet_eq_ok.mpr hparse

/-- The first header of a batch is the genesis block's, or its parent is in the cache. -/
theorem linked_next (h : Served crates chain) {k : Nat} (hblock : chain[k]? = some block) :
    (cached (chain.take k)).linked localHashes none block.header = true := by
  refine decide_eq_true ?_
  cases k with
  | zero => exact .inl (UInt64.toNat_inj.mp (h.index 0 block hblock))
  | succ k =>
    refine .inr (.inl ?_)
    obtain ⟨hlt, -⟩ := List.getElem?_eq_some_iff.mp hblock
    have hprev := getElem?_eq_getElem (Nat.lt_of_succ_lt hlt)
    have hmem : chain[k] ∈ chain.take (k + 1) := mem_take_iff_getElem.mpr ⟨k, by omega, rfl⟩
    have hget := get?_cached (h.distinct.sublist ((take_sublist _ _).map _)) hmem
    rw [← h.link k _ _ hprev hblock] at hget
    exact Std.ExtTreeMap.contains_iff_mem.mpr (Std.ExtTreeMap.mem_iff_isSome_getElem?.mpr
      (Option.isSome_iff_exists.mpr ⟨_, hget⟩))

/-- A batch of the peer's headers is taken whole. -/
theorem ingest_batch (h : Served crates chain) (localHashes : List String) {k : Nat}
    (hk : k < chain.length) (n : Nat) :
    (cached (chain.take k)).ingest crates (((chain.drop k).take (n + 1)).map Block.header)
      localHashes = .ok (((chain.drop k).take (n + 1)).length, cached (chain.take (k + (n + 1)))) := by
  have hcached : cached (chain.take (k + (n + 1))) =
      (((chain.drop k).take (n + 1)).map Block.header).foldl HeaderCache.insert
        (cached (chain.take k)) := by
    rw [take_add, cached, map_append, foldl_append]
    rfl
  have hsplit : (chain.drop k).take (n + 1) = chain[k] :: (chain.drop (k + 1)).take n := by
    rw [drop_eq_getElem_cons hk, take_succ_cons]
  have hlength : ((chain.drop (k + 1)).take n).length =
      (((chain.drop (k + 1)).take n).map Block.header).length := (length_map _).symm
  rw [hcached, hsplit, map_cons, length_cons, hlength]
  refine HeaderCache.ingest_follows ?_ _ (linked_next h (getElem?_eq_getElem hk)) ?_
  · rw [← map_cons, ← hsplit, forall_mem_map]
    exact fun block hblock => h.pow block (mem_of_mem_drop (mem_of_mem_take hblock))
  · rw [← map_cons, ← hsplit]
    refine h.follows.infix (List.IsInfix.map _ ?_)
    exact ( take_prefix _ _).isInfix.trans (drop_suffix _ _).isInfix

/-- The first phase takes the whole chain, batch by batch: `j` batches are there already. -/
theorem syncHeaders_complete (h : Served crates chain) (localHashes : List String) (fuel j : Nat)
    {fromHeight : UInt64} (hfrom : fromHeight.toNat = MAX_HEADERS_BATCH * j)
    (hj : MAX_HEADERS_BATCH * j ≤ chain.length)
    (hfuel : chain.length < MAX_HEADERS_BATCH * (j + fuel)) :
    syncHeaders crates (answerFrom chain) localHashes fuel
      (cached (chain.take (MAX_HEADERS_BATCH * j))) fromHeight = some (.ok (cached chain)) := by
  have hbatch : MAX_HEADERS_BATCH = 2000 := rfl
  have hmul : ∀ n, MAX_HEADERS_BATCH * n = 2000 * n := fun _ => rfl
  induction fuel generalizing j fromHeight with
  | zero => exact absurd hfuel (Nat.not_lt.mpr hj)
  | succ fuel ih =>
    rw [syncHeaders, headers_of_answer h, hfrom]
    dsimp only
    rcases hj.lt_or_eq with hlt | hall
    · have hingest := ingest_batch h localHashes hlt 1999
      rw [show 1999 + 1 = MAX_HEADERS_BATCH from rfl] at hingest
      have hlength : ((chain.drop (MAX_HEADERS_BATCH * j)).take MAX_HEADERS_BATCH).length =
          min MAX_HEADERS_BATCH (chain.length - MAX_HEADERS_BATCH * j) := by
        rw [length_take, length_drop]
      rw [if_neg (by rw [map_eq_nil_iff, ← length_eq_zero_iff]; omega), hingest]
      dsimp only
      rw [if_neg (by omega), length_map]
      split
      · rw [take_of_length_le (by omega)]
      · rename_i hfull
        have hnext : MAX_HEADERS_BATCH * (j + 1) = MAX_HEADERS_BATCH * j + MAX_HEADERS_BATCH :=
          Nat.mul_succ _ _
        have hle : MAX_HEADERS_BATCH * (j + 1) ≤ chain.length := by omega
        have hthis := hmul j
        have hlast := getElem?_eq_getElem (l := chain) (i := MAX_HEADERS_BATCH * j + 1999) (by omega)
        have hmax := h.maxIndex_cached hlast
        rw [show MAX_HEADERS_BATCH * j + 1999 + 1 = MAX_HEADERS_BATCH * (j + 1) by omega] at hmax
        rw [← hnext, hmax]
        refine ih (j + 1) ?_ hle (by rwa [Nat.add_right_comm])
        -- The next height is a multiple of the batch size, so it is not `2 ^ 64`.
        have hbound := h.length_le
        have hindex := h.index _ _ hlast
        rw [Option.map_some, Option.getD_some, UInt64.toNat_add, hindex, UInt64.toNat_one]
        omega
    · rw [hall, drop_length, take_length]
      rfl

end

/-! ### The second phase -/

/-- How many blocks the chains share, by their hashes. -/
def sharedLength (localChain peerChain : List Block) : Nat :=
  ((peerChain.zip localChain).takeWhile fun pair => pair.1.hash = pair.2.hash).length

variable {localInfo : ChainInfo}

section
variable {crates : Crates} {chain localChain : List Block}

theorem take_sharedLength (localChain chain : List Block) :
    ((chain.zip localChain).takeWhile fun pair => pair.1.hash = pair.2.hash) =
      (chain.zip localChain).take (sharedLength localChain chain) :=
  prefix_iff_eq_take.mp ( takeWhile_prefix _)

theorem sharedLength_le (localChain chain : List Block) :
    sharedLength localChain chain ≤ chain.length ∧
      sharedLength localChain chain ≤ localChain.length := by
  have h := ( takeWhile_prefix (l := chain.zip localChain)
    fun pair => pair.1.hash = pair.2.hash).length_le
  rw [length_zip] at h
  exact le_min_iff.mp h

/-- Below the fork point the hashes agree. -/
theorem hash_eq_of_lt {i : Nat} {a b : Block} (hi : i < sharedLength localChain chain)
    (ha : chain[i]? = some a) (hb : localChain[i]? = some b) : a.hash = b.hash := by
  have hpair : (a, b) ∈ (chain.zip localChain).takeWhile fun pair => pair.1.hash = pair.2.hash := by
    rw [take_sharedLength]
    refine mem_of_getElem? (i := i) ?_
    rw [getElem?_take_of_lt hi, getElem?_zip_eq_some]
    exact ⟨ha, hb⟩
  have hsame := mem_takeWhile_imp hpair
  exact of_decide_eq_true hsame

theorem sharedLength_pos (hgenesis : localChain.head? = chain.head?) (hchain : chain ≠ []) :
    0 < sharedLength localChain chain := by
  obtain ⟨genesis, rest, rfl⟩ := exists_cons_of_ne_nil hchain
  obtain ⟨_, rfl⟩ := head?_eq_some_iff.mp hgenesis
  rw [sharedLength, zip_cons_cons, takeWhile_cons, if_pos (decide_eq_true rfl)]
  exact Nat.succ_pos _

theorem sharedPairs_header (localChain chain : List Block) :
    sharedPairs (chain.map Block.header) localChain =
      ((chain.zip localChain).take (sharedLength localChain chain)).map
        (Prod.map Block.header id) := by
  rw [← take_sharedLength, sharedPairs, zip_map_left, takeWhile_map]
  rfl

theorem length_sharedPairs (localChain chain : List Block) :
    (sharedPairs (chain.map Block.header) localChain).length = sharedLength localChain chain := by
  have h := sharedLength_le localChain chain
  rw [sharedPairs_header, length_map, length_take, length_zip]
  omega

/-- The fork point is below the number of shared blocks. -/
theorem forkIndex_eq (h : HeaderChain crates chain) (hpos : 0 < sharedLength localChain chain) :
    (((sharedPairs (chain.map Block.header) localChain).getLast?.map
      fun pair : BlockHeader × Block => pair.1.index).getD 0).toNat + 1 =
      sharedLength localChain chain := by
  obtain ⟨hle, hle'⟩ := sharedLength_le localChain chain
  have ha := getElem?_eq_getElem (l := chain) (i := sharedLength localChain chain - 1) (by omega)
  have hb := getElem?_eq_getElem (l := localChain) (i := sharedLength localChain chain - 1)
    (by omega)
  have hzip := getElem?_zip_eq_some (z := (_, _)).mpr ⟨ha, hb⟩
  have hlast : (sharedPairs (chain.map Block.header) localChain).getLast? =
      some ((chain.get ⟨sharedLength localChain chain - 1, by omega⟩).header,
        localChain.get ⟨sharedLength localChain chain - 1, by omega⟩) := by
    rw [getLast?_eq_getElem?, length_sharedPairs, sharedPairs_header, getElem?_map,
      getElem?_take_of_lt (by omega), hzip]
    rfl
  rw [hlast]
  have hindex := h.index _ _ ha
  change (chain.get ⟨sharedLength localChain chain - 1, _⟩).index.toNat + 1 = _
  rw [get_eq_getElem, hindex]
  omega

theorem walkFrom_chain (h : Served crates chain) {i steps : Nat}
    (hblock : chain[i]? = some block) (hi : i ≤ steps) (above : List BlockHeader) :
    walkFrom (cached chain) steps block.header above =
      some ((chain.take (i + 1)).map Block.header ++ above) := by
  induction i generalizing block steps above with
  | zero =>
    have hindex : block.header.index = 0 := UInt64.toNat_inj.mp (h.index 0 block hblock)
    unfold walkFrom
    rw [if_pos hindex, take_add_one, hblock]
    rfl
  | succ i ih =>
    obtain ⟨steps, rfl⟩ : ∃ n, steps = n + 1 := ⟨steps - 1, by omega⟩
    obtain ⟨hlt, -⟩ := List.getElem?_eq_some_iff.mp hblock
    have hprev := getElem?_eq_getElem (Nat.lt_of_succ_lt hlt)
    have hindex : ¬ block.header.index = 0 := by
      intro hzero
      have hnext := h.index _ _ hblock
      have hzero : block.index.toNat = 0 := congrArg UInt64.toNat hzero
      omega
    have hparent : (cached chain).byHash[block.header.previousHash]? = some chain[i].header := by
      have hlink : block.header.previousHash = chain[i].hash := h.link i _ _ hprev hblock
      rw [hlink]
      exact get?_cached h.distinct (getElem_mem _)
    unfold walkFrom
    rw [if_neg hindex, hparent]
    change walkFrom (cached chain) steps chain[i].header (block.header :: above) = _
    rw [ih hprev (by omega), take_add_one (i := i + 1), hblock, map_append,
      append_assoc]
    rfl

variable {last : Block}

theorem walkAncestry_last (h : Served crates chain) (hlast : chain.getLast? = some last) :
    walkAncestry (cached chain) last.header = some (chain.map Block.header) := by
  have hsize : (cached chain).byHash.size = chain.length := by
    rw [byHash_cached, HashMap.size_keyed (by rw [map_hash_header]; exact h.distinct), length_map]
  have hpos := length_pos_iff.mpr h.ne
  rw [getLast?_eq_getElem?] at hlast
  rw [walkAncestry, walkFrom_chain h hlast (by omega), append_nil,
    take_of_length_le (by omega)]

/-- The last header is the only one that no other names as its parent. -/
theorem filter_tips (h : Served crates chain) (hlast : chain.getLast? = some last) :
    ((chain.map Block.header).filter fun header =>
      header.hash ∉ (chain.map Block.header).map BlockHeader.previousHash) = [last.header] := by
  have hparents : (chain.map Block.header).map BlockHeader.previousHash =
      chain.map Block.previousHash := by
    rw [map_map]
    rfl
  rw [hparents]
  obtain ⟨blocks, hblocks⟩ := getLast?_eq_some_iff.mp hlast
  have hbelow : ∀ header ∈ blocks.map Block.header, header.hash ∈ chain.map Block.previousHash := by
    intro header hheader
    obtain ⟨block, hblock, rfl⟩ := mem_map.mp hheader
    obtain ⟨i, hi, rfl⟩ := mem_iff_getElem.mp hblock
    have hlength : chain.length = blocks.length + 1 := by rw [hblocks]; simp
    have hthis : chain[i]? = some blocks[i] := by
      rw [hblocks, getElem?_append_left hi, getElem?_eq_getElem hi]
    have hnext := getElem?_eq_getElem (l := chain) (i := i + 1) (by omega)
    exact mem_map.mpr ⟨_, mem_of_getElem? hnext, h.link i _ _ hthis hnext⟩
  have htip : last.hash ∉ chain.map Block.previousHash := by
    intro hmem
    obtain ⟨block, hblock, hparent⟩ := mem_map.mp hmem
    obtain ⟨i, hi, rfl⟩ := mem_iff_getElem.mp hblock
    cases i with
    | zero =>
      have hmem : last.hash ∈ chain.map Block.hash :=
        mem_map_of_mem (mem_of_getLast? hlast)
      rw [← hparent] at hmem
      refine h.root _ ?_ hmem
      rw [head?_eq_getElem?]
      exact getElem?_eq_getElem hi
    | succ i =>
      -- Its parent has the hash of the last block, and so is the last block.
      have hprev := getElem?_eq_getElem (Nat.lt_of_succ_lt hi)
      rw [h.link i _ _ hprev (getElem?_eq_getElem hi)] at hparent
      rw [getLast?_eq_getElem?] at hlast
      have hsame : (chain.map Block.hash)[i]? = (chain.map Block.hash)[chain.length - 1]? := by
        rw [getElem?_map, getElem?_map, hprev, hlast, Option.map_some, hparent,
          Option.map_some]
      have hindex := (getElem?_inj (by rw [length_map]; omega) h.distinct).mp hsame
      omega
  generalize chain.map Block.previousHash = parents at hbelow htip ⊢
  have hnone : (blocks.map Block.header).filter (fun header => header.hash ∉ parents) = [] := by
    rw [filter_eq_nil_iff]
    exact fun header hheader => by simpa using hbelow header hheader
  rw [hblocks, map_append, filter_append, hnone]
  have hkept : decide (last.header.hash ∉ parents) = true := decide_eq_true htip
  rw [map_singleton, filter_singleton, hkept]
  rfl

theorem forkPlan_eq (hgenesis : localChain.head? = chain.head?) (hne : chain ≠ []) (info : ChainInfo) :
    forkPlan localChain (chain.map Block.header) info =
      if sharedLength localChain chain < chain.length then
        some ⟨((sharedPairs (chain.map Block.header) localChain).getLast?.map
            fun pair : BlockHeader × Block => pair.1.index).getD 0,
          (chain.drop (sharedLength localChain chain)).map Block.header, info⟩
      else none := by
  have hshared := length_sharedPairs localChain chain
  obtain ⟨hle, hle'⟩ := sharedLength_le localChain chain
  have hpos := sharedLength_pos hgenesis hne
  rw [forkPlan, if_neg (by omega), hshared, map_drop]
  by_cases hmore : sharedLength localChain chain < chain.length
  · rw [if_pos hmore, if_neg (by rw [drop_eq_nil_iff, length_map]; omega)]
  · rw [if_neg hmore, if_pos (by rw [drop_eq_nil_iff, length_map]; omega)]

/-- The plan is that for the peer's chain, if it is better. -/
theorem planBestBranch_eq (h : Served crates chain) (hgenesis : localChain.head? = chain.head?)
    (hlast : chain.getLast? = some last) {work : U256}
    (hwork : cumulativeWork chain = .ok work) (hlocal : chainInfo localChain = .ok (some localInfo))
    (hheaders : headers.Perm (chain.map Block.header)) :
    planBestBranch headers localChain (cached chain) =
      .ok (if isBetter ⟨last.index, last.hash, work, last.timestamp⟩ localInfo then
        forkPlan localChain (chain.map Block.header) ⟨last.index, last.hash, work, last.timestamp⟩
      else none) := by
  obtain ⟨genesis, rest, rfl⟩ : ∃ genesis rest, localChain = genesis :: rest := by
    cases localChain with
    | nil => exact absurd hlocal nofun
    | cons genesis rest => exact ⟨genesis, rest, rfl⟩
  have htips : (headers.filter fun header => header.hash ∉ headers.map BlockHeader.previousHash) =
      [last.header] := by
    rw [← perm_singleton, ← filter_tips h hlast]
    refine (List.Perm.of_eq (filter_congr fun header _ => ?_)).trans (hheaders.filter _)
    exact decide_eq_decide.mpr (not_congr (hheaders.map BlockHeader.previousHash).mem_iff)
  have hnonempty : ¬ (cached chain).byHash.isEmpty = true := by
    intro hempty
    have hget := get?_cached h.distinct (mem_of_getLast? hlast)
    rw [Std.ExtTreeMap.isEmpty_iff.mp hempty, Std.ExtTreeMap.getElem?_empty] at hget
    exact absurd hget nofun
  have hconsider : considerTip (cached chain) genesis.hash none last.header = .ok (some
      (chain.map Block.header, ⟨last.index, last.hash, work, last.timestamp⟩)) := by
    have hhead : (chain.map Block.header).head?.map BlockHeader.hash = some genesis.hash := by
      rw [head?_map, ← hgenesis]
      rfl
    rw [considerTip, walkAncestry_last h hlast]
    dsimp only
    rw [if_neg (not_not.mpr hhead), cumulativeWorkHeaders_map]
    exact bind_eq_ok.mpr ⟨work, hwork, rfl⟩
  unfold planBestBranch
  refine (if_neg hnonempty).trans ?_
  refine bind_eq_ok.mpr ⟨_, hlocal, bind_eq_ok.mpr ⟨some (chain.map Block.header,
    ⟨last.index, last.hash, work, last.timestamp⟩), ?_, rfl⟩⟩
  rw [htips, foldlM_cons, hconsider]
  rfl

end

/-! ### The third phase -/

variable {localChain : List Block}

section
variable {crates : Crates} {chain : List Block}

variable {α : Type}

theorem batches_map {β : Type} (f : α → β) (n : Nat) (xs : List α) :
    batches n (xs.map f) = (batches n xs).map (List.map f) := by
  fun_induction batches n xs with
  | case1 xs h =>
    rw [batches, dif_pos (by simpa using h)]
    rfl
  | case2 xs h ih =>
    rw [batches, dif_neg (by simpa using h), ← map_take, ← map_drop, ih, map_cons]

theorem flatten_batches {n : Nat} (hn : n ≠ 0) (xs : List α) : (batches n xs).flatten = xs := by
  fun_induction batches n xs with
  | case1 xs h => simp [h.resolve_right hn]
  | case2 xs h ih => rw [flatten_cons, ih, take_append_drop]

theorem length_of_mem_batches {n : Nat} {xs batch : List α} (h : batch ∈ batches n xs) :
    batch.length ≤ n := by
  fun_induction batches n xs with
  | case1 xs hxs => exact absurd h not_mem_nil
  | case2 xs hxs ih =>
    rcases mem_cons.mp h with rfl | h
    · exact length_take_le _ _
    · exact ih h

theorem mapM_requestedHash (h : ∀ block ∈ blocks, Survives crates block) :
    ∃ hashes : List Digest, (blocks.map Block.header).mapM requestedHash = .ok hashes ∧
      hashes.map (fun hash => hexEncode hash.toList) = blocks.map Block.hash := by
  induction blocks with
  | nil => exact ⟨[], rfl, rfl⟩
  | cons block blocks ih =>
    obtain ⟨hblock, hblocks⟩ := forall_mem_cons.mp h
    obtain ⟨d, -, hd⟩ := hblock.hash
    obtain ⟨hashes, hrequested, hhashes⟩ := ih hblocks
    refine ⟨d :: hashes, ?_, by rw [map_cons, hhashes, map_cons, hd]⟩
    have hown : requestedHash block.header = .ok d := by
      have hdecode : hexDecode block.header.hash = .ok d.toList := by
        rw [← hexDecode_hexEncode d.toList]
        exact congrArg hexDecode hd
      rw [requestedHash, hdecode]
      dsimp only
      rw [if_pos (by simp), digestOfBytes_toList]
    exact mapM_ok.mpr (.cons hown (mapM_ok.mp hrequested))

variable {hashes : List Digest}

/-- The blocks that are asked for are found. -/
theorem blocksByHashes_eq (hdistinct : (chain.map Block.hash).Nodup)
    (hblocks : ∀ block ∈ blocks, block ∈ chain)
    (hhashes : hashes.map (fun hash => hexEncode hash.toList) = blocks.map Block.hash) {max : Nat}
    (hmax : blocks.length ≤ max) : blocksByHashes chain hashes max = blocks := by
  have hfound : ∀ blocks : List Block, (∀ block ∈ blocks, block ∈ chain) →
      (blocks.map Block.hash).filterMap (fun hash => (blocksByHash chain)[hash]?) = blocks := by
    intro blocks hblocks
    induction blocks with
    | nil => rfl
    | cons block blocks ih =>
      obtain ⟨hblock, hblocks⟩ := forall_mem_cons.mp hblocks
      have hget : (blocksByHash chain)[block.hash]? = some block :=
        HashMap.get?_keyed hdistinct hblock
      rw [map_cons, filterMap_cons, hget, ih hblocks]
  have h := hfound blocks hblocks
  rw [← hhashes, filterMap_map] at h
  exact (congrArg (List.take max) h).trans (take_of_length_le hmax)

theorem answerFrom_getBlocks (chain : List Block) {request : List UInt8}
    (h : encodeGetBlocks hashes = .ok request) :
    answerFrom chain request = encodeBlocks (blocksByHashes chain hashes MAX_BLOCKS_BATCH) := by
  rw [answerFrom, decodeMessage_getBlocks h]

theorem checkBatch_own (h : ∀ block ∈ blocks, Survives crates block)
    (hdistinct : (blocks.map Block.hash).Nodup) :
    checkBatch crates (blocks.map Block.header) blocks = .ok () := by
  refine bind_eq_ok.mpr ⟨blocks.map Block.hash, ?_, guardWith_eq_ok.mpr ⟨?_, ?_⟩⟩
  · rw [mapM_ok, forall₂_map_right_iff, forall₂_same]
    intro block hblock
    obtain ⟨d, hhash, hd⟩ := (h block hblock).hash
    refine bind_eq_ok.mpr ⟨d, liftPanic_eq_ok.mpr hhash, bind_eq_ok.mpr
      ⟨(), guardWith_eq_ok.mpr ⟨hd.symm, ?_⟩, congrArg Except.ok hd.symm⟩⟩
    rw [map_hash_header, ← hd]
    exact mem_map_of_mem hblock
  · rw [hdistinct.dedup, length_map]
  · rw [length_map]

/-- All blocks are downloaded, batch by batch. -/
theorem downloadBodies_complete (h : Served crates chain) {pieces : List (List Block)}
    (hpieces : ∀ piece ∈ pieces, piece.Sublist chain ∧ piece.length ≤ MAX_BLOCKS_BATCH ∧
      ∃ payload, encodeBlocks piece = .ok payload)
    {total : Nat} (blocks : List Block) (htotal : total = (blocks ++ pieces.flatten).length) :
    downloadBodies crates (answerFrom chain) total (pieces.map (List.map Block.header)) blocks =
      .ok (blocks ++ pieces.flatten) := by
  induction pieces generalizing blocks with
  | nil => rw [flatten_nil, append_nil]; rfl
  | cons piece pieces ih =>
    obtain ⟨⟨hpiece, hlength, payload, hpayload⟩, hrest⟩ := forall_mem_cons.mp hpieces
    have hown : ∀ block ∈ piece, Survives crates block := fun block hblock =>
      h.survive block (hpiece.subset hblock)
    obtain ⟨hashes, hrequested, hhashes⟩ := mapM_requestedHash hown
    have hcount : hashes.length ≤ MAX_BLOCKS_BATCH := by
      have hsame := congrArg List.length hhashes
      rw [length_map, length_map] at hsame
      omega
    have hanswer := blocksByHashes_eq h.distinct (fun _ hblock => hpiece.subset hblock) hhashes hlength
    have hrequest : encodeGetBlocks hashes =
        .ok (MSG_GET_BLOCKS :: (putCount hashes ++ hashes.flatMap Vector.toList)) :=
      ensureFits_return.mpr ⟨hcount, rfl⟩
    refine bind_eq_ok.mpr ⟨hashes, hrequested, bind_eq_ok.mpr ⟨_, hrequest, ?_⟩⟩
    refine bind_eq_ok.mpr ⟨payload, ?_, bind_eq_ok.mpr
      ⟨piece, liftNet_eq_ok.mpr (parseBlocks_survives hown hpayload), bind_eq_ok.mpr
        ⟨(), checkBatch_own hown (h.distinct.sublist (hpiece.map _)), ?_⟩⟩⟩
    · rw [answerFrom_getBlocks chain hrequest, hanswer, hpayload]
    · rw [flatten_cons, ← append_assoc] at htotal ⊢
      split
      · rename_i hdone
        have hnil : pieces.flatten = [] := by
          have hlength : (blocks ++ piece ++ pieces.flatten).length =
              (blocks ++ piece).length + pieces.flatten.length := length_append
          rw [← length_eq_zero_iff]
          omega
        rw [hnil, append_nil]
        rfl
      · exact ih hrest (blocks ++ piece) htotal

/-- The third phase ends with the local blocks up to the fork point and the peer's after it. -/
theorem downloadPlan_complete (h : Served crates chain)
    (hpos : 0 < sharedLength localChain chain)
    (hfits : ∀ batch ∈ batches MAX_BLOCKS_BATCH (chain.drop (sharedLength localChain chain)),
      ∃ payload, encodeBlocks batch = .ok payload) (info : ChainInfo) :
    ∃ outcome, downloadPlan crates (answerFrom chain) localChain (cached chain)
        ⟨((sharedPairs (chain.map Block.header) localChain).getLast?.map
            fun pair : BlockHeader × Block => pair.1.index).getD 0,
          (chain.drop (sharedLength localChain chain)).map Block.header, info⟩ = .ok outcome ∧
      outcome.candidate = some (localChain.take (sharedLength localChain chain) ++
        chain.drop (sharedLength localChain chain)) := by
  have hfork := forkIndex_eq h.toHeaderChain hpos
  have hle := (sharedLength_le localChain chain).2
  have hpieces : ∀ piece ∈ batches MAX_BLOCKS_BATCH (chain.drop (sharedLength localChain chain)),
      piece.Sublist chain ∧ piece.length ≤ MAX_BLOCKS_BATCH ∧
        ∃ payload, encodeBlocks piece = .ok payload := by
    intro piece hpiece
    refine ⟨?_, length_of_mem_batches hpiece, hfits piece hpiece⟩
    have hpart := sublist_flatten_of_mem hpiece
    rw [flatten_batches (by decide)] at hpart
    exact hpart.trans (drop_sublist _ _)
  have hbodies := downloadBodies_complete h hpieces [] rfl
  rw [nil_append, flatten_batches (by decide), ← batches_map] at hbodies
  refine ⟨_, bind_eq_ok.mpr ⟨chain.drop (sharedLength localChain chain), ?_,
    bind_eq_ok.mpr ⟨(), guardWith_eq_ok.mpr ?_,
    bind_eq_ok.mpr ⟨(), guardWith_eq_ok.mpr ?_, rfl⟩⟩⟩, ?_⟩
  · rw [length_map]
    exact hbodies
  · rw [length_map]
  · dsimp only
    omega
  · rw [hfork]

/-! ### The round -/

/-- The round ends with the chain that has the local blocks up to the fork point and the
peer's blocks after it, if the peer's chain is better and has more blocks than the chains
share. -/
theorem sync_candidate (h : Served crates chain) (hgenesis : localChain.head? = chain.head?)
    (hlocal : HeaderChain crates localChain)
    (hfits : ∀ batch ∈ batches MAX_BLOCKS_BATCH (chain.drop (sharedLength localChain chain)),
      ∃ payload, encodeBlocks batch = .ok payload)
    {iterate : HashMap String BlockHeader → List BlockHeader}
    (hiterate : ∀ m, (iterate m).Perm (m.toList.map Prod.snd)) (fuel : Nat)
    (hfuel : chain.length < MAX_HEADERS_BATCH * fuel) :
    ∃ info localInfo outcome, chainInfo chain = .ok (some info) ∧
      chainInfo localChain = .ok (some localInfo) ∧
      syncHeadersFirst crates (answerFrom chain) iterate fuel localChain = some (.ok outcome) ∧
      outcome.candidate =
        if isBetter info localInfo ∧ sharedLength localChain chain < chain.length then
          some (localChain.take (sharedLength localChain chain) ++
            chain.drop (sharedLength localChain chain))
        else none := by
  obtain ⟨last, hlast⟩ := Option.isSome_iff_exists.mp (getLast?_isSome.mpr h.ne)
  obtain ⟨work, hwork, -⟩ := cumulativeWork_exact h.hexTargets h.work
  have hne : localChain ≠ [] := by
    rintro rfl
    exact h.ne (head?_eq_none_iff.mp hgenesis.symm)
  obtain ⟨_, localInfo, -, hlocalInfo, -⟩ := exists_chainInfo hne hlocal.hexTargets hlocal.work
  have hinfo := chainInfo_eq hlast hwork
  have hsync := syncHeaders_complete h (localChain.map Block.hash) fuel 0
    (UInt64.toNat_zero) (Nat.zero_le _) (by rwa [Nat.zero_add])
  have horder : (iterate (cached chain).byHash).Perm (chain.map Block.header) := by
    refine (hiterate _).trans ?_
    rw [byHash_cached]
    exact HashMap.toList_keyed (by rw [map_hash_header]; exact h.distinct)
  have hplan := planBestBranch_eq h hgenesis hlast hwork hlocalInfo horder
  rw [forkPlan_eq hgenesis h.ne] at hplan
  have hround : syncHeadersFirst crates (answerFrom chain) iterate fuel localChain =
      some (planAndDownload crates (answerFrom chain) iterate localChain (cached chain)) :=
    congrArg (Option.map _) hsync
  rw [hround]
  by_cases hbetter : isBetter ⟨last.index, last.hash, work, last.timestamp⟩ localInfo = true ∧
      sharedLength localChain chain < chain.length
  · rw [if_pos hbetter.1, if_pos hbetter.2] at hplan
    obtain ⟨outcome, houtcome, hcandidate⟩ := downloadPlan_complete h
      (sharedLength_pos hgenesis h.ne) hfits ⟨last.index, last.hash, work, last.timestamp⟩
    refine ⟨_, _, outcome, hinfo, hlocalInfo, congrArg some ?_, ?_⟩
    · exact bind_eq_ok.mpr ⟨_, liftPanic_eq_ok.mpr hplan, houtcome⟩
    · rw [if_pos hbetter, hcandidate]
  · have hnone : planBestBranch (iterate (cached chain).byHash) localChain (cached chain) =
        .ok none := by
      rw [hplan]
      split
      · rw [if_neg fun hmore => hbetter ⟨‹_›, hmore⟩]
      · rfl
    obtain ⟨outcome, houtcome, hcandidate⟩ : ∃ outcome,
        planAndDownload crates (answerFrom chain) iterate localChain (cached chain) = .ok outcome ∧
        outcome.candidate = none :=
      ⟨_, bind_eq_ok.mpr ⟨_, liftPanic_eq_ok.mpr hnone, rfl⟩, rfl⟩
    refine ⟨_, _, outcome, hinfo, hlocalInfo, congrArg some houtcome, ?_⟩
    rw [if_neg hbetter, hcandidate]

theorem take_shared
    (hsame : ∀ (i : Nat) (a b : Block), chain[i]? = some a → localChain[i]? = some b →
      a.hash = b.hash → a = b) :
    localChain.take (sharedLength localChain chain) = chain.take (sharedLength localChain chain) := by
  obtain ⟨hle, hle'⟩ := sharedLength_le localChain chain
  apply ext_getElem?
  intro i
  rcases Nat.lt_or_ge i (sharedLength localChain chain) with hi | hi
  · have ha := getElem?_eq_getElem (hi.trans_le hle)
    have hb := getElem?_eq_getElem (hi.trans_le hle')
    rw [getElem?_take_of_lt hi, getElem?_take_of_lt hi, ha, hb,
      hsame i _ _ ha hb (hash_eq_of_lt hi ha hb)]
  · rw [getElem?_eq_none (by rw [length_take]; omega),
      getElem?_eq_none (by rw [length_take]; omega)]

theorem HeaderChain.totalWork_eq {info : ChainInfo} (h : HeaderChain crates chain)
    (hinfo : chainInfo chain = .ok (some info)) : info.totalWork.toNat = exactWork chain := by
  have hne : chain ≠ [] := by
    rintro rfl
    cases hinfo
  obtain ⟨_, _, -, hinfo', hvalue, -⟩ := exists_chainInfo hne h.hexTargets h.work
  obtain rfl := Option.some.inj (Except.ok.inj (hinfo'.symm.trans hinfo))
  exact hvalue

/-- A chain is not better than one that continues it with work. -/
theorem not_isBetter_of_continued (hlocal : HeaderChain crates localChain)
    (hzero : ∀ block ∈ localChain, crates.headerHash block.header ≠ .ok zeroDigest)
    (hcontinued : localChain.take chain.length = chain) {info : ChainInfo}
    (hinfo : chainInfo chain = .ok (some info))
    (hlocalInfo : chainInfo localChain = .ok (some localInfo)) :
    isBetter info localInfo = false := by
  have hvalue := HeaderChain.totalWork_eq (hcontinued ▸ hlocal.take chain.length) hinfo
  have hlocalValue := hlocal.totalWork_eq hlocalInfo
  obtain ⟨rest, hrest⟩ : ∃ rest, localChain = chain ++ rest :=
    ⟨localChain.drop chain.length, by conv_lhs => rw [← take_append_drop chain.length localChain,
      hcontinued]⟩
  subst hrest
  cases rest with
  | nil =>
    rw [append_nil] at hlocalInfo
    obtain rfl := Option.some.inj (Except.ok.inj (hinfo.symm.trans hlocalInfo))
    exact isBetter_eq_false_iff.mpr le_rfl
  | cons next rest =>
    have hnext : next ∈ chain ++ next :: rest := mem_append_right _ mem_cons_self
    have hpos : 0 < exactWork (next :: rest) := exactWork_pos
      ⟨next, mem_cons_self, targetValue_of_pow (hlocal.pow next hnext) (hzero next hnext)⟩
    have hsum := exactWork_append chain (next :: rest)
    exact (isBetter_of_work (by omega)).2

/-- **Sync with an honest peer.**  The round ends; its candidate is the peer's chain if that is
better than the local one, and otherwise there is none.  The chains have the same block
wherever they have the same hash, no block of the peer is the parent of the genesis block,
and no local header hashes to zero. -/
theorem headers_first_complete {localChain : List Block} (h : HeaderChain crates chain)
    (hlocal : HeaderChain crates localChain) (hgenesis : localChain.head? = chain.head?)
    (hne : chain ≠ []) (hdistinct : (chain.map Block.hash).Nodup)
    (hsurvive : ∀ block ∈ chain, Survives crates block)
    (hfits : ∀ batch ∈ batches MAX_BLOCKS_BATCH (chain.drop (sharedLength localChain chain)),
      ∃ payload, encodeBlocks batch = .ok payload)
    (hroot : ∀ genesis ∈ chain.head?, genesis.previousHash ∉ chain.map Block.hash)
    (hzero : ∀ block ∈ localChain, crates.headerHash block.header ≠ .ok zeroDigest)
    (hsame : ∀ (i : Nat) (a b : Block), chain[i]? = some a → localChain[i]? = some b →
      a.hash = b.hash → a = b)
    {iterate : HashMap String BlockHeader → List BlockHeader}
    (hiterate : ∀ m, (iterate m).Perm (m.toList.map Prod.snd))
    (fuel : Nat) (hfuel : chain.length < MAX_HEADERS_BATCH * fuel) :
    ∃ info localInfo outcome, chainInfo chain = .ok (some info) ∧
      chainInfo localChain = .ok (some localInfo) ∧
      syncHeadersFirst crates (answerFrom chain) iterate fuel localChain = some (.ok outcome) ∧
      outcome.candidate = if isBetter info localInfo then some chain else none := by
  obtain ⟨info, localInfo, outcome, hinfo, hlocalInfo, houtcome, hcandidate⟩ :=
    sync_candidate ⟨h, hsurvive, hdistinct, hroot, hne⟩ hgenesis hlocal hfits hiterate fuel hfuel
  refine ⟨info, localInfo, outcome, hinfo, hlocalInfo, houtcome, ?_⟩
  have htake := take_shared hsame
  have hle := (sharedLength_le localChain chain).1
  rw [hcandidate, htake, take_append_drop]
  by_cases hmore : sharedLength localChain chain < chain.length
  · exact if_congr (and_iff_left hmore) rfl rfl
  · -- The local chain continues the peer's, so the peer's is not better.
    have hall : sharedLength localChain chain = chain.length := by omega
    rw [hall, take_length] at htake
    rw [if_neg fun hboth => hmore hboth.2, if_neg]
    rw [not_isBetter_of_continued hlocal hzero htake hinfo hlocalInfo]
    decide

end

/-! ### Two rounds -/

/-- A header at the highest target. -/
def easyFields (index : UInt64) (previousHash : Digest) : HeaderFields :=
  { zeroFields with index := index, previousHash := previousHash, target := Vector.replicate 32 255 }

def easyHash (index : UInt64) (previousHash : Digest) : Digest :=
  nonzeroCrates.blake3 (easyFields index previousHash).bytes

def easyBlock (index : UInt64) (previousHash : Digest) (txs : List Transaction) : Block :=
  Block.fromHeader ((easyFields index previousHash).header nonzeroCrates) txs

/-- The hashes of a chain of three. -/
def firstHash : Digest := easyHash 0 zeroDigest
def secondHash : Digest := easyHash 1 firstHash
def thirdHash : Digest := easyHash 2 secondHash

/-- Three blocks without transactions. -/
def easyChain : List Block :=
  [easyBlock 0 zeroDigest [], easyBlock 1 firstHash [], easyBlock 2 secondHash []]

theorem hash_easyBlock (index : UInt64) (previousHash : Digest) (txs : List Transaction) :
    (easyBlock index previousHash txs).hash = hexEncode (easyHash index previousHash).toList := rfl

theorem headerHash_easyBlock (index : UInt64) (previousHash : Digest) (txs : List Transaction) :
    nonzeroCrates.headerHash (easyBlock index previousHash txs).header =
      .ok (easyHash index previousHash) :=
  bind_eq_ok.mpr ⟨_, (easyFields index previousHash).serializeHeader_eq _, rfl⟩

theorem targetBytes_easyBlock (index : UInt64) (previousHash : Digest) (txs : List Transaction) :
    targetBytes (easyBlock index previousHash txs).target = .ok (Vector.replicate 32 255) :=
  targetBytes_eq_ok.mpr (hexDecode_hexEncode _)

theorem pow_easyBlock (index : UInt64) (previousHash : Digest) (txs : List Transaction) :
    validateHeaderPow nonzeroCrates (easyBlock index previousHash txs).header = .ok () := by
  refine validateHeaderPow_eq_ok.mpr ⟨_, _, headerHash_easyBlock index previousHash txs, .inr rfl,
    targetBytes_easyBlock index previousHash txs, ?_⟩
  have hmax : (u256FromBytes (Vector.replicate 32 255)).toNat = 2 ^ 256 - 1 := by decide
  have hlt := (u256FromBytes (easyHash index previousHash)).toNat_lt
  omega

theorem work_easyBlock (index : UInt64) (previousHash : Digest) (txs : List Transaction) :
    (easyBlock index previousHash txs).work = 1 := by
  rw [Block.work_eq (targetBytes_easyBlock index previousHash txs), toNat_workFromTarget]
  decide

theorem survives_easyBlock (index : UInt64) (previousHash : Digest) :
    Survives nonzeroCrates (easyBlock index previousHash []) :=
  ⟨_, bind_eq_ok.mpr ⟨_, (easyFields index previousHash).serializeHeader_eq _, rfl⟩,
    deserializeBlock_serialized nonzeroCrates (Nat.two_pow_pos 32) nofun⟩

/-- A chain of three at the highest target. -/
theorem headerChain_easy (txs : List Transaction) : HeaderChain nonzeroCrates
    [easyBlock 0 zeroDigest [], easyBlock 1 firstHash txs, easyBlock 2 secondHash []] where
  pow block hblock := by
    simp only [mem_cons, not_mem_nil, or_false] at hblock
    rcases hblock with rfl | rfl | rfl <;> exact pow_easyBlock _ _ _
  link i a b ha hb := by
    match i with
    | 0 => obtain ⟨rfl, rfl⟩ := And.intro (Option.some.inj ha) (Option.some.inj hb); rfl
    | 1 => obtain ⟨rfl, rfl⟩ := And.intro (Option.some.inj ha) (Option.some.inj hb); rfl
    | i + 2 => exact absurd hb (by simp)
  index i block hblock := by
    match i with
    | 0 => obtain rfl := Option.some.inj hblock; rfl
    | 1 => obtain rfl := Option.some.inj hblock; rfl
    | 2 => obtain rfl := Option.some.inj hblock; rfl
    | i + 3 => exact absurd hblock (by simp)
  work := by
    rw [exactWork]
    simp only [map_cons, map_nil, work_easyBlock]
    decide

theorem headerChain_easyChain : HeaderChain nonzeroCrates easyChain := headerChain_easy []

theorem digests_easy : [zeroDigest, firstHash, secondHash, thirdHash].Nodup := by decide +kernel

theorem hashes_easy : (easyChain.map Block.hash).Nodup ∧
    ∀ genesis ∈ easyChain.head?, genesis.previousHash ∉ easyChain.map Block.hash := by
  have hinjective : Function.Injective fun d : Digest => hexEncode d.toList :=
    hexEncode_injective.comp fun _ _ => Vector.toList_inj.mp
  have hmap : easyChain.map Block.hash =
      [firstHash, secondHash, thirdHash].map fun d : Digest => hexEncode d.toList := rfl
  obtain ⟨hzero, hnodup⟩ := nodup_cons.mp digests_easy
  rw [hmap]
  refine ⟨hnodup.map hinjective, ?_⟩
  rintro _ ⟨⟩ hmem
  exact hzero ((mem_map_of_injective hinjective).mp hmem)

/-- A batch of short blocks fits a message. -/
theorem encodeBlocks_of_le {n : Nat} (hcount : blocks.length ≤ MAX_BLOCKS_BATCH)
    (hbodies : ∀ block ∈ blocks, ∃ body, serializeBlock block = .ok body ∧ body.length ≤ n)
    (hblock : n ≤ MAX_BLOCK_SIZE) (hmessage : 5 + (4 + n) * MAX_BLOCKS_BATCH ≤ MAX_MESSAGE_SIZE) :
    ∃ payload, encodeBlocks blocks = .ok payload := by
  obtain ⟨bodies, hall⟩ := exists_forall₂ hbodies
  have hlength : (bodies.flatMap writeBytes).length ≤ (4 + n) * bodies.length :=
    length_flatMap_writeBytes_le fun body hbody =>
      (exists_of_forall₂ hall hbody).elim fun _ h => h.2.2
  have hbound : (4 + n) * bodies.length ≤ (4 + n) * MAX_BLOCKS_BATCH :=
    Nat.mul_le_mul_left _ (hall.length_eq ▸ hcount)
  refine ⟨MSG_BLOCKS :: (putCount blocks ++ bodies.flatMap writeBytes), ensureFits_bind.mpr
    ⟨hcount, bind_eq_ok.mpr ⟨bodies, mapM_ok.mpr (hall.imp fun _ _ h =>
      encodeBlockBody_ok.mpr ⟨h.1, h.2.trans hblock⟩), ensureFits_return.mpr ⟨?_, rfl⟩⟩⟩⟩
  simp only [length_cons, length_append, length_putCount]
  omega

theorem survives_easyChain : ∀ block ∈ easyChain, Survives nonzeroCrates block := by
  intro block hblock
  simp only [easyChain, mem_cons, not_mem_nil, or_false] at hblock
  rcases hblock with rfl | rfl | rfl <;> exact survives_easyBlock _ _

theorem encodeBlocks_easy (localChain : List Block) :
    ∀ batch ∈ batches MAX_BLOCKS_BATCH (easyChain.drop (sharedLength localChain easyChain)),
      ∃ payload, encodeBlocks batch = .ok payload := by
  intro batch hbatch
  have hpart := sublist_flatten_of_mem hbatch
  rw [flatten_batches (by decide)] at hpart
  refine encodeBlocks_of_le (n := 200) (length_of_mem_batches hbatch) (fun block hblock => ?_)
    (Nat.le_of_ble_eq_true rfl) (Nat.le_of_ble_eq_true rfl)
  have hmem : block ∈ easyChain := mem_of_mem_drop (hpart.subset hblock)
  have hbody : ∀ index previousHash, ∃ body, serializeBlock (easyBlock index previousHash []) =
      .ok body ∧ body.length ≤ 200 := by
    intro index previousHash
    refine ⟨_, bind_eq_ok.mpr
      ⟨_, (easyFields index previousHash).serializeHeader_eq _, rfl⟩, ?_⟩
    have hlength := (easyFields index previousHash).length_bytes
    have hwire : HEADER_WIRE_LEN = 189 := rfl
    change ((easyFields index previousHash).bytes ++ toBeBytes32 _ ++ []).length ≤ 200
    rw [append_nil, length_append, length_toBeBytes32, hlength]
    omega
  simp only [easyChain, mem_cons, not_mem_nil, or_false] at hmem
  rcases hmem with rfl | rfl | rfl <;> exact hbody _ _

def tableOrder (m : HashMap String BlockHeader) : List BlockHeader := m.toList.map Prod.snd

theorem perm_tableOrder (m : HashMap String BlockHeader) :
    (tableOrder m).Perm (m.toList.map Prod.snd) :=
  List.Perm.refl _

/-- A chain of three has more work than a chain of fewer blocks. -/
theorem isBetter_easy {info : ChainInfo} (hlocal : HeaderChain nonzeroCrates localChain)
    (hwork : exactWork localChain < 3) (hinfo : chainInfo easyChain = .ok (some info))
    (hlocalInfo : chainInfo localChain = .ok (some localInfo)) :
    isBetter info localInfo = true := by
  have hthree : exactWork easyChain = 3 := by
    rw [exactWork, easyChain]
    simp only [map_cons, map_nil, work_easyBlock]
    decide
  refine (isBetter_of_work ?_).1
  rw [headerChain_easyChain.totalWork_eq hinfo, hlocal.totalWork_eq hlocalInfo]
  exact hwork.trans_eq hthree.symm

theorem headers_first_from_genesis :
    ∃ outcome, syncHeadersFirst nonzeroCrates (answerFrom easyChain) tableOrder 1
        (easyChain.take 1) = some (.ok outcome) ∧
      outcome.candidate = some easyChain := by
  have hlocal := headerChain_easyChain.take 1
  obtain ⟨info, localInfo, outcome, hinfo, hlocalInfo, houtcome, hcandidate⟩ :=
    headers_first_complete headerChain_easyChain hlocal rfl (cons_ne_nil _ _) hashes_easy.1
      survives_easyChain (encodeBlocks_easy _) hashes_easy.2
      (fun block hblock hzero => by
        obtain rfl := mem_singleton.mp hblock
        have hfirst := Except.ok.inj ((headerHash_easyBlock 0 zeroDigest []).symm.trans hzero)
        exact (nodup_cons.mp digests_easy).1 (hfirst ▸ mem_cons_self))
      (fun i a b ha hb _ => by
        match i with
        | 0 => exact (Option.some.inj ha).symm.trans (Option.some.inj hb)
        | i + 1 => exact absurd hb (by simp))
      perm_tableOrder 1 (by decide)
  refine ⟨outcome, houtcome, ?_⟩
  have hone : exactWork (easyChain.take 1) < 3 := by
    change exactWork [easyBlock 0 zeroDigest []] < 3
    rw [exactWork, map_singleton, work_easyBlock]
    decide
  rw [hcandidate, if_pos (isBetter_easy hlocal hone hinfo hlocalInfo)]

/-- The local chain has the peer's first two headers, the second with another body. -/
def otherBodies : List Block := [easyBlock 0 zeroDigest [], easyBlock 1 firstHash [.transfer flagged]]

/-- **Counterexample to the candidate being the peer's chain.**  Below the fork point the
candidate has the local bodies. -/
theorem headers_first_keeps_local_bodies :
    HeaderChain nonzeroCrates easyChain ∧ HeaderChain nonzeroCrates otherBodies ∧
    otherBodies.head? = easyChain.head? ∧ (easyChain.map Block.hash).Nodup ∧
    (∀ block ∈ easyChain, Survives nonzeroCrates block) ∧
    ∃ info localInfo outcome candidate, chainInfo easyChain = .ok (some info) ∧
      chainInfo otherBodies = .ok (some localInfo) ∧ isBetter info localInfo = true ∧
      syncHeadersFirst nonzeroCrates (answerFrom easyChain) tableOrder 1 otherBodies =
        some (.ok outcome) ∧
      outcome.candidate = some candidate ∧ candidate ≠ easyChain := by
  have hlocal : HeaderChain nonzeroCrates otherBodies :=
    (headerChain_easy [.transfer flagged]).take 2
  have htwo : exactWork otherBodies < 3 := by
    rw [exactWork, otherBodies]
    simp only [map_cons, map_nil, work_easyBlock]
    decide
  have hshared : sharedLength otherBodies easyChain = 2 := by
    rw [sharedLength, otherBodies, easyChain]
    simp [hash_easyBlock]
  have hgenesis : otherBodies.head? = easyChain.head? := rfl
  obtain ⟨info, localInfo, outcome, hinfo, hlocalInfo, houtcome, hcandidate⟩ :=
    sync_candidate ⟨headerChain_easyChain, survives_easyChain, hashes_easy.1, hashes_easy.2,
      cons_ne_nil _ _⟩ hgenesis hlocal (encodeBlocks_easy _) perm_tableOrder 1 (by decide)
  have hbetter := isBetter_easy hlocal htwo hinfo hlocalInfo
  have hmore : sharedLength otherBodies easyChain < easyChain.length := hshared.trans_lt (by decide)
  rw [if_pos ⟨hbetter, hmore⟩, hshared] at hcandidate
  refine ⟨headerChain_easyChain, hlocal, hgenesis, hashes_easy.1, survives_easyChain, info, localInfo,
    outcome, _, hinfo, hlocalInfo, hbetter, houtcome, hcandidate, fun hsame => ?_⟩
  have hbody := congrArg (fun blocks => (blocks[1]?).map fun b => b.transactions.length) hsame
  exact absurd hbody (by decide)

end Strangecoin
