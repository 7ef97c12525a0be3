import Strangecoin.BlockCodec
import Strangecoin.TransactionRoundTrip

/-! # Round trips of headers and blocks

The headers on the wire are those whose two hashes are 32 bytes and whose stored
hash is their own (`HeaderFields`).  A block that is accepted is a header, a count and that
many encoded transactions, and nothing more.
-/
namespace Strangecoin
open List

open Reader

/-! ### Headers -/

/-- What the bytes of a header say. -/
structure HeaderFields where
  index : UInt64
  timestamp : UInt64
  previousHash : Digest
  txRoot : Digest
  target : Digest
  nonce : UInt64
  consensusVersion : UInt32
  stateRoot : Digest
  receiptsRoot : Digest

namespace HeaderFields

def bytes (f : HeaderFields) : List UInt8 :=
  [FORMAT_VERSION] ++ ([] ++ (toBeBytes f.index ++ (toBeBytes f.timestamp ++
    (f.previousHash.toList ++ (f.txRoot.toList ++ (f.target.toList ++ (toBeBytes f.nonce ++
    (toBeBytes32 f.consensusVersion ++ (f.stateRoot.toList ++
    (f.receiptsRoot.toList ++ []))))))))))

/-- The header before its hash is known. -/
def unhashed (f : HeaderFields) : BlockHeader where
  index := f.index
  timestamp := f.timestamp
  previousHash := hexEncode f.previousHash.toList
  hash := ""
  nonce := f.nonce
  target := hexEncode f.target.toList
  consensusVersion := f.consensusVersion
  stateRoot := f.stateRoot
  txRoot := f.txRoot
  receiptsRoot := f.receiptsRoot

/-- The header with its own hash. -/
def header (crates : Crates) (f : HeaderFields) : BlockHeader :=
  { f.unhashed with hash := hexEncode (crates.blake3 f.bytes).toList }

theorem length_bytes (f : HeaderFields) : f.bytes.length = HEADER_WIRE_LEN := by
  simp [bytes, HEADER_WIRE_LEN]

/-- The stored hash is not encoded. -/
theorem serializeHeader_eq (f : HeaderFields) (hash : String) :
    serializeHeader { f.unhashed with hash := hash } = .ok f.bytes := by
  have hprevious : bytes32OfHex "Invalid hex hash" "Expected 32-byte hash"
      (hexEncode f.previousHash.toList) = .ok f.previousHash.toList :=
    bytes32OfHex_eq_ok.mpr ⟨hexDecode_hexEncode _, f.previousHash.length_toList⟩
  have htarget : bytes32OfHex "Invalid target hex" "Target must be 32 bytes"
      (hexEncode f.target.toList) = .ok f.target.toList :=
    bytes32OfHex_eq_ok.mpr ⟨hexDecode_hexEncode _, f.target.length_toList⟩
  refine bind_eq_ok.mpr ⟨_, hprevious, bind_eq_ok.mpr ⟨_, htarget, ?_⟩⟩
  simp [bytes, unhashed, pure, Except.pure]

theorem hashHeader_unhashed (crates : Crates) (f : HeaderFields) :
    hashHeader crates f.unhashed = .ok (f.header crates) := by
  have hhash : crates.headerHash f.unhashed = .ok (crates.blake3 f.bytes) :=
    bind_eq_ok.mpr ⟨_, f.serializeHeader_eq "", rfl⟩
  unfold hashHeader
  rw [hhash]
  rfl

end HeaderFields

theorem reads_digest (d : Digest) : Reads readDigest d.toList d := by
  have h := (reads_take (e := WireFailure.panicked "range end index out of range")
    d.length_toList).bind (f := fun w => pure (digestOfBytes w)) reads_pure
  rwa [append_nil, digestOfBytes_toList] at h

theorem reads_hash (d : Digest) : Reads readHash d.toList (hexEncode d.toList) := by
  have h := (reads_take (e := WireFailure.panicked "range end index out of range")
    d.length_toList).bind (f := fun w => pure (hexEncode w)) reads_pure
  rwa [append_nil] at h

theorem deserializeHeader_bytes (crates : Crates) (f : HeaderFields) :
    deserializeHeader crates f.bytes = .ok (f.header crates) := by
  have hread : Reads (readHeader crates) f.bytes (f.header crates) := by
    have hversion : guardWith (FORMAT_VERSION = FORMAT_VERSION)
        (WireFailure.rejected "Unsupported format version") = .ok () := guardWith_eq_ok.mpr rfl
    exact reads_byte.bind ((reads_check hversion).bind ((reads_u64 _).mapError.bind
      ((reads_u64 _).mapError.bind ((reads_hash _).bind ((reads_digest _).bind ((reads_hash _).bind
      ((reads_u64 _).mapError.bind ((reads_u32 _).mapError.bind ((reads_digest _).bind
      ((reads_digest _).bind (reads_check (f.hashHeader_unhashed crates))))))))))))
  unfold deserializeHeader
  rw [if_neg (not_not.mpr f.length_bytes)]
  refine map_eq_ok.mpr ⟨(f.header crates, []), ?_, rfl⟩
  have hrun := hread []
  rwa [append_nil] at hrun

/-- The first bytes of a long enough string. -/
theorem exists_append {n : Nat} {l : List UInt8} (h : n ≤ l.length) :
    ∃ w rest, l = w ++ rest ∧ w.length = n ∧ rest.length = l.length - n :=
  ⟨l.take n, l.drop n, (take_append_drop n l).symm, length_take_of_le h, length_drop⟩

variable {bytes : List UInt8}

/-- **Every string of the right length and version is the encoding of a header.** -/
theorem exists_fields (hlength : bytes.length = HEADER_WIRE_LEN)
    (hversion : bytes.head? = some FORMAT_VERSION) : ∃ f : HeaderFields, bytes = f.bytes := by
  cases bytes with
  | nil => exact absurd hlength (by decide)
  | cons version bytes =>
    obtain rfl := Option.some.inj hversion
    have hlength : bytes.length = 188 := by simpa [HEADER_WIRE_LEN] using hlength
    obtain ⟨index, r₁, rfl, hindex, hr₁⟩ := exists_append (n := 8) (l := bytes) (by omega)
    obtain ⟨timestamp, r₂, rfl, htimestamp, hr₂⟩ := exists_append (n := 8) (l := r₁) (by omega)
    obtain ⟨previous, r₃, rfl, hprevious, hr₃⟩ := exists_append (n := 32) (l := r₂) (by omega)
    obtain ⟨txRoot, r₄, rfl, htxRoot, hr₄⟩ := exists_append (n := 32) (l := r₃) (by omega)
    obtain ⟨target, r₅, rfl, htarget, hr₅⟩ := exists_append (n := 32) (l := r₄) (by omega)
    obtain ⟨nonce, r₆, rfl, hnonce, hr₆⟩ := exists_append (n := 8) (l := r₅) (by omega)
    obtain ⟨consensus, r₇, rfl, hconsensus, hr₇⟩ := exists_append (n := 4) (l := r₆) (by omega)
    obtain ⟨state, receipts, rfl, hstate, hreceipts⟩ := exists_append (n := 32) (l := r₇) (by omega)
    refine ⟨⟨fromBeBytes64 index, fromBeBytes64 timestamp, digestOfBytes previous,
      digestOfBytes txRoot, digestOfBytes target, fromBeBytes64 nonce, fromBeBytes32 consensus,
      digestOfBytes state, digestOfBytes receipts⟩, ?_⟩
    have hreceipts : receipts.length = 32 := by omega
    simp only [HeaderFields.bytes, toBeBytes_fromBeBytes64, toBeBytes32_fromBeBytes32,
      toList_digestOfBytes, hindex, htimestamp, hprevious, htxRoot, htarget, hnonce, hconsensus,
      hstate, hreceipts, append_nil, nil_append, singleton_append]

theorem deserializeHeader_rejects (crates : Crates)
    (h : ¬ (bytes.length = HEADER_WIRE_LEN ∧ bytes.head? = some FORMAT_VERSION)) :
    ∃ message, deserializeHeader crates bytes = .error (.rejected message) := by
  unfold deserializeHeader
  split
  · exact ⟨_, rfl⟩
  · rename_i hlength
    cases bytes with
    | nil => exact absurd hlength (by decide)
    | cons version bytes =>
      have hversion : version ≠ FORMAT_VERSION := fun hv => h ⟨not_not.mp hlength, congrArg some hv⟩
      have hguard : (Reader.check (guardWith (version = FORMAT_VERSION)
          (WireFailure.rejected "Unsupported format version"))).run bytes =
          .error (.rejected "Unsupported format version") := by
        unfold guardWith
        rw [if_neg hversion]
        rfl
      refine ⟨"Unsupported format version", ?_⟩
      have hrun : (readHeader crates).run ([version] ++ bytes) =
          .error (.rejected "Unsupported format version") := by
        unfold readHeader
        rw [reads_byte.run_bind]
        exact run_bind_error hguard
      rw [singleton_append] at hrun
      rw [hrun]
      rfl

/-- A header that the decoder gives back. -/
structure WellFormedHeader (crates : Crates) (header : BlockHeader) : Prop where
  previousHash : ∃ d : Digest, header.previousHash = hexEncode d.toList
  target : ∃ d : Digest, header.target = hexEncode d.toList
  hash : ∃ d : Digest, crates.headerHash header = .ok d ∧ header.hash = hexEncode d.toList

theorem WellFormedHeader.exists_fields {crates : Crates} {header : BlockHeader}
    (h : WellFormedHeader crates header) : ∃ f : HeaderFields, header = f.header crates := by
  obtain ⟨index, timestamp, previousHash, hash, nonce, target, consensusVersion, stateRoot, txRoot,
    receiptsRoot⟩ := header
  obtain ⟨⟨previous, rfl⟩, ⟨goal, rfl⟩, hash', hhash, rfl⟩ := h
  let f : HeaderFields := ⟨index, timestamp, previous, txRoot, goal, nonce, consensusVersion,
    stateRoot, receiptsRoot⟩
  obtain ⟨bytes, hbytes, ⟨⟩⟩ := bind_eq_ok.mp hhash
  have hsame : Except.ok bytes = .ok f.bytes := hbytes.symm.trans (f.serializeHeader_eq _)
  obtain rfl := Except.ok.inj hsame
  exact ⟨f, rfl⟩

theorem HeaderFields.wellFormed (crates : Crates) (f : HeaderFields) :
    WellFormedHeader crates (f.header crates) where
  previousHash := ⟨f.previousHash, rfl⟩
  target := ⟨f.target, rfl⟩
  hash := ⟨_, bind_eq_ok.mpr ⟨f.bytes, f.serializeHeader_eq _, rfl⟩, rfl⟩

/-! ### Blocks -/

/-- The body of a transaction in a block. -/
def IsBody (w : List UInt8) (tx : Transaction) : Prop :=
  ∃ body : List UInt8, w = writeBytes body ∧ body.length < 2 ^ 32 ∧
    deserializeTransactionSigned body = .ok tx

variable {rest : List UInt8}

theorem readBlockTx_ok {tx : Transaction} (h : readBlockTx.run bytes = .ok (tx, rest)) :
    ∃ w, bytes = w ++ rest ∧ IsBody w tx := by
  obtain ⟨len, _, hlen, h⟩ := run_bind_ok.mp h
  obtain ⟨body, _, hbody, h⟩ := run_bind_ok.mp h
  obtain ⟨hdecode, rfl⟩ := run_check_ok.mp h
  obtain ⟨rfl, hlength⟩ := run_take_ok.mp hbody
  obtain ⟨hbytes, hshort⟩ := exact_prefixed (exact_u32 _ _ _ (run_mapError_ok.mp hlen)) hlength
  refine ⟨_, hbytes, body, rfl, hshort, ?_⟩
  cases hd : deserializeTransactionSigned body with
  | error e =>
    rw [hd] at hdecode
    exact absurd hdecode nofun
  | ok tx' =>
    rw [hd] at hdecode
    exact congrArg Except.ok (Except.ok.inj hdecode)

theorem reads_blockTx {body : List UInt8} {tx : Transaction}
    (hdecode : deserializeTransactionSigned body = .ok tx) (hshort : body.length < 2 ^ 32) :
    Reads readBlockTx (writeBytes body) tx := by
  have hcheck : (deserializeTransactionSigned body).mapError WireFailure.rejected = .ok tx := by
    rw [hdecode]
    rfl
  have hread : Reads readBlockTx (toBeBytes32 (UInt32.ofNat body.length) ++ (body ++ [])) tx :=
    (reads_u32 _).mapError.bind ((reads_take (toNat_ofNat_length hshort).symm).bind
      (reads_check hcheck))
  rwa [append_nil] at hread

theorem readTxCount_ok {count : UInt32} :
    readTxCount.run bytes = .ok (count, rest) ↔
      bytes = toBeBytes32 count ++ rest ∧ count.toNat ≤ rest.length / 4 := by
  constructor
  · intro h
    obtain ⟨count', mid, hcount, h⟩ := run_bind_ok.mp h
    change (if count'.toNat > mid.length / 4 then Except.error _ else .ok (count', mid)) = _ at h
    split at h
    · exact absurd h nofun
    · rename_i hle
      obtain ⟨rfl, rfl⟩ := ok_pair h
      exact ⟨exact_u32 _ _ _ (run_mapError_ok.mp hcount), by omega⟩
  · rintro ⟨rfl, hle⟩
    refine run_bind_ok.mpr ⟨count, rest, (reads_u32 count).mapError rest, ?_⟩
    change (if count.toNat > rest.length / 4 then Except.error _ else .ok (count, rest)) = _
    rw [if_neg (by omega)]

def Rejected (e : WireFailure) : Prop := ∃ message, e = .rejected message

theorem readBlockTxs_failsWith : FailsWith readBlockTxs Rejected := by
  have hrejected : ∀ message, Rejected (.rejected message) := fun message => ⟨message, rfl⟩
  have hcount : FailsWith readTxCount Rejected := by
    refine (failsWith_mapError hrejected).bind fun count bytes e h => ?_
    change (if count.toNat > bytes.length / 4 then Except.error _ else .ok (count, bytes)) = _ at h
    split at h
    · exact Except.error.inj h ▸ hrejected _
    · exact absurd h nofun
  have htx : FailsWith readBlockTx Rejected :=
    (failsWith_mapError hrejected).bind fun _ =>
      (failsWith_take (hrejected _)).bind fun _ => failsWith_check hrejected
  exact hcount.bind fun count => htx.times count.toNat

variable {txs : List Transaction}

theorem flatten_bodies {ws : List (List UInt8)} (h : List.Forall₂ IsBody ws txs) :
    ∃ bodies : List (List UInt8), ws.flatten = bodies.flatMap writeBytes ∧
      (∀ body ∈ bodies, body.length < 2 ^ 32) ∧
      List.Forall₂ (fun body tx => deserializeTransactionSigned body = .ok tx) bodies txs := by
  induction h with
  | nil => exact ⟨[], rfl, by simp, .nil⟩
  | cons hbody _ ih =>
    obtain ⟨body, rfl, hshort, hdecode⟩ := hbody
    obtain ⟨bodies, hws, hshorts, hdecodes⟩ := ih
    refine ⟨body :: bodies, by simp [hws], ?_, .cons hdecode hdecodes⟩
    exact forall_mem_cons.mpr ⟨hshort, hshorts⟩

theorem readBlockTxs_ok (h : readBlockTxs.run bytes = .ok (txs, rest)) :
    ∃ bodies : List (List UInt8), bodies.length < 2 ^ 32 ∧
      bytes = toBeBytes32 (UInt32.ofNat bodies.length) ++ (bodies.flatMap writeBytes ++ rest) ∧
      (∀ body ∈ bodies, body.length < 2 ^ 32) ∧
      List.Forall₂ (fun body tx => deserializeTransactionSigned body = .ok tx) bodies txs := by
  obtain ⟨count, _, hcount, htxs⟩ := run_bind_ok.mp h
  obtain ⟨rfl, -⟩ := readTxCount_ok.mp hcount
  obtain ⟨ws, rfl, hlength, hws⟩ := times_ok (fun _ _ _ => readBlockTx_ok) htxs
  obtain ⟨bodies, hflat, hshort, hdecode⟩ := flatten_bodies hws
  have hcount : bodies.length = count.toNat :=
    hdecode.length_eq.trans (hws.length_eq.symm.trans hlength)
  refine ⟨bodies, hcount ▸ count.toNat_lt, ?_, hshort, hdecode⟩
  rw [hflat, hcount, UInt32.ofNat_toNat]

theorem reads_blockTxs {bodies : List (List UInt8)} (hcount : bodies.length < 2 ^ 32)
    (hshort : ∀ body ∈ bodies, body.length < 2 ^ 32)
    (hdecode : List.Forall₂ (fun body tx => deserializeTransactionSigned body = .ok tx) bodies txs) :
    readBlockTxs.run (toBeBytes32 (UInt32.ofNat bodies.length) ++ bodies.flatMap writeBytes) =
      .ok (txs, []) := by
  have hlength := le_length_bodies bodies
  have hnat := toNat_ofNat_length hcount
  refine run_bind_ok.mpr ⟨_, _, readTxCount_ok.mpr ⟨rfl, by omega⟩, ?_⟩
  have hreads : List.Forall₂ (Reads readBlockTx) (bodies.map writeBytes) txs := by
    rw [forall₂_map_left_iff]
    clear hcount hlength hnat
    induction hdecode with
    | nil => exact .nil
    | cons h _ ih =>
      obtain ⟨hbody, hbodies⟩ := forall_mem_cons.mp hshort
      exact .cons (reads_blockTx h hbody) (ih hbodies)
  have hread := reads_times hreads []
  rwa [append_nil, ← hdecode.length_eq, ← hnat] at hread

section
variable (crates : Crates)

theorem serializeBlock_fromHeader (f : HeaderFields) (txs : List Transaction) :
    serializeBlock (Block.fromHeader (f.header crates) txs) =
      .ok (f.bytes ++ toBeBytes32 (UInt32.ofNat txs.length) ++ txs.flatMap serializeBlockTx) :=
  bind_eq_ok.mpr ⟨f.bytes, f.serializeHeader_eq _, rfl⟩

/-- **What is accepted as a block**: a header, a count and encoded transactions. -/
theorem deserializeBlock_cases (bytes : List UInt8) :
    (∃ message, deserializeBlock crates bytes = .error (.rejected message)) ∨
    ∃ (f : HeaderFields) (bodies : List (List UInt8)) (txs : List Transaction),
      bytes = f.bytes ++ toBeBytes32 (UInt32.ofNat bodies.length) ++ bodies.flatMap writeBytes ∧
      bodies.length < 2 ^ 32 ∧ (∀ body ∈ bodies, body.length < 2 ^ 32) ∧
      List.Forall₂ (fun body tx => deserializeTransactionSigned body = .ok tx) bodies txs ∧
      deserializeBlock crates bytes = .ok (Block.fromHeader (f.header crates) txs) := by
  by_cases hlength : bytes.length < HEADER_WIRE_LEN + 4
  · exact .inl ⟨"Block too short", if_pos hlength⟩
  have htake : (bytes.take HEADER_WIRE_LEN).length = HEADER_WIRE_LEN :=
    length_take_of_le (by omega)
  unfold deserializeBlock
  rw [if_neg hlength]
  by_cases hversion : (bytes.take HEADER_WIRE_LEN).head? = some FORMAT_VERSION
  · obtain ⟨f, hf⟩ := exists_fields htake hversion
    rw [hf, deserializeHeader_bytes]
    cases hread : readBlockTxs.run (bytes.drop HEADER_WIRE_LEN) with
    | error e =>
      obtain ⟨message, rfl⟩ := readBlockTxs_failsWith _ _ hread
      exact .inl ⟨message, rfl⟩
    | ok x =>
      obtain ⟨txs, rest⟩ := x
      by_cases hrest : rest = []
      · subst hrest
        obtain ⟨bodies, hcount, hdrop, hshort, hdecode⟩ := readBlockTxs_ok hread
        refine .inr ⟨f, bodies, txs, ?_, hcount, hshort, hdecode, ?_⟩
        · rw [← take_append_drop HEADER_WIRE_LEN bytes, hf, hdrop]
          simp
        · refine bind_eq_ok.mpr ⟨_, rfl, bind_eq_ok.mpr ⟨_, rfl, ?_⟩⟩
          exact bind_eq_ok.mpr ⟨(), guardWith_eq_ok.mpr rfl, rfl⟩
      · refine .inl ⟨"Trailing bytes after block", ?_⟩
        change (guardWith (rest = []) _ >>= _) = _
        unfold guardWith
        rw [if_neg hrest]
        rfl
  · obtain ⟨message, hrejected⟩ := deserializeHeader_rejects crates fun h => hversion h.2
    refine .inl ⟨message, ?_⟩
    rw [hrejected]
    rfl

theorem deserializeBlock_bodies (f : HeaderFields) {bodies : List (List UInt8)}
    (hcount : bodies.length < 2 ^ 32) (hshort : ∀ body ∈ bodies, body.length < 2 ^ 32)
    (hdecode : List.Forall₂ (fun body tx => deserializeTransactionSigned body = .ok tx) bodies txs) :
    deserializeBlock crates
      (f.bytes ++ toBeBytes32 (UInt32.ofNat bodies.length) ++ bodies.flatMap writeBytes) =
      .ok (Block.fromHeader (f.header crates) txs) := by
  have hlength := f.length_bytes
  unfold deserializeBlock
  rw [append_assoc, if_neg (by simp [hlength]), ← hlength, take_left, drop_left,
    deserializeHeader_bytes]
  refine bind_eq_ok.mpr
    ⟨_, rfl, bind_eq_ok.mpr ⟨_, reads_blockTxs hcount hshort hdecode, ?_⟩⟩
  exact bind_eq_ok.mpr ⟨(), guardWith_eq_ok.mpr rfl, rfl⟩

theorem deserializeBlock_serialized {f : HeaderFields} (hcount : txs.length < 2 ^ 32)
    (h : ∀ tx ∈ txs, deserializeTransactionSigned (serializeTransactionSigned tx) = .ok tx ∧
      (serializeTransactionSigned tx).length < 2 ^ 32) :
    deserializeBlock crates
      (f.bytes ++ toBeBytes32 (UInt32.ofNat txs.length) ++ txs.flatMap serializeBlockTx) =
      .ok (Block.fromHeader (f.header crates) txs) := by
  have hbodies : List.Forall₂ (fun body tx => deserializeTransactionSigned body = .ok tx)
      (txs.map serializeTransactionSigned) txs :=
    forall₂_map_left_iff.mpr (forall₂_same.mpr fun tx htx => (h tx htx).1)
  have hdecode := deserializeBlock_bodies crates f (by simpa using hcount)
    (by simpa using fun tx htx => (h tx htx).2) hbodies
  rwa [length_map, ← serializeBlockTxs_eq] at hdecode

/-- **Headers and blocks on the wire.**  A byte string of `HEADER_WIRE_LEN` bytes that
starts with the format version is the encoding of the header it is read as, a
well-formed header is given back, and any other byte string is rejected.  A byte
string that is not rejected as a block is a header, a count and the bodies of its
transactions; the block is encoded to the same header and count and the
transactions encoded again.  A block with a well-formed header is given back if its
transactions are. -/
theorem header_block_codec :
    (∀ bytes : List UInt8, bytes.length = HEADER_WIRE_LEN → bytes.head? = some FORMAT_VERSION →
      ∃ header, deserializeHeader crates bytes = .ok header ∧ serializeHeader header = .ok bytes) ∧
    (∀ header, WellFormedHeader crates header →
      ∃ bytes, serializeHeader header = .ok bytes ∧
        deserializeHeader crates bytes = .ok header) ∧
    (∀ bytes : List UInt8,
      ¬ (bytes.length = HEADER_WIRE_LEN ∧ bytes.head? = some FORMAT_VERSION) →
      ∃ message, deserializeHeader crates bytes = .error (.rejected message)) ∧
    (∀ bytes : List UInt8,
      (∃ message, deserializeBlock crates bytes = .error (.rejected message)) ∨
      ∃ (header : List UInt8) (bodies : List (List UInt8)) (block : Block),
        bytes = header ++ toBeBytes32 (UInt32.ofNat bodies.length) ++ bodies.flatMap writeBytes ∧
        header.length = HEADER_WIRE_LEN ∧ bodies.length < 2 ^ 32 ∧
        (∀ body ∈ bodies, body.length < 2 ^ 32) ∧
        deserializeBlock crates bytes = .ok block ∧
        List.Forall₂ (fun body tx => deserializeTransactionSigned body = .ok tx) bodies
          block.transactions ∧
        serializeBlock block = .ok (header ++ toBeBytes32 (UInt32.ofNat bodies.length) ++
          (block.transactions.map serializeTransactionSigned).flatMap writeBytes)) ∧
    (∀ block : Block, WellFormedHeader crates block.header → block.transactions.length < 2 ^ 32 →
      (∀ tx ∈ block.transactions,
        deserializeTransactionSigned (serializeTransactionSigned tx) = .ok tx ∧
        (serializeTransactionSigned tx).length < 2 ^ 32) →
      ∃ bytes, serializeBlock block = .ok bytes ∧ deserializeBlock crates bytes = .ok block) := by
  refine ⟨?_, ?_, fun bytes => deserializeHeader_rejects crates, ?_, ?_⟩
  · intro bytes hlength hversion
    obtain ⟨f, rfl⟩ := exists_fields hlength hversion
    exact ⟨f.header crates, deserializeHeader_bytes crates f, f.serializeHeader_eq _⟩
  · intro header hheader
    obtain ⟨f, rfl⟩ := hheader.exists_fields
    exact ⟨f.bytes, f.serializeHeader_eq _, deserializeHeader_bytes crates f⟩
  · intro bytes
    refine (deserializeBlock_cases crates bytes).imp_right ?_
    rintro ⟨f, bodies, txs, hbytes, hcount, hshort, hdecode, hblock⟩
    refine ⟨f.bytes, bodies, _, hbytes, f.length_bytes, hcount, hshort, hblock, hdecode, ?_⟩
    rw [serializeBlock_fromHeader, hdecode.length_eq, flatMap_map]
    rfl
  · intro block hheader hcount htxs
    obtain ⟨f, hf⟩ := hheader.exists_fields
    have hblock : block = Block.fromHeader (f.header crates) block.transactions := by
      rw [← hf]
      rfl
    have hencoded := serializeBlock_fromHeader crates f block.transactions
    have hdecoded := deserializeBlock_serialized crates (f := f) hcount htxs
    rw [← hblock] at hencoded hdecoded
    exact ⟨_, hencoded, hdecoded⟩

end

/-- A header whose fields are all zero. -/
def zeroFields : HeaderFields :=
  ⟨0, 0, zeroDigest, zeroDigest, zeroDigest, 0, 0, zeroDigest, zeroDigest⟩

theorem header_block_codec_zero :
    (∃ header, deserializeHeader nonzeroCrates zeroFields.bytes = .ok header ∧
      serializeHeader header = .ok zeroFields.bytes) ∧
    (∃ bytes, serializeBlock (Block.fromHeader (zeroFields.header nonzeroCrates)
        [.transfer flagged]) = .ok bytes ∧
      deserializeBlock nonzeroCrates bytes =
        .ok (Block.fromHeader (zeroFields.header nonzeroCrates) [.transfer flagged])) ∧
    (∃ message, deserializeHeader nonzeroCrates [] = .error (.rejected message)) := by
  obtain ⟨hread, -, hrejects, -, hblock⟩ := header_block_codec nonzeroCrates
  refine ⟨hread _ zeroFields.length_bytes rfl, hblock _ (zeroFields.wellFormed _) (by decide) ?_,
    hrejects [] (by decide)⟩
  intro tx htx
  obtain rfl := mem_singleton.mp htx
  refine ⟨?_, by decide⟩
  rw [serialize_transfer]
  exact (onWire_flagged (by decide)).deserialize

/-- The length the comment on the format version gives is not the length of a
header. -/
theorem header_of_221_bytes_rejected :
    ∃ bytes : List UInt8, bytes.length = 221 ∧ bytes.head? = some FORMAT_VERSION ∧
      deserializeHeader nonzeroCrates bytes = .error (.rejected "Header length mismatch") := by
  have hlength : (FORMAT_VERSION :: List.replicate 220 0).length = 221 := by
    rw [length_cons, length_replicate]
  exact ⟨_, hlength, rfl, if_pos (by rw [hlength]; decide)⟩

end Strangecoin
