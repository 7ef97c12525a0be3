import Strangecoin.NoiseTransport

/-! # Frames and their counters

The counters of a transport and those inside `snow` move together (`Lockstep`), so a
payload is sent as its chunks under consecutive counters (`encloseAll`), and the peer cuts
the frame where the chunks end: every part but the last has the maximal size.
-/
namespace Strangecoin
open List NoiseTransport

namespace NoiseTransport

/-- The counters of the transport are those of `snow`. -/
structure Lockstep (t : NoiseTransport) : Prop where
  egress : t.egress.n = t.sendNonce
  ingress : t.ingress.n = t.recvNonce

/-- The transport after `k` parts were sent. -/
def sent (t : NoiseTransport) (k : Nat) : NoiseTransport :=
  { t with
    egress := { t.egress with n := t.egress.n + UInt64.ofNat k }
    sendNonce := t.sendNonce + UInt64.ofNat k }

/-- The transport after `k` parts were received. -/
def received (t : NoiseTransport) (k : Nat) : NoiseTransport :=
  { t with
    ingress := { t.ingress with n := t.ingress.n + UInt64.ofNat k }
    recvNonce := t.recvNonce + UInt64.ofNat k }

variable {t t' : NoiseTransport}

theorem Lockstep.sent (h : t.Lockstep) (k : Nat) : (t.sent k).Lockstep :=
  ⟨congrArg (· + UInt64.ofNat k) h.egress, h.ingress⟩

theorem Lockstep.received (h : t.Lockstep) (k : Nat) : (t.received k).Lockstep :=
  ⟨h.egress, congrArg (· + UInt64.ofNat k) h.ingress⟩

theorem sent_zero : t.sent 0 = t := by
  rw [sent, show UInt64.ofNat 0 = 0 from rfl, UInt64.add_zero, UInt64.add_zero]

theorem received_zero : t.received 0 = t := by
  rw [received, show UInt64.ofNat 0 = 0 from rfl, UInt64.add_zero, UInt64.add_zero]

theorem sent_sent (j k : Nat) : (t.sent j).sent k = t.sent (j + k) := by
  simp only [sent, UInt64.ofNat_add, UInt64.add_assoc]

theorem received_received (j k : Nat) : (t.received j).received k = t.received (j + k) := by
  simp only [received, UInt64.ofNat_add, UInt64.add_assoc]

/-! ### One part -/

theorem checkedAdd_one {n m : UInt64} : checkedAdd n 1 = some m ↔ n ≠ lastNonce ∧ m = n + 1 := by
  rw [checkedAdd_eq_some, ← UInt64.toNat_inj]
  have hn := n.toNat_lt
  have hm := m.toNat_lt
  have hlast : n = lastNonce ↔ n.toNat = 2 ^ 64 - 1 := by
    rw [← UInt64.toNat_inj]
    rfl
  have hone : (1 : UInt64).toNat = 1 := rfl
  rw [Ne, hlast, UInt64.toNat_add, hone]
  omega

variable {message payload : List UInt8}

theorem writeMessage_ok :
    (writeMessage payload).run t = .ok message t' ↔
      t.egress.n ≠ lastNonce ∧ message = t.egress.aead.enclose t.egress.n payload ∧
      t' = { t with egress := { t.egress with n := t.egress.n + 1 } } := by
  unfold writeMessage
  rw [run_get_bind, run_check_bind_ok]
  constructor
  · rintro ⟨_, hn, hrest⟩
    cases hrest
    exact ⟨guardWith_eq_ok.mp hn, rfl, rfl⟩
  · rintro ⟨hn, rfl, rfl⟩
    exact ⟨(), guardWith_eq_ok.mpr hn, rfl⟩

theorem readMessage_ok :
    (readMessage message).run t = .ok payload t' ↔
      t.ingress.n ≠ lastNonce ∧ t.ingress.aead.disclose t.ingress.n message = some payload ∧
      t' = { t with ingress := { t.ingress with n := t.ingress.n + 1 } } := by
  unfold readMessage
  rw [run_get_bind, run_check_bind_ok]
  constructor
  · rintro ⟨_, hn, hrest⟩
    obtain ⟨p, hp, hrest⟩ := run_check_bind_ok.mp hrest
    cases hrest
    exact ⟨guardWith_eq_ok.mp hn, okOr_eq_ok.mp hp, rfl⟩
  · rintro ⟨hn, hp, rfl⟩
    exact ⟨(), guardWith_eq_ok.mpr hn, run_check_bind_ok.mpr ⟨payload, okOr_eq_ok.mpr hp, rfl⟩⟩

/-- A message that is not authentic leaves the counter of `snow`. -/
theorem readMessage_error {e : NoiseError} (h : (readMessage message).run t = .error e t') :
    t' = t := by
  unfold readMessage at h
  rw [run_get_bind, run_check_bind_error] at h
  rcases h with ⟨-, hsame⟩ | ⟨_, -, h⟩
  · exact hsame
  · rcases run_check_bind_error.mp h with ⟨-, hsame⟩ | ⟨_, -, h⟩
    · exact hsame
    · cases h

variable {outLen : Nat} {part plaintext : List UInt8}

theorem encrypt_ok (hlock : t.Lockstep) :
    (encrypt plaintext outLen).run t = .ok part t' ↔
      plaintext.length ≤ MAX_TRANSPORT_PAYLOAD ∧
      NOISE_NONCE_LEN + plaintext.length + NOISE_TAG_LEN ≤ outLen ∧ t.sendNonce ≠ lastNonce ∧
      part = toBeBytes t.sendNonce ++ t.egress.aead.enclose t.sendNonce plaintext ∧
      t' = t.sent 1 := by
  have hn := hlock.egress
  unfold encrypt
  simp only [run_check_bind_ok, run_get_bind, run_seq_ok (x := writeMessage _),
    run_modify_bind, guardWith_eq_ok, okOr_eq_ok, writeMessage_ok, checkedAdd_one, hn]
  constructor
  · rintro ⟨_, hlen, _, hout, _, _, ⟨hlast, rfl, rfl⟩, _, ⟨-, rfl⟩, hret⟩
    cases hret
    refine ⟨hlen, hout, hlast, rfl, ?_⟩
    rw [sent, hn]
    rfl
  · rintro ⟨hlen, hout, hlast, rfl, rfl⟩
    refine ⟨(), hlen, (), hout, _, _, ⟨hlast, rfl, rfl⟩, _, ⟨hlast, rfl⟩, ?_⟩
    rw [sent, hn]
    rfl

theorem decrypt_ok (hlock : t.Lockstep) :
    (decrypt part outLen).run t = .ok plaintext t' ↔
      ENCRYPTED_FRAME_OVERHEAD ≤ part.length ∧
      fromBeBytes64 (part.take NOISE_NONCE_LEN) = t.recvNonce ∧
      (part.drop NOISE_NONCE_LEN).length - NOISE_TAG_LEN ≤ outLen ∧ t.recvNonce ≠ lastNonce ∧
      t.ingress.aead.disclose t.recvNonce (part.drop NOISE_NONCE_LEN) = some plaintext ∧
      t' = t.received 1 := by
  have hn := hlock.ingress
  unfold decrypt
  simp only [run_check_bind_ok, run_get_bind, run_seq_ok (x := readMessage _),
    run_modify_bind, guardWith_eq_ok, okOr_eq_ok, readMessage_ok, checkedAdd_one, hn]
  constructor
  · rintro ⟨_, hlen, _, hhead, _, hout, _, _, ⟨hlast, hopen, rfl⟩, _, ⟨-, rfl⟩, hret⟩
    cases hret
    refine ⟨hlen, hhead, hout, hlast, hopen, ?_⟩
    rw [received, hn]
    rfl
  · rintro ⟨hlen, hhead, hout, hlast, hopen, rfl⟩
    refine ⟨(), hlen, (), hhead, (), hout, _, _, ⟨hlast, hopen, rfl⟩, _, ⟨hlast, rfl⟩, ?_⟩
    rw [received, hn]
    rfl

/-- A rejected part changes nothing: the counter of `snow` is exhausted no later than that
of the transport. -/
theorem decrypt_error (hlock : t.Lockstep) {e : NoiseError}
    (h : (decrypt part outLen).run t = .error e t') : t' = t := by
  unfold decrypt at h
  rcases run_check_bind_error.mp h with ⟨-, hsame⟩ | ⟨_, -, h⟩
  · exact hsame
  rw [run_get_bind] at h
  rcases run_check_bind_error.mp h with ⟨-, hsame⟩ | ⟨_, -, h⟩
  · exact hsame
  rcases run_check_bind_error.mp h with ⟨-, hsame⟩ | ⟨_, -, h⟩
  · exact hsame
  rcases run_seq_error.mp h with h | ⟨p, u, hread, h⟩
  · exact readMessage_error h
  · obtain ⟨hlast, -, -⟩ := readMessage_ok.mp hread
    rw [hlock.ingress] at hlast
    rcases run_check_bind_error.mp h with ⟨hnone, -⟩ | ⟨_, -, h⟩
    · rw [checkedAdd_one.mpr ⟨hlast, rfl⟩] at hnone
      cases hnone
    · cases h

end NoiseTransport

/-! ### All parts of a payload -/

/-- The chunks of a payload; an empty payload is one chunk. -/
def chunks (msg : List UInt8) : List (List UInt8) :=
  if msg.length ≤ MAX_TRANSPORT_PAYLOAD then [msg]
  else msg.take MAX_TRANSPORT_PAYLOAD :: chunks (msg.drop MAX_TRANSPORT_PAYLOAD)
termination_by msg.length
decreasing_by
  rw [length_drop]
  have : 0 < MAX_TRANSPORT_PAYLOAD := by decide
  omega

/-- Every chunk but the last one is full. -/
inductive Chunked : List (List UInt8) → Prop
  | last {p : List UInt8} (fits : p.length ≤ MAX_TRANSPORT_PAYLOAD) : Chunked [p]
  | cons {p : List UInt8} {ps : List (List UInt8)} (full : p.length = MAX_TRANSPORT_PAYLOAD)
      (rest : Chunked ps) : Chunked (p :: ps)

namespace Aead

/-- One part: the counter and the ciphertext. -/
def part (aead : Aead) (n : UInt64) (p : List UInt8) : List UInt8 :=
  toBeBytes n ++ aead.enclose n p

/-- The parts of consecutive chunks. -/
def parts (aead : Aead) : UInt64 → List (List UInt8) → List UInt8
  | _, [] => []
  | n, p :: ps => aead.part n p ++ parts aead (n + 1) ps

variable {aead : Aead} {n : UInt64}

theorem length_part (p : List UInt8) :
    (aead.part n p).length = p.length + ENCRYPTED_FRAME_OVERHEAD := by
  rw [part, length_append, length_toBeBytes, aead.length_enclose]
  unfold ENCRYPTED_FRAME_OVERHEAD NOISE_NONCE_LEN
  omega

theorem length_parts (ps : List (List UInt8)) :
    (aead.parts n ps).length = ps.flatten.length + ps.length * ENCRYPTED_FRAME_OVERHEAD := by
  induction ps generalizing n with
  | nil => rfl
  | cons p ps ih =>
    rw [parts, length_append, length_part, ih, flatten_cons, length_append,
      length_cons, Nat.add_mul]
    omega

/-- The other side decrypts what is sent under the next counters. -/
def Opens (aead other : Aead) : UInt64 → List (List UInt8) → Prop
  | _, [] => True
  | n, p :: ps => other.disclose n (aead.enclose n p) = some p ∧ Opens aead other (n + 1) ps

/-- A frame: the length of the parts and the parts. -/
def frame (aead : Aead) (n : UInt64) (ps : List (List UInt8)) : List UInt8 :=
  toBeBytes32 (UInt32.ofNat (aead.parts n ps).length) ++ aead.parts n ps

end Aead

theorem chunked_chunks (msg : List UInt8) : Chunked (chunks msg) := by
  fun_induction chunks msg with
  | case1 msg hfits => exact .last hfits
  | case2 msg hlong ih =>
    refine .cons ?_ ih
    rw [length_take]
    omega

theorem flatten_chunks (msg : List UInt8) : (chunks msg).flatten = msg := by
  fun_induction chunks msg with
  | case1 msg hfits => rw [flatten_cons, flatten_nil, append_nil]
  | case2 msg hlong ih => rw [flatten_cons, ih, take_append_drop]

theorem length_chunks (msg : List UInt8) : (chunks msg).length = partCount msg.length := by
  have hmax : MAX_TRANSPORT_PAYLOAD = 65519 := rfl
  fun_induction chunks msg with
  | case1 msg hfits =>
    rw [length_singleton, partCount, divCeil, hmax]
    split <;> omega
  | case2 msg hlong ih =>
    rw [length_cons, ih, length_drop, partCount, partCount, divCeil, divCeil, hmax]
    split <;> split <;> omega

section

variable {t t' : NoiseTransport} {msg blob raw : List UInt8} {e : NetError}

variable {n : UInt64}

/-- A counter that is not exhausted has a successor. -/
theorem toNat_add_one : n ≠ lastNonce ↔ (n + 1).toNat = n.toNat + 1 := by
  have hn := n.toNat_lt
  have hone : (1 : UInt64).toNat = 1 := rfl
  have hlast : n = lastNonce ↔ n.toNat = 2 ^ 64 - 1 := by
    rw [← UInt64.toNat_inj]
    rfl
  rw [Ne, hlast, UInt64.toNat_add, hone]
  omega

theorem ne_lastNonce {k : Nat} (hk : 0 < k) (hleft : n.toNat + k < 2 ^ 64) : n ≠ lastNonce := by
  rintro rfl
  have : lastNonce.toNat = 2 ^ 64 - 1 := rfl
  omega

/-- What remains to be counted after one part. -/
theorem counters_left {k : Nat} :
    (n ≠ lastNonce ∧ (n + 1).toNat + k < 2 ^ 64) ↔ n.toNat + (k + 1) < 2 ^ 64 := by
  constructor
  · rintro ⟨hn, hleft⟩
    rw [toNat_add_one.mp hn] at hleft
    omega
  · intro hleft
    have hn : n ≠ lastNonce := ne_lastNonce (Nat.succ_pos k) hleft
    rw [toNat_add_one.mp hn]
    exact ⟨hn, by omega⟩

variable {p part : List UInt8}

theorem encryptPart_ok (hlock : t.Lockstep) (hfits : p.length ≤ MAX_TRANSPORT_PAYLOAD) :
    (onTransport (encrypt p MAX_ENCRYPTED_PART)).run t = .ok part t' ↔
      t.sendNonce ≠ lastNonce ∧ part = t.egress.aead.part t.sendNonce p ∧ t' = t.sent 1 := by
  have hbuffer : NOISE_NONCE_LEN + p.length + NOISE_TAG_LEN ≤ MAX_ENCRYPTED_PART := by
    unfold MAX_ENCRYPTED_PART
    unfold MAX_TRANSPORT_PAYLOAD MAX_NOISE_MSG_LEN NOISE_TAG_LEN at *
    omega
  rw [onTransport, run_mapStop_ok, encrypt_ok hlock]
  exact ⟨fun ⟨_, _, h⟩ => h, fun h => ⟨hfits, hbuffer, h⟩⟩

/-- A payload is sent as its chunks under the next counters. -/
theorem encryptParts_ok (hlock : t.Lockstep) {body : List UInt8} :
    (encryptParts msg).run t = .ok body t' ↔
      t.sendNonce.toNat + (chunks msg).length < 2 ^ 64 ∧
      body = t.egress.aead.parts t.sendNonce (chunks msg) ∧ t' = t.sent (chunks msg).length := by
  fun_induction chunks msg generalizing t t' body with
  | case1 msg hfits =>
    have hlast : t.sendNonce ≠ lastNonce ↔ t.sendNonce.toNat + 1 < 2 ^ 64 := by
      rw [toNat_add_one, UInt64.toNat_add]
      have := t.sendNonce.toNat_lt
      have hone : (1 : UInt64).toNat = 1 := rfl
      omega
    rw [encryptParts, take_of_length_le hfits, run_seq_ok]
    simp only [encryptPart_ok hlock hfits, if_pos hfits, length_singleton, Aead.parts,
      append_nil, ← hlast]
    constructor
    · rintro ⟨part, u, ⟨hn, rfl, rfl⟩, hret⟩
      cases hret
      exact ⟨hn, rfl, rfl⟩
    · rintro ⟨hn, rfl, rfl⟩
      exact ⟨_, _, ⟨hn, rfl, rfl⟩, rfl⟩
  | case2 msg hlong ih =>
    have hfits : (msg.take MAX_TRANSPORT_PAYLOAD).length ≤ MAX_TRANSPORT_PAYLOAD := by
      rw [length_take]
      exact Nat.min_le_left ..
    rw [encryptParts, run_seq_ok]
    simp only [encryptPart_ok hlock hfits, if_neg hlong, length_cons, Aead.parts,
      ← counters_left, run_seq_ok]
    constructor
    · rintro ⟨part, u, ⟨hn, rfl, rfl⟩, body, v, hrest, hret⟩
      obtain ⟨hleft, rfl, rfl⟩ := (ih (hlock.sent 1)).mp hrest
      cases hret
      refine ⟨⟨hn, hleft⟩, rfl, ?_⟩
      rw [sent_sent, Nat.add_comm]
    · rintro ⟨⟨hn, hleft⟩, rfl, rfl⟩
      refine ⟨_, _, ⟨hn, rfl, rfl⟩, _, _, (ih (hlock.sent 1)).mpr ⟨hleft, rfl, rfl⟩, ?_⟩
      rw [sent_sent, Nat.add_comm]
      rfl

theorem encryptFrame_ok (hlock : t.Lockstep) {frame : List UInt8} :
    (encryptFrame msg).run t = .ok frame t' ↔
      4 + msg.length + partCount msg.length * ENCRYPTED_FRAME_OVERHEAD ≤ MAX_MESSAGE_SIZE ∧
      t.sendNonce.toNat + (chunks msg).length < 2 ^ 64 ∧
      frame = t.egress.aead.frame t.sendNonce (chunks msg) ∧
      t' = t.sent (chunks msg).length := by
  unfold encryptFrame
  rw [run_check_bind_ok]
  simp only [guardWith_eq_ok, run_seq_ok, encryptParts_ok hlock]
  constructor
  · rintro ⟨_, hsize, body, u, ⟨hleft, rfl, rfl⟩, hret⟩
    cases hret
    exact ⟨hsize, hleft, rfl, rfl⟩
  · rintro ⟨hsize, hleft, rfl, rfl⟩
    exact ⟨(), hsize, _, _, ⟨hleft, rfl, rfl⟩, rfl⟩

/-- The next part decrypts to `chunk`. -/
structure Genuine (t : NoiseTransport) (part chunk : List UInt8) : Prop where
  long : ENCRYPTED_FRAME_OVERHEAD ≤ part.length
  counter : fromBeBytes64 (part.take NOISE_NONCE_LEN) = t.recvNonce
  left : t.recvNonce ≠ lastNonce
  authentic : t.ingress.aead.disclose t.recvNonce (part.drop NOISE_NONCE_LEN) = some chunk

theorem decryptPart_ok (hlock : t.Lockstep) {chunk : List UInt8}
    (hlong : ENCRYPTED_FRAME_OVERHEAD ≤ part.length) :
    (onTransport (decrypt part (part.length - ENCRYPTED_FRAME_OVERHEAD))).run t =
      .ok chunk t' ↔ Genuine t part chunk ∧ t' = t.received 1 := by
  have hbuffer : (part.drop NOISE_NONCE_LEN).length - NOISE_TAG_LEN ≤
      part.length - ENCRYPTED_FRAME_OVERHEAD := by
    rw [length_drop, ENCRYPTED_FRAME_OVERHEAD, Nat.sub_sub]
  rw [onTransport, run_mapStop_ok, decrypt_ok hlock]
  constructor
  · rintro ⟨-, hcounter, -, hleft, hauth, rfl⟩
    exact ⟨⟨hlong, hcounter, hleft, hauth⟩, rfl⟩
  · rintro ⟨⟨-, hcounter, hleft, hauth⟩, rfl⟩
    exact ⟨hlong, hcounter, hbuffer, hleft, hauth, rfl⟩

theorem decryptParts_nil : decryptParts [] = pure [] := by
  unfold decryptParts
  rfl

theorem decryptParts_ok (hlock : t.Lockstep) (hne : blob ≠ []) :
    (decryptParts blob).run t = .ok msg t' ↔
      ∃ chunk rest, Genuine t (blob.take MAX_ENCRYPTED_PART) chunk ∧
        (decryptParts (blob.drop MAX_ENCRYPTED_PART)).run (t.received 1) = .ok rest t' ∧
        msg = chunk ++ rest := by
  rw [decryptParts, if_neg hne, run_check_bind_ok]
  simp only [guardWith_eq_ok, run_seq_ok]
  constructor
  · rintro ⟨_, hlong, chunk, u, hpart, rest, v, hrest, hret⟩
    cases hret
    obtain ⟨hgenuine, rfl⟩ := (decryptPart_ok hlock hlong).mp hpart
    exact ⟨chunk, rest, hgenuine, hrest, rfl⟩
  · rintro ⟨chunk, rest, hgenuine, hrest, rfl⟩
    exact ⟨(), hgenuine.long, chunk, _, (decryptPart_ok hlock hgenuine.long).mpr ⟨hgenuine, rfl⟩,
      rest, _, hrest, rfl⟩

theorem decryptParts_error (hlock : t.Lockstep)
    (h : (decryptParts blob).run t = .error e t') :
    (t' = t ∧ ∀ chunk, ¬ Genuine t (blob.take MAX_ENCRYPTED_PART) chunk) ∨
      ∃ chunk, Genuine t (blob.take MAX_ENCRYPTED_PART) chunk ∧
        (decryptParts (blob.drop MAX_ENCRYPTED_PART)).run (t.received 1) = .error e t' := by
  have hne : blob ≠ [] := by
    rintro rfl
    rw [decryptParts_nil] at h
    cases h
  rw [decryptParts, if_neg hne] at h
  rcases run_check_bind_error.mp h with ⟨hshort, hsame⟩ | ⟨_, hlong, h⟩
  · refine .inl ⟨hsame, fun chunk hgenuine => ?_⟩
    exact (guardWith_eq_error.mp hshort).1 hgenuine.long
  have hlong := guardWith_eq_ok.mp hlong
  rcases run_seq_error.mp h with h | ⟨chunk, u, hpart, h⟩
  · refine .inl ⟨?_, fun chunk hgenuine => ?_⟩
    · obtain ⟨_, h, -⟩ := run_mapStop_error.mp h
      exact decrypt_error hlock h
    · rw [(decryptPart_ok hlock hlong).mpr ⟨hgenuine, rfl⟩] at h
      cases h
  · obtain ⟨hgenuine, rfl⟩ := (decryptPart_ok hlock hlong).mp hpart
    rcases run_seq_error.mp h with h | ⟨_, _, -, hret⟩
    · exact .inr ⟨chunk, hgenuine, h⟩
    · cases hret

/-- The lengths of a frame are right. -/
structure Framed (raw : List UInt8) : Prop where
  headed : 4 ≤ raw.length
  fits : (fromBeBytes32 (raw.take 4)).toNat ≤ MAX_MESSAGE_SIZE
  exact : (fromBeBytes32 (raw.take 4)).toNat = raw.length - 4
  long : ENCRYPTED_FRAME_OVERHEAD ≤ (fromBeBytes32 (raw.take 4)).toNat

theorem decryptFrame_ok :
    (decryptFrame raw).run t = .ok msg t' ↔
      Framed raw ∧ (decryptParts (raw.drop 4)).run t = .ok msg t' := by
  unfold decryptFrame
  simp only [run_check_bind_ok, guardWith_eq_ok]
  constructor
  · rintro ⟨_, hhead, _, hfits, _, hexact, _, hlong, hparts⟩
    exact ⟨⟨hhead, hfits, hexact, hlong⟩, hparts⟩
  · rintro ⟨⟨hhead, hfits, hexact, hlong⟩, hparts⟩
    exact ⟨(), hhead, (), hfits, (), hexact, (), hlong, hparts⟩

theorem decryptFrame_error (h : (decryptFrame raw).run t = .error e t') :
    (¬ Framed raw ∧ t' = t) ∨
      Framed raw ∧ (decryptParts (raw.drop 4)).run t = .error e t' := by
  unfold decryptFrame at h
  rcases run_check_bind_error.mp h with ⟨hfail, hsame⟩ | ⟨_, hhead, h⟩
  · exact .inl ⟨fun hframed => (guardWith_eq_error.mp hfail).1 hframed.headed, hsame⟩
  rcases run_check_bind_error.mp h with ⟨hfail, hsame⟩ | ⟨_, hfits, h⟩
  · exact .inl ⟨fun hframed => (guardWith_eq_error.mp hfail).1 hframed.fits, hsame⟩
  rcases run_check_bind_error.mp h with ⟨hfail, hsame⟩ | ⟨_, hexact, h⟩
  · exact .inl ⟨fun hframed => (guardWith_eq_error.mp hfail).1 hframed.exact, hsame⟩
  rcases run_check_bind_error.mp h with ⟨hfail, hsame⟩ | ⟨_, hlong, h⟩
  · exact .inl ⟨fun hframed => (guardWith_eq_error.mp hfail).1 hframed.long, hsame⟩
  rw [guardWith_eq_ok] at hhead hfits hexact hlong
  exact .inr ⟨⟨hhead, hfits, hexact, hlong⟩, h⟩

theorem run_decryptFrame (h : Framed raw) :
    (decryptFrame raw).run t = (decryptParts (raw.drop 4)).run t := by
  unfold decryptFrame guardWith
  dsimp only
  rw [if_pos h.headed, if_pos h.fits, if_pos h.exact, if_pos h.long]
  rfl

variable {aead : Aead}

/-- What the peer encrypted under the next counter is genuine. -/
theorem genuine_part (hleft : t.recvNonce ≠ lastNonce)
    (hopen : t.ingress.aead.disclose t.recvNonce (aead.enclose t.recvNonce p) = some p) :
    Genuine t (aead.part t.recvNonce p) p := by
  have hlen : (toBeBytes t.recvNonce).length = NOISE_NONCE_LEN := length_toBeBytes _
  refine ⟨?_, ?_, hleft, ?_⟩
  · rw [Aead.length_part]
    exact Nat.le_add_left ..
  · rw [Aead.part, take_left' hlen, fromBeBytes64_toBeBytes]
  · rw [Aead.part, drop_left' hlen, hopen]

theorem part_ne_nil {rest : List UInt8} : aead.part n p ++ rest ≠ [] := by
  refine append_ne_nil_of_left_ne_nil (ne_nil_of_length_pos ?_) rest
  rw [Aead.length_part]
  exact Nat.lt_of_lt_of_le (by decide) (Nat.le_add_left ..)

variable {ps : List (List UInt8)}

/-- The receiver cuts the parts where the sender joined them. -/
theorem decryptParts_parts (hlock : t.Lockstep) (hchunked : Chunked ps)
    (hleft : t.recvNonce.toNat + ps.length < 2 ^ 64)
    (hopens : aead.Opens t.ingress.aead t.recvNonce ps) :
    (decryptParts (aead.parts t.recvNonce ps)).run t = .ok ps.flatten (t.received ps.length) := by
  induction hchunked generalizing t with
  | @last p hfits =>
    have hlast : t.recvNonce ≠ lastNonce := ne_lastNonce Nat.zero_lt_one hleft
    have hshort : (aead.part t.recvNonce p ++ []).length ≤ MAX_ENCRYPTED_PART := by
      rw [append_nil, Aead.length_part]
      exact Nat.le_trans (Nat.add_le_add_right hfits _) (by decide)
    rw [Aead.parts, Aead.parts, decryptParts_ok hlock part_ne_nil, take_of_length_le hshort,
      drop_of_length_le hshort, decryptParts_nil, append_nil]
    exact ⟨p, [], genuine_part hlast hopens.1, rfl, rfl⟩
  | @cons p ps hfull hchunked ih =>
    obtain ⟨hlast, hrest⟩ := counters_left.mpr hleft
    have hlen : (aead.part t.recvNonce p).length = MAX_ENCRYPTED_PART := by
      rw [Aead.length_part, hfull]
      rfl
    rw [Aead.parts, decryptParts_ok hlock part_ne_nil, take_left' hlen, drop_left' hlen]
    refine ⟨p, ps.flatten, genuine_part hlast hopens.1, ?_, rfl⟩
    rw [length_cons, Nat.add_comm, ← received_received]
    exact ih (hlock.received 1) hrest hopens.2

/-- The lengths of a frame of few enough parts are right. -/
theorem framed_frame (hne : ps ≠ []) (hfits : (aead.parts n ps).length ≤ MAX_MESSAGE_SIZE) :
    Framed (aead.frame n ps) := by
  have hfour : (toBeBytes32 (UInt32.ofNat (aead.parts n ps).length)).length = 4 :=
    length_toBeBytes32 _
  have hlength : (UInt32.ofNat (aead.parts n ps).length).toNat = (aead.parts n ps).length := by
    rw [UInt32.toNat_ofNat', Nat.mod_eq_of_lt]
    exact Nat.lt_of_le_of_lt hfits (by decide)
  have hlong : ENCRYPTED_FRAME_OVERHEAD ≤ (aead.parts n ps).length := by
    rw [Aead.length_parts]
    have := Nat.mul_le_mul_right ENCRYPTED_FRAME_OVERHEAD (length_pos_iff.mpr hne)
    omega
  constructor
  all_goals
    rw [Aead.frame]
    simp only [take_left' hfour, fromBeBytes32_toBeBytes32, hlength, length_append, hfour]
    omega

theorem drop_frame : (aead.frame n ps).drop 4 = aead.parts n ps :=
  drop_left' (length_toBeBytes32 _)

/-- The transport that an operation leaves, whether it succeeds or not. -/
def leaves {α : Type} (x : EStateM NetError NoiseTransport α) (t : NoiseTransport) :
    NoiseTransport :=
  match x.run t with
  | .ok _ u => u
  | .error _ u => u

theorem leaves_ok {α : Type} {x : EStateM NetError NoiseTransport α} {a : α}
    (h : x.run t = .ok a t') : leaves x t = t' := by
  rw [leaves, h]

theorem leaves_error {α : Type} {x : EStateM NetError NoiseTransport α}
    (h : x.run t = .error e t') : leaves x t = t' := by
  rw [leaves, h]

/-- Every accepted part counts, also in a frame that is rejected later on. -/
theorem leaves_decryptParts (hlock : t.Lockstep) :
    ∃ k, leaves (decryptParts blob) t = t.received k ∧ t.recvNonce.toNat + k < 2 ^ 64 := by
  induction blob using decryptParts.induct generalizing t with
  | case1 =>
    refine ⟨0, ?_, t.recvNonce.toNat_lt⟩
    rw [leaves_ok (show (decryptParts []).run t = .ok [] t by rw [decryptParts_nil]; rfl),
      received_zero]
  | case2 blob hne ih =>
    obtain ⟨k, hk, hleft⟩ := ih (hlock.received 1)
    have hcount {chunk : List UInt8} (hgenuine : Genuine t (blob.take MAX_ENCRYPTED_PART) chunk)
        (hstep : leaves (decryptParts blob) t =
          leaves (decryptParts (blob.drop MAX_ENCRYPTED_PART)) (t.received 1)) :
        ∃ k, leaves (decryptParts blob) t = t.received k ∧ t.recvNonce.toNat + k < 2 ^ 64 := by
      refine ⟨k + 1, ?_, counters_left.mp ⟨hgenuine.left, hleft⟩⟩
      rw [hstep, hk, received_received, Nat.add_comm]
    cases hrun : (decryptParts blob).run t with
    | ok msg u =>
      obtain ⟨chunk, rest, hgenuine, hrest, -⟩ := (decryptParts_ok hlock hne).mp hrun
      exact hcount hgenuine (by rw [leaves_ok hrun, leaves_ok hrest])
    | error e u =>
      rcases decryptParts_error hlock hrun with ⟨rfl, -⟩ | ⟨chunk, hgenuine, hrest⟩
      · refine ⟨0, ?_, u.recvNonce.toNat_lt⟩
        rw [leaves_error hrun, received_zero]
      · exact hcount hgenuine (by rw [leaves_error hrun, leaves_error hrest])

/-- The counters of an accepted frame are the next ones. -/
theorem decryptParts_counters (hlock : t.Lockstep) (h : (decryptParts blob).run t = .ok msg t')
    (i : Nat) (hi : i * MAX_ENCRYPTED_PART < blob.length) :
    fromBeBytes64 ((blob.drop (i * MAX_ENCRYPTED_PART)).take NOISE_NONCE_LEN) =
      t.recvNonce + UInt64.ofNat i := by
  induction i generalizing t blob msg with
  | zero =>
    have hne : blob ≠ [] := ne_nil_of_length_pos (by omega)
    obtain ⟨chunk, rest, hgenuine, -, -⟩ := (decryptParts_ok hlock hne).mp h
    have hcounter := hgenuine.counter
    rw [take_take, Nat.min_eq_left (by decide)] at hcounter
    rw [Nat.zero_mul, drop_zero, hcounter]
    exact (UInt64.add_zero _).symm
  | succ i ih =>
    have hne : blob ≠ [] := ne_nil_of_length_pos (by omega)
    obtain ⟨chunk, rest, -, hrest, -⟩ := (decryptParts_ok hlock hne).mp h
    rw [Nat.succ_mul] at hi
    have hnext := ih (hlock.received 1) hrest (by rw [length_drop]; omega)
    rw [drop_drop, Nat.add_comm, ← Nat.succ_mul] at hnext
    rw [hnext, received, UInt64.add_assoc, ← UInt64.ofNat_add, Nat.add_comm]

/-! ### Frames the peer sent -/

theorem Aead.opens_of_forall {other : Aead}
    (h : ∀ n p, other.disclose n (aead.enclose n p) = some p) (n : UInt64) (ps : List (List UInt8)) :
    aead.Opens other n ps := by
  induction ps generalizing n with
  | nil => trivial
  | cons p ps ih => exact ⟨h n p, ih (n + 1)⟩

theorem chunks_ne_nil : chunks msg ≠ [] := by
  rw [chunks]
  split <;> exact cons_ne_nil _ _

theorem length_parts_chunks :
    (aead.parts n (chunks msg)).length =
      msg.length + partCount msg.length * ENCRYPTED_FRAME_OVERHEAD := by
  rw [Aead.length_parts, flatten_chunks, length_chunks]

/-- A frame of the peer under the next counters is accepted. -/
theorem decryptFrame_frame (hlock : t.Lockstep)
    (hsize : 4 + msg.length + partCount msg.length * ENCRYPTED_FRAME_OVERHEAD ≤ MAX_MESSAGE_SIZE)
    (hleft : t.recvNonce.toNat + (chunks msg).length < 2 ^ 64)
    (hopens : aead.Opens t.ingress.aead t.recvNonce (chunks msg)) :
    (decryptFrame (aead.frame t.recvNonce (chunks msg))).run t =
      .ok msg (t.received (chunks msg).length) := by
  rw [decryptFrame_ok, drop_frame, decryptParts_parts hlock (chunked_chunks msg) hleft hopens,
    flatten_chunks]
  refine ⟨framed_frame chunks_ne_nil ?_, rfl⟩
  rw [length_parts_chunks]
  omega

end

end Strangecoin
