import Strangecoin.Frames

/-! # Two ends of a session

The sender's counter and the receiver's advance together over every run of accepted
payloads.  Apart they come when a frame is rejected after its first part was accepted: the
counter is advanced part by part, and `decrypt_frame` does not set it back.
-/
namespace Strangecoin
open List NoiseTransport

section

variable {t t' s r : NoiseTransport} {msg raw : List UInt8} {e : NetError}

theorem lockstep_new (egress ingress : Aead) : (NoiseTransport.new egress ingress).Lockstep :=
  ⟨rfl, rfl⟩

/-! ### What a failed encryption leaves -/

theorem NoiseTransport.encrypt_error (hlock : t.Lockstep) {plaintext : List UInt8} {outLen : Nat}
    {e : NoiseError} (h : (encrypt plaintext outLen).run t = .error e t') : t' = t := by
  unfold encrypt at h
  rcases run_check_bind_error.mp h with ⟨-, hsame⟩ | ⟨_, -, h⟩
  · exact hsame
  rcases run_check_bind_error.mp h with ⟨-, hsame⟩ | ⟨_, -, h⟩
  · exact hsame
  rw [run_get_bind] at h
  rcases run_seq_error.mp h with h | ⟨p, u, hwrite, h⟩
  · unfold writeMessage at h
    rw [run_get_bind] at h
    rcases run_check_bind_error.mp h with ⟨-, hsame⟩ | ⟨_, -, h⟩
    · exact hsame
    · cases h
  · obtain ⟨hlast, -, -⟩ := writeMessage_ok.mp hwrite
    rw [hlock.egress] at hlast
    rcases run_check_bind_error.mp h with ⟨hnone, -⟩ | ⟨_, -, h⟩
    · rw [checkedAdd_one.mpr ⟨hlast, rfl⟩] at hnone
      cases hnone
    · cases h

variable {p : List UInt8}

/-- A chunk is refused only when the counter is exhausted. -/
theorem encryptPart_error (hlock : t.Lockstep) (hfits : p.length ≤ MAX_TRANSPORT_PAYLOAD)
    (h : (onTransport (encrypt p MAX_ENCRYPTED_PART)).run t = .error e t') :
    (∃ message, e = .transport message) ∧ t' = t ∧ t.sendNonce = lastNonce := by
  have hlast : t.sendNonce = lastNonce := by
    by_contra hne
    rw [(encryptPart_ok hlock hfits).mpr ⟨hne, rfl, rfl⟩] at h
    cases h
  obtain ⟨d, hpart, rfl⟩ := run_mapStop_error.mp h
  exact ⟨⟨_, rfl⟩, encrypt_error hlock hpart, hlast⟩

/-- Parts encrypted before the counter ran out stay counted. -/
theorem encryptParts_error (hlock : t.Lockstep) (h : (encryptParts msg).run t = .error e t') :
    (∃ message, e = .transport message) ∧ ∃ k, t' = t.sent k ∧ t'.sendNonce = lastNonce := by
  have hfits (msg : List UInt8) :
      (msg.take MAX_TRANSPORT_PAYLOAD).length ≤ MAX_TRANSPORT_PAYLOAD := by
    rw [length_take]
    exact Nat.min_le_left ..
  have hfirst {t : NoiseTransport} {msg : List UInt8} (hlock : t.Lockstep)
      (h : (onTransport (encrypt (msg.take MAX_TRANSPORT_PAYLOAD)
        MAX_ENCRYPTED_PART)).run t = .error e t') :
      (∃ message, e = .transport message) ∧ ∃ k, t' = t.sent k ∧ t'.sendNonce = lastNonce := by
    obtain ⟨htransport, rfl, hlast⟩ := encryptPart_error hlock (hfits msg) h
    exact ⟨htransport, 0, sent_zero.symm, hlast⟩
  induction msg using chunks.induct generalizing t with
  | case1 msg hshort =>
    rw [encryptParts, run_seq_error] at h
    rcases h with h | ⟨part, u, -, h⟩
    · exact hfirst hlock h
    · rw [if_pos hshort] at h
      cases h
  | case2 msg hlong ih =>
    rw [encryptParts, run_seq_error] at h
    rcases h with h | ⟨part, u, hpart, h⟩
    · exact hfirst hlock h
    · rw [if_neg hlong] at h
      obtain ⟨-, -, rfl⟩ := (encryptPart_ok hlock (hfits msg)).mp hpart
      rcases run_seq_error.mp h with h | ⟨_, _, -, h⟩
      · obtain ⟨htransport, k, rfl, hlast⟩ := ih (hlock.sent 1) h
        exact ⟨htransport, 1 + k, sent_sent 1 k, hlast⟩
      · cases h

theorem encryptFrame_error (hlock : t.Lockstep) (h : (encryptFrame msg).run t = .error e t') :
    (e = sizeErr "encrypted message" ∧ t' = t) ∨
      (∃ message, e = .transport message) ∧ ∃ k, t' = t.sent k ∧ t'.sendNonce = lastNonce := by
  unfold encryptFrame at h
  rcases run_check_bind_error.mp h with ⟨hfail, hsame⟩ | ⟨_, -, h⟩
  · exact .inl ⟨(guardWith_eq_error.mp hfail).2.symm, hsame⟩
  · rcases run_seq_error.mp h with h | ⟨_, _, -, h⟩
    · exact .inr (encryptParts_error hlock h)
    · cases h

/-! ### Round trips -/

/-- The sender's counter is the receiver's, and the receiver decrypts what the sender
encrypts. -/
structure Coupled (s r : NoiseTransport) : Prop where
  sender : s.Lockstep
  receiver : r.Lockstep
  counter : r.recvNonce = s.sendNonce
  opens : ∀ n p, r.ingress.aead.disclose n (s.egress.aead.enclose n p) = some p

theorem Coupled.advance (h : Coupled s r) (k : Nat) : Coupled (s.sent k) (r.received k) :=
  ⟨h.sender.sent k, h.receiver.received k, congrArg (· + UInt64.ofNat k) h.counter, h.opens⟩

variable {s' : NoiseTransport}

theorem Coupled.frame (h : Coupled s r) {frame : List UInt8}
    (hsend : (encryptFrame msg).run s = .ok frame s') :
    (decryptFrame frame).run r = .ok msg (r.received (chunks msg).length) ∧
      s' = s.sent (chunks msg).length := by
  obtain ⟨hsize, hleft, rfl, rfl⟩ := (encryptFrame_ok h.sender).mp hsend
  rw [← h.counter] at hleft ⊢
  exact ⟨decryptFrame_frame h.receiver hsize hleft (Aead.opens_of_forall h.opens _ _), rfl⟩

theorem Coupled.frames (h : Coupled s r) {msgs frames : List (List UInt8)}
    (hsend : (msgs.mapM encryptFrame).run s = .ok frames s') :
    ∃ k, (frames.mapM decryptFrame).run r = .ok msgs (r.received k) ∧ s' = s.sent k := by
  induction msgs generalizing s r frames with
  | nil =>
    rw [mapM_nil] at hsend
    cases hsend
    refine ⟨0, ?_, sent_zero.symm⟩
    rw [mapM_nil, received_zero]
    rfl
  | cons msg msgs ih =>
    rw [mapM_cons, run_seq_ok] at hsend
    obtain ⟨frame, u, hfirst, hsend⟩ := hsend
    obtain ⟨rest, v, hrest, hret⟩ := run_seq_ok.mp hsend
    cases hret
    obtain ⟨hreceive, rfl⟩ := h.frame hfirst
    obtain ⟨k, hreceives, rfl⟩ := ih (h.advance _) hrest
    refine ⟨(chunks msg).length + k, ?_, sent_sent _ _⟩
    rw [mapM_cons, run_seq_ok]
    refine ⟨msg, _, hreceive, run_seq_ok.mpr ⟨msgs, _, hreceives, ?_⟩⟩
    rw [received_received]
    rfl

/-- Accepted payloads are received unchanged and in order, however long they are, and both
counters advance by the number of parts; a payload refused for its size is not counted. -/
theorem frames_round_trip (h : Coupled s r) :
    (∀ msg frame s', (encryptFrame msg).run s = .ok frame s' →
      ∃ k, (decryptFrame frame).run r = .ok msg (r.received k) ∧ s' = s.sent k) ∧
    (∀ (msgs frames : List (List UInt8)) s', (msgs.mapM encryptFrame).run s = .ok frames s' →
      ∃ k, (frames.mapM decryptFrame).run r = .ok msgs (r.received k) ∧ s' = s.sent k) ∧
    ∀ msg what s', (encryptFrame msg).run s = .error (sizeErr what) s' →
      s'.sendNonce = s.sendNonce := by
  refine ⟨fun msg frame s' hsend => ⟨_, h.frame hsend⟩, fun msgs frames s' hsend => h.frames hsend,
    fun msg what s' hrefused => ?_⟩
  rcases encryptFrame_error h.sender hrefused with ⟨-, rfl⟩ | ⟨⟨_, ⟨⟩⟩, -⟩
  rfl

/-- Authentication without a secret: the tag repeats the counter. -/
def counterTag : Aead where
  enclose n p := p ++ (toBeBytes n ++ toBeBytes n)
  disclose n c :=
    if c.drop (c.length - NOISE_TAG_LEN) = toBeBytes n ++ toBeBytes n then
      some (c.take (c.length - NOISE_TAG_LEN))
    else none
  length_enclose n p := by
    rw [length_append, length_append, length_toBeBytes]
    rfl
  length_disclose n c p h := by
    split at h
    · rename_i htag
      have hlen := congrArg List.length htag
      rw [length_drop, length_append, length_toBeBytes] at hlen
      rw [← Option.some.inj h, length_take]
      unfold NOISE_TAG_LEN at *
      omega
    · cases h

theorem disclose_counterTag (n : UInt64) (p : List UInt8) :
    counterTag.disclose n (counterTag.enclose n p) = some p := by
  have hlen : (counterTag.enclose n p).length - NOISE_TAG_LEN = p.length := by
    rw [counterTag.length_enclose, Nat.add_sub_cancel]
  simp only [counterTag] at hlen ⊢
  rw [hlen, drop_left, if_pos rfl, take_left]

/-- A new session over `counterTag`. -/
def sampleSession : NoiseTransport := .new counterTag counterTag

theorem coupled_sampleSession : Coupled sampleSession sampleSession :=
  ⟨lockstep_new _ _, lockstep_new _ _, rfl, disclose_counterTag⟩

theorem frames_round_trip_empty :
    ∃ frame s', (encryptFrame []).run sampleSession = .ok frame s' ∧
      ∃ k, (decryptFrame frame).run sampleSession = .ok [] (sampleSession.received k) ∧
        s' = sampleSession.sent k := by
  have hchunks : (chunks []).length = 1 := by
    rw [length_chunks]
    rfl
  have hsend : (encryptFrame []).run sampleSession =
      .ok (counterTag.frame 0 (chunks [])) (sampleSession.sent (chunks []).length) :=
    (encryptFrame_ok coupled_sampleSession.sender).mpr
      ⟨by decide, by rw [hchunks]; decide, rfl, rfl⟩
  exact ⟨_, _, hsend, (frames_round_trip coupled_sampleSession).1 _ _ _ hsend⟩

/-! ### Rejected frames -/

/-- The frame gets past its lengths and its first part. -/
def FirstPartGenuine (t : NoiseTransport) (raw : List UInt8) : Prop :=
  Framed raw ∧ ∃ chunk, Genuine t ((raw.drop 4).take MAX_ENCRYPTED_PART) chunk

theorem received_ne {k : Nat} (hpos : 0 < k) (hleft : t.recvNonce.toNat + k < 2 ^ 64) :
    (t.received k).recvNonce ≠ t.recvNonce := by
  intro hsame
  have hnat := congrArg UInt64.toNat hsame
  rw [received, UInt64.toNat_add, UInt64.toNat_ofNat'] at hnat
  omega

/-- A rejected frame leaves the transport alone, or its first part was accepted and the
counter is ahead. -/
theorem rejected_frame (hlock : t.Lockstep) (h : (decryptFrame raw).run t = .error e t') :
    (¬ FirstPartGenuine t raw ∧ t' = t) ∨
      FirstPartGenuine t raw ∧ t'.recvNonce ≠ t.recvNonce := by
  rcases decryptFrame_error h with ⟨hframed, hsame⟩ | ⟨hframed, h⟩
  · exact .inl ⟨fun hfirst => hframed hfirst.1, hsame⟩
  rcases decryptParts_error hlock h with ⟨hsame, hfake⟩ | ⟨chunk, hgenuine, hrest⟩
  · exact .inl ⟨fun ⟨_, chunk, hgenuine⟩ => hfake chunk hgenuine, hsame⟩
  · obtain ⟨k, hk, hleft⟩ := @leaves_decryptParts _ ((raw.drop 4).drop MAX_ENCRYPTED_PART)
      (hlock.received 1)
    rw [leaves_error hrest, received_received] at hk
    refine .inr ⟨⟨hframed, chunk, hgenuine⟩, ?_⟩
    rw [hk, Nat.add_comm]
    exact received_ne (Nat.succ_pos k) (counters_left.mp ⟨hgenuine.left, hleft⟩)

/-- A rejected frame leaves the counter, so that every frame is received as before, exactly
if its first part is not genuine; the counters of an accepted frame are consecutive from
the next one on. -/
theorem rejected_frame_keeps_counter_iff (hlock : t.Lockstep) :
    (∀ raw e t', (decryptFrame raw).run t = .error e t' →
      ((t'.recvNonce = t.recvNonce ∧
        ∀ frame msg u, (decryptFrame frame).run t = .ok msg u →
          (decryptFrame frame).run t' = .ok msg u) ↔ ¬ FirstPartGenuine t raw)) ∧
    ∀ raw msg t', (decryptFrame raw).run t = .ok msg t' →
      ∀ i, i * MAX_ENCRYPTED_PART < (raw.drop 4).length →
        fromBeBytes64 (((raw.drop 4).drop (i * MAX_ENCRYPTED_PART)).take NOISE_NONCE_LEN) =
          t.recvNonce + UInt64.ofNat i := by
  refine ⟨fun raw e t' h => ?_, fun raw msg t' h i hi => ?_⟩
  · rcases rejected_frame hlock h with ⟨hfirst, rfl⟩ | ⟨hfirst, hahead⟩
    · exact ⟨fun _ => hfirst, fun _ => ⟨rfl, fun _ _ _ hframe => hframe⟩⟩
    · exact ⟨fun hsame => absurd hsame.1 hahead, fun hfake => absurd hfirst hfake⟩
  · exact decryptParts_counters hlock (decryptFrame_ok.mp h).2 i hi

theorem rejected_empty_frame :
    (decryptFrame []).run sampleSession =
        .error (sizeErr "encrypted frame prefix") sampleSession ∧
      ¬ FirstPartGenuine sampleSession [] :=
  ⟨rfl, ((rejected_frame_keeps_counter_iff coupled_sampleSession.sender).1 _ _ _ rfl).mp
    ⟨rfl, fun _ _ _ hframe => hframe⟩⟩

/-- A genuine full part and one byte more. -/
def overrun (aead : Aead) (n : UInt64) (p : List UInt8) : List UInt8 :=
  toBeBytes32 (UInt32.ofNat (MAX_ENCRYPTED_PART + 1)) ++ (aead.part n p ++ [0])

theorem framed_overrun {aead : Aead} {n : UInt64} (hfull : p.length = MAX_TRANSPORT_PAYLOAD) :
    Framed (overrun aead n p) := by
  have hfour : (toBeBytes32 (UInt32.ofNat (MAX_ENCRYPTED_PART + 1))).length = 4 :=
    length_toBeBytes32 _
  have hlen : (overrun aead n p).length = 4 + (MAX_ENCRYPTED_PART + 1) := by
    rw [overrun, length_append, length_append, hfour, Aead.length_part, hfull]
    rfl
  have htotal : (fromBeBytes32 ((overrun aead n p).take 4)).toNat = MAX_ENCRYPTED_PART + 1 := by
    rw [overrun, take_left' hfour, fromBeBytes32_toBeBytes32]
    rfl
  refine ⟨?_, ?_, ?_, ?_⟩
  all_goals
    simp only [hlen, htotal]
    decide

/-- Such a frame is rejected after its part was counted. -/
theorem decryptFrame_overrun {aead : Aead} (hlock : t.Lockstep)
    (hfull : p.length = MAX_TRANSPORT_PAYLOAD) (hleft : t.recvNonce ≠ lastNonce)
    (hopen : t.ingress.aead.disclose t.recvNonce (aead.enclose t.recvNonce p) = some p) :
    ∃ e, (decryptFrame (overrun aead t.recvNonce p)).run t = .error e (t.received 1) := by
  have hblob : (overrun aead t.recvNonce p).drop 4 = aead.part t.recvNonce p ++ [0] :=
    drop_left' (length_toBeBytes32 _)
  have hlen : (aead.part t.recvNonce p).length = MAX_ENCRYPTED_PART := by
    rw [Aead.length_part, hfull]
    rfl
  have hgenuine := genuine_part hleft hopen
  -- the byte that is left is too short for a part
  have hshort (u : NoiseTransport) (chunk : List UInt8) :
      ¬ Genuine u (([0] : List UInt8).take MAX_ENCRYPTED_PART) chunk :=
    fun hgenuine => absurd hgenuine.long (by decide)
  rw [run_decryptFrame (framed_overrun hfull), hblob]
  cases hrun : (decryptParts (aead.part t.recvNonce p ++ [0])).run t with
  | ok msg u =>
    obtain ⟨_, _, -, hrest, -⟩ := (decryptParts_ok hlock part_ne_nil).mp hrun
    rw [drop_left' hlen] at hrest
    obtain ⟨chunk, _, hlast, -, -⟩ :=
      (decryptParts_ok (hlock.received 1) (cons_ne_nil _ _)).mp hrest
    exact absurd hlast (hshort _ _)
  | error e u =>
    rcases decryptParts_error hlock hrun with ⟨-, hfake⟩ | ⟨_, -, hrest⟩
    · rw [take_left' hlen] at hfake
      exact absurd hgenuine (hfake p)
    · rw [drop_left' hlen] at hrest
      rcases decryptParts_error (hlock.received 1) hrest with ⟨rfl, -⟩ | ⟨_, hlast, -⟩
      · exact ⟨e, rfl⟩
      · exact absurd hlast (hshort _ _)

/-- The counter is one ahead of the peer after the rejection. -/
theorem overrun_desynchronizes :
    ∃ raw e, (decryptFrame raw).run sampleSession = .error e (sampleSession.received 1) ∧
      (sampleSession.received 1).recvNonce ≠ sampleSession.recvNonce := by
  obtain ⟨e, h⟩ := decryptFrame_overrun (t := sampleSession)
    (p := List.replicate MAX_TRANSPORT_PAYLOAD 0) coupled_sampleSession.receiver
    length_replicate (by decide) (disclose_counterTag _ _)
  exact ⟨_, e, h, by decide⟩

end

end Strangecoin
