import Strangecoin.FrameSync

/-! # Message integrity against an attacker in the middle

Parts are authenticated under their counters, message boundaries are not: `decrypt_frame`
takes the length in front of a frame for the boundary.  Over an ideal AEAD an attacker can
therefore cut a payload of several parts, or join a full part with the next one.
-/
namespace Strangecoin
open List NoiseTransport

/-- The payloads that successive `decrypt_frame` calls accept. -/
def accepted (t : NoiseTransport) : List (List UInt8) → List (List UInt8)
  | [] => []
  | raw :: raws =>
    match (decryptFrame raw).run t with
    | .ok msg u => msg :: accepted u raws
    | .error _ u => accepted u raws

/-- A part decrypts exactly if the sender produced it under the same counter. -/
def Aead.Ideal (aead other : Aead) (n : UInt64) (log : List (List UInt8)) : Prop :=
  ∀ m c p, other.disclose m c = some p ↔
    ∃ i, log[i]? = some p ∧ m = n + UInt64.ofNat i ∧ c = aead.enclose m p

/-- Every payload fits one part, and only the last one may fill it. -/
def NeverFull (payloads : List (List UInt8)) : Prop :=
  ∀ i p, payloads[i]? = some p → p.length ≤ MAX_TRANSPORT_PAYLOAD ∧
    (i + 1 < payloads.length → p.length < MAX_TRANSPORT_PAYLOAD)

section

variable {s s' t t' : NoiseTransport} {raw rest msg : List UInt8} {raws : List (List UInt8)}

theorem accepted_ok (h : (decryptFrame raw).run t = .ok msg t') :
    accepted t (raw :: raws) = msg :: accepted t' raws := by
  rw [accepted, h]

theorem accepted_error {e : NetError} (h : (decryptFrame raw).run t = .error e t') :
    accepted t (raw :: raws) = accepted t' raws := by
  rw [accepted, h]

theorem framesOf_read {stream : List UInt8} (h : readFrame stream = .ok (some (raw, rest))) :
    framesOf stream = raw :: framesOf rest := by
  rw [framesOf]
  split
  · rename_i hsome
    rw [h] at hsome
    cases hsome
    rfl
  · rename_i hnone
    exact absurd h (hnone _ _)

theorem framesOf_framed (h : Framed raw) : framesOf (raw ++ rest) = raw :: framesOf rest := by
  refine framesOf_read (readFrame_ok.mpr ⟨rfl, h.headed, h.exact, ?_⟩)
  rw [← h.exact]
  exact h.fits

theorem framesOf_nil : framesOf [] = [] := by
  rw [framesOf]
  rfl

theorem framesOf_single (h : Framed raw) : framesOf raw = [raw] := by
  have hcons : framesOf (raw ++ []) = raw :: framesOf [] := framesOf_framed h
  rwa [append_nil, framesOf_nil] at hcons

/-- What a run of accepted payloads needs: sizes within the limit, and counters. -/
theorem encryptFrames_ok {msgs frames : List (List UInt8)} (hlock : s.Lockstep)
    (h : (msgs.mapM encryptFrame).run s = .ok frames s') :
    s.sendNonce.toNat + (msgs.flatMap chunks).length < 2 ^ 64 := by
  induction msgs generalizing s s' frames with
  | nil => exact s.sendNonce.toNat_lt
  | cons msg msgs ih =>
    rw [mapM_cons, run_seq_ok] at h
    obtain ⟨frame, u, hfirst, h⟩ := h
    obtain ⟨rest, v, hrest, -⟩ := run_seq_ok.mp h
    obtain ⟨-, hleft, -, rfl⟩ := (encryptFrame_ok hlock).mp hfirst
    have hnext := ih (hlock.sent _) hrest
    rw [flatMap_cons, length_append]
    rw [sent, UInt64.toNat_add, UInt64.toNat_ofNat'] at hnext
    omega

end

/-! ### What an ideal receiver accepts -/

variable {p : List UInt8}

section

/-- A receiver that is to get the parts of `log`, under counters that suffice for them. -/
structure Hears (aead : Aead) (r : NoiseTransport) (log : List (List UInt8)) : Prop where
  lockstep : r.Lockstep
  ideal : aead.Ideal r.ingress.aead r.recvNonce log
  left : r.recvNonce.toNat + log.length < 2 ^ 64

variable {aead : Aead} {r t' : NoiseTransport} {log : List (List UInt8)} {k : Nat}

section
variable (hr : Hears aead r log)
include hr

theorem toNat_received (hk : k ≤ log.length) :
    (r.received k).recvNonce.toNat = r.recvNonce.toNat + k := by
  have hleft := hr.left
  rw [received, UInt64.toNat_add, UInt64.toNat_ofNat']
  omega

/-- After `k` parts only the next one of the sender is genuine. -/
theorem genuine_iff (hk : k ≤ log.length)
    {part chunk : List UInt8} :
    Genuine (r.received k) part chunk ↔
      log[k]? = some chunk ∧ part = aead.part (r.received k).recvNonce chunk := by
  have hleft := hr.left
  have hnat := toNat_received hr hk
  constructor
  · intro h
    obtain ⟨i, hi, hcounter, hcipher⟩ := (hr.ideal _ _ _).mp h.authentic
    have hlt : i < log.length := (List.getElem?_eq_some_iff.mp hi).1
    have hik : i = k := by
      have hnat' := congrArg UInt64.toNat hcounter
      rw [hnat, UInt64.toNat_add, UInt64.toNat_ofNat'] at hnat'
      omega
    subst hik
    refine ⟨hi, ?_⟩
    have hhead : (part.take NOISE_NONCE_LEN).length = 8 := by
      have := h.long
      rw [length_take]
      unfold ENCRYPTED_FRAME_OVERHEAD at this
      unfold NOISE_NONCE_LEN at *
      omega
    rw [Aead.part, ← hcipher, ← h.counter, toBeBytes_fromBeBytes64 hhead, take_append_drop]
  · rintro ⟨hi, rfl⟩
    have hlt : k < log.length := (List.getElem?_eq_some_iff.mp hi).1
    refine genuine_part (ne_lastNonce Nat.zero_lt_one ?_) ((hr.ideal _ _ _).mpr ⟨k, hi, rfl, rfl⟩)
    omega

theorem not_genuine_last (hk : k = log.length)
    (part chunk : List UInt8) : ¬ Genuine (r.received k) part chunk := by
  intro h
  have hsome := ((genuine_iff hr (Nat.le_of_eq hk)).mp h).1
  rw [hk, getElem?_eq_none (Nat.le_refl _)] at hsome
  cases hsome

/-- A part with something behind it is full, and then it was the last one. -/
theorem followed_part_last (hnever : NeverFull log)
    (hk : k ≤ log.length) {blob chunk : List UInt8}
    (h : Genuine (r.received k) (blob.take MAX_ENCRYPTED_PART) chunk)
    (hmore : blob.drop MAX_ENCRYPTED_PART ≠ []) : k + 1 = log.length := by
  obtain ⟨hchunk, hpart⟩ := (genuine_iff hr hk).mp h
  have hlt : k < log.length := (List.getElem?_eq_some_iff.mp hchunk).1
  have hlong : MAX_ENCRYPTED_PART < blob.length := by
    have := length_pos_iff.mpr hmore
    rw [length_drop] at this
    omega
  have hlen := congrArg List.length hpart
  rw [length_take, Nat.min_eq_left (Nat.le_of_lt hlong), Aead.length_part] at hlen
  have hfull : chunk.length = MAX_TRANSPORT_PAYLOAD := by
    unfold MAX_ENCRYPTED_PART ENCRYPTED_FRAME_OVERHEAD at hlen
    unfold MAX_TRANSPORT_PAYLOAD
    unfold NOISE_NONCE_LEN MAX_NOISE_MSG_LEN NOISE_TAG_LEN at *
    omega
  have hshort := (hnever k chunk hchunk).2
  omega

/-- One frame: the next payload, or nothing. -/
theorem decryptFrame_neverFull (hnever : NeverFull log)
    (hk : k ≤ log.length) {raw : List UInt8} :
    (∀ msg, (decryptFrame raw).run (r.received k) = .ok msg t' →
      log[k]? = some msg ∧ t' = r.received (k + 1)) ∧
    ∀ e, (decryptFrame raw).run (r.received k) = .error e t' →
      t' = r.received k ∨ t' = r.received log.length := by
  have hlock := hr.lockstep.received k
  refine ⟨fun msg h => ?_, fun e h => ?_⟩
  · obtain ⟨hframed, h⟩ := decryptFrame_ok.mp h
    have hne : raw.drop 4 ≠ [] := by
      refine ne_nil_of_length_pos ?_
      rw [length_drop, ← hframed.exact]
      exact Nat.lt_of_lt_of_le (by decide) hframed.long
    obtain ⟨chunk, rest, hgenuine, hrest, rfl⟩ := (decryptParts_ok hlock hne).mp h
    rw [received_received] at hrest
    by_cases hmore : (raw.drop 4).drop MAX_ENCRYPTED_PART = []
    · rw [hmore, decryptParts_nil] at hrest
      cases hrest
      rw [append_nil]
      exact ⟨((genuine_iff hr hk).mp hgenuine).1, rfl⟩
    · have hlast := followed_part_last hr hnever hk hgenuine hmore
      obtain ⟨_, _, hnext, -⟩ := (decryptParts_ok (hr.lockstep.received _) hmore).mp hrest
      exact absurd hnext (not_genuine_last hr hlast _ _)
  · rcases decryptFrame_error h with ⟨-, hsame⟩ | ⟨-, h⟩
    · exact .inl hsame
    rcases decryptParts_error hlock h with ⟨hsame, -⟩ | ⟨chunk, hgenuine, hrest⟩
    · exact .inl hsame
    have hmore : (raw.drop 4).drop MAX_ENCRYPTED_PART ≠ [] := by
      intro hnil
      rw [hnil, decryptParts_nil] at hrest
      cases hrest
    have hlast := followed_part_last hr hnever hk hgenuine hmore
    rw [received_received] at hrest
    rcases decryptParts_error (hr.lockstep.received _) hrest with ⟨hsame, -⟩ | ⟨_, hnext, -⟩
    · exact .inr (hlast ▸ hsame)
    · exact absurd hnext (not_genuine_last hr hlast _ _)

/-- All frames of a stream: the next payloads. -/
theorem accepted_initial (hnever : NeverFull log)
    (hk : k ≤ log.length) (raws : List (List UInt8)) :
    accepted (r.received k) raws <+: log.drop k := by
  induction raws generalizing k with
  | nil => exact nil_prefix
  | cons raw raws ih =>
    cases hrun : (decryptFrame raw).run (r.received k) with
    | ok msg u =>
      obtain ⟨hnext, rfl⟩ := (decryptFrame_neverFull hr hnever hk).1 msg hrun
      obtain ⟨hlt, hget⟩ := List.getElem?_eq_some_iff.mp hnext
      rw [accepted_ok hrun, drop_eq_getElem_cons hlt, hget]
      exact prefix_cons_inj _ |>.mpr (ih hlt)
    | error e u =>
      rw [accepted_error hrun]
      rcases (decryptFrame_neverFull hr hnever hk).2 e hrun with rfl | rfl
      · exact ih hk
      · -- nothing is left to be accepted
        have hnone := ih (Nat.le_refl log.length)
        rw [drop_length, prefix_nil] at hnone
        rw [hnone]
        exact nil_prefix

end

/-! ### Cutting and joining -/

variable {ps : List (List UInt8)}

theorem opens_of_initial (hr : Hears aead r log)
    (h : ps <+: log.drop k) : aead.Opens r.ingress.aead (r.received k).recvNonce ps := by
  induction ps generalizing k with
  | nil => trivial
  | cons p ps ih =>
    obtain ⟨rest, hrest⟩ := h
    have hget : log[k]? = some p := by
      rw [← Nat.add_zero k, ← getElem?_drop, ← hrest]
      rfl
    have htail : ps <+: log.drop (k + 1) := by
      refine ⟨rest, ?_⟩
      rw [← drop_drop, ← hrest]
      rfl
    refine ⟨(hr.ideal _ _ _).mpr ⟨k, hget, rfl, rfl⟩, ?_⟩
    have hnext := ih htail
    rw [← received_received] at hnext
    exact hnext

theorem Chunked.length_flatten_le (h : Chunked ps) :
    ps.flatten.length ≤ ps.length * MAX_TRANSPORT_PAYLOAD := by
  induction h with
  | last hfits =>
    rw [flatten_singleton, length_singleton, Nat.one_mul]
    exact hfits
  | cons hfull _ ih =>
    rw [flatten_cons, length_append, length_cons, Nat.succ_mul, hfull]
    omega

/-- The receiver accepts the next parts in every frame that ends where one of them ends. -/
theorem accepted_frame (hr : Hears aead r log) (hk : k ≤ log.length) (hchunked : Chunked ps)
    (h : ps <+: log.drop k) (hfew : ps.length ≤ 2) (rest : List UInt8) :
    accepted (r.received k) (framesOf (aead.frame (r.received k).recvNonce ps ++ rest)) =
      ps.flatten :: accepted (r.received (k + ps.length)) (framesOf rest) := by
  have hne : ps ≠ [] := by cases hchunked <;> exact cons_ne_nil _ _
  have hcount := h.length_le
  rw [length_drop] at hcount
  have hcounters : (r.received k).recvNonce.toNat + ps.length < 2 ^ 64 := by
    have hleft := hr.left
    rw [toNat_received hr hk]
    omega
  have hfits : (aead.parts (r.received k).recvNonce ps).length ≤ MAX_MESSAGE_SIZE := by
    have hflat := hchunked.length_flatten_le
    have hpayloads := Nat.mul_le_mul_right MAX_TRANSPORT_PAYLOAD hfew
    have hheaders := Nat.mul_le_mul_right ENCRYPTED_FRAME_OVERHEAD hfew
    have hmax : 2 * MAX_TRANSPORT_PAYLOAD + 2 * ENCRYPTED_FRAME_OVERHEAD ≤ MAX_MESSAGE_SIZE := by
      decide
    rw [Aead.length_parts]
    omega
  have hframed : Framed (aead.frame (r.received k).recvNonce ps) := framed_frame hne hfits
  have hrun := decryptParts_parts (hr.lockstep.received k) hchunked hcounters (opens_of_initial hr h)
  rw [← drop_frame, ← run_decryptFrame hframed, received_received] at hrun
  rw [framesOf_framed hframed, accepted_ok hrun]

theorem not_prefix_of_ne {q : List UInt8} {qs : List (List UInt8)} (h : q ≠ p) :
    ¬ q :: qs <+: p :: ps := fun hinit => h (cons_prefix_cons.mp hinit).1

/-- A payload of several parts is cut after its first one. -/
theorem cut_attack (hr : Hears aead r log) (hk : k ≤ log.length) (ps : List (List UInt8))
    (hlog : chunks p <+: log.drop k) (hlong : MAX_TRANSPORT_PAYLOAD < p.length) :
    ∃ stream, ¬ accepted (r.received k) (framesOf stream) <+: p :: ps := by
  have hlen : (p.take MAX_TRANSPORT_PAYLOAD).length = MAX_TRANSPORT_PAYLOAD := by
    rw [length_take, Nat.min_eq_left (Nat.le_of_lt hlong)]
  have hfirst : [p.take MAX_TRANSPORT_PAYLOAD] <+: log.drop k := by
    rw [chunks, if_neg (Nat.not_le_of_lt hlong)] at hlog
    exact List.IsPrefix.trans ⟨_, rfl⟩ hlog
  have hcut := accepted_frame hr hk (.last (Nat.le_of_eq hlen)) hfirst
    (Nat.le_succ 1) []
  refine ⟨aead.frame (r.received k).recvNonce [p.take MAX_TRANSPORT_PAYLOAD] ++ [], ?_⟩
  rw [hcut, flatten_singleton]
  refine not_prefix_of_ne fun hsame => ?_
  have := congrArg List.length hsame
  omega

/-- A full part is joined with the next one, or, if that one is empty, spoiled with a byte
behind it. -/
theorem join_attack (hr : Hears aead r log) (hk : k ≤ log.length) {c : List UInt8}
    (hlog : [p, c] <+: log.drop k) (hfull : p.length = MAX_TRANSPORT_PAYLOAD)
    (hfits : c.length ≤ MAX_TRANSPORT_PAYLOAD) :
    ∃ stream, ¬ accepted (r.received k) (framesOf stream) <+: p :: ps := by
  by_cases hempty : c = []
  · subst hempty
    obtain ⟨rest, hrest⟩ := hlog
    have hcount : k + 1 < log.length := by
      have := congrArg List.length hrest
      rw [length_append, length_drop] at this
      simp only [length_cons, length_nil] at this
      omega
    have htail : [[]] <+: log.drop (k + 1) := by
      refine ⟨rest, ?_⟩
      rw [← drop_drop, ← hrest]
      rfl
    have hleft := hr.left
    have hopens := opens_of_initial hr ⟨rest, hrest⟩
    obtain ⟨e, hspoiled⟩ := decryptFrame_overrun (hr.lockstep.received k) hfull
      (ne_lastNonce Nat.zero_lt_one (by rw [toNat_received hr hk]; omega)) hopens.1
    rw [received_received] at hspoiled
    have hnext := accepted_frame hr (Nat.le_of_lt hcount)
      (.last hfits) htail (Nat.le_succ 1) []
    refine ⟨overrun aead (r.received k).recvNonce p ++
      (aead.frame (r.received (k + 1)).recvNonce [[]] ++ []), ?_⟩
    rw [framesOf_framed (framed_overrun hfull), accepted_error hspoiled, hnext]
    refine not_prefix_of_ne fun hsame => ?_
    rw [← hsame] at hfull
    exact absurd hfull (by decide)
  · have hjoined := accepted_frame hr hk (.cons hfull (.last hfits)) hlog
      (Nat.le_refl 2) []
    refine ⟨aead.frame (r.received k).recvNonce [p, c] ++ [], ?_⟩
    rw [hjoined, flatten_cons, flatten_singleton]
    refine not_prefix_of_ne fun hsame => ?_
    exact hempty (append_right_eq_self.mp hsame)

/-- Where a payload fills its parts, a stream makes the receiver accept something else. -/
theorem exists_attack (hr : Hears aead r log) {payloads : List (List UInt8)}
    (hk : k ≤ log.length) (hlog : log.drop k = payloads.flatMap chunks)
    (hbad : ¬ NeverFull payloads) :
    ∃ stream, ¬ accepted (r.received k) (framesOf stream) <+: payloads := by
  induction payloads generalizing k with
  | nil => exact absurd (fun i p h => by simp at h) hbad
  | cons p ps ih =>
    rw [flatMap_cons] at hlog
    by_cases hlong : MAX_TRANSPORT_PAYLOAD < p.length
    · exact cut_attack hr hk ps ⟨_, hlog.symm⟩ hlong
    have hfits : p.length ≤ MAX_TRANSPORT_PAYLOAD := Nat.le_of_not_lt hlong
    rw [chunks, if_pos hfits, singleton_append] at hlog
    by_cases hfull : p.length = MAX_TRANSPORT_PAYLOAD ∧ ps ≠ []
    · obtain ⟨q, qs, rfl⟩ := exists_cons_of_ne_nil hfull.2
      obtain ⟨c, cs, hc, hfirst⟩ :
          ∃ c cs, chunks q = c :: cs ∧ c.length ≤ MAX_TRANSPORT_PAYLOAD := by
        have hchunked := chunked_chunks q
        revert hchunked
        generalize chunks q = qc
        rintro (hfits | ⟨hfull, -⟩)
        · exact ⟨_, _, rfl, hfits⟩
        · exact ⟨_, _, rfl, Nat.le_of_eq hfull⟩
      rw [flatMap_cons, hc] at hlog
      exact join_attack hr hk ⟨_, hlog.symm⟩ hfull.1 hfirst
    · -- an honest frame, and the attack on the payloads behind it
      have hlt : k < log.length := by
        have := congrArg List.length hlog
        rw [length_drop, length_cons] at this
        omega
      have htail : log.drop (k + 1) = ps.flatMap chunks := by
        rw [← drop_drop, hlog]
        rfl
      have hps : ¬ NeverFull ps := by
        intro hnever
        refine hbad fun i q hq => ?_
        cases i with
        | zero =>
          cases hq
          refine ⟨hfits, fun hmore => Nat.lt_of_le_of_ne hfits fun hsame => hfull ⟨hsame, ?_⟩⟩
          rintro rfl
          simp at hmore
        | succ i =>
          refine ⟨(hnever i q hq).1, fun hmore => (hnever i q hq).2 ?_⟩
          rw [length_cons] at hmore
          omega
      obtain ⟨stream, hstream⟩ := ih hlt htail hps
      have hhonest := accepted_frame hr hk (.last hfits) ⟨_, hlog.symm⟩
        (Nat.le_succ 1) stream
      refine ⟨aead.frame (r.received k).recvNonce [p] ++ stream, fun hinit => hstream ?_⟩
      rw [hhonest, flatten_singleton] at hinit
      exact (cons_prefix_cons.mp hinit).2

end

/-! ### Integrity -/

theorem NeverFull.flatMap_chunks {payloads : List (List UInt8)} (h : NeverFull payloads) :
    payloads.flatMap chunks = payloads := by
  have hsingle : ∀ p ∈ payloads, chunks p = [p] := by
    intro p hp
    obtain ⟨i, hi⟩ := mem_iff_getElem?.mp hp
    rw [chunks, if_pos (h i p hi).1]
  rw [flatMap_congr hsingle, flatMap_singleton']

/-- The payloads accepted from every stream are a prefix of those sent exactly if no
payload but the last one fills a part. -/
theorem accepted_prefix_iff {s s' r : NoiseTransport} {payloads frames : List (List UInt8)}
    (hs : s.Lockstep) (hr : r.Lockstep) (hcounter : r.recvNonce = s.sendNonce)
    (hsend : (payloads.mapM encryptFrame).run s = .ok frames s')
    (hideal : s.egress.aead.Ideal r.ingress.aead s.sendNonce (payloads.flatMap chunks)) :
    (∀ stream, accepted r (framesOf stream) <+: payloads) ↔ NeverFull payloads := by
  have hleft := encryptFrames_ok hs hsend
  rw [← hcounter] at hideal hleft
  constructor
  · intro h
    by_contra hbad
    obtain ⟨stream, hstream⟩ := exists_attack ⟨hr, hideal, hleft⟩ (Nat.zero_le _) drop_zero hbad
    rw [received_zero] at hstream
    exact hstream (h stream)
  · intro hnever stream
    rw [hnever.flatMap_chunks] at hideal hleft
    have hinit := accepted_initial ⟨hr, hideal, hleft⟩ hnever (Nat.zero_le _) (framesOf stream)
    rwa [received_zero, drop_zero] at hinit

/-- The ideal receiver of a log. -/
def Aead.idealOf (aead : Aead) (n : UInt64) (log : List (List UInt8)) : Aead where
  enclose := aead.enclose
  disclose m c :=
    match log[(m - n).toNat]? with
    | some p => if c = aead.enclose m p then some p else none
    | none => none
  length_enclose := aead.length_enclose
  length_disclose m c p h := by
    split at h
    · split at h
      · rename_i hc
        rw [hc, Option.some.inj h, aead.length_enclose]
      · cases h
    · cases h

theorem Aead.ideal_idealOf (aead : Aead) (n : UInt64) {log : List (List UInt8)}
    (hlog : log.length ≤ 2 ^ 64) : aead.Ideal (aead.idealOf n log) n log := by
  intro m c p
  simp only [idealOf]
  constructor
  · intro h
    split at h
    · rename_i q hq
      split at h
      · rename_i hc
        cases h
        refine ⟨_, hq, ?_, hc⟩
        rw [UInt64.ofNat_toNat, UInt64.add_comm, UInt64.sub_add_cancel]
      · cases h
    · cases h
  · rintro ⟨i, hi, rfl, rfl⟩
    have hlt : i < log.length := (List.getElem?_eq_some_iff.mp hi).1
    have hindex : (n + UInt64.ofNat i - n).toNat = i := by
      rw [UInt64.add_comm, UInt64.add_sub_cancel, UInt64.toNat_ofNat', Nat.mod_eq_of_lt]
      omega
    rw [hindex, hi]
    exact if_pos rfl

/-- The receiver of what `sampleSession` sent. -/
def sampleReceiver (payloads : List (List UInt8)) : NoiseTransport :=
  .new counterTag (counterTag.idealOf 0 (payloads.flatMap chunks))

theorem length_flatMap_single (p : List UInt8) :
    ([p].flatMap chunks).length = partCount p.length := by
  rw [flatMap_singleton, length_chunks]

/-- Such a session sends every payload of fitting size. -/
theorem sampleSession_sends
    (hsize : 4 + p.length + partCount p.length * ENCRYPTED_FRAME_OVERHEAD ≤ MAX_MESSAGE_SIZE) :
    ∃ frames s', ([p].mapM encryptFrame).run sampleSession = .ok frames s' := by
  have hcount : sampleSession.sendNonce.toNat + (chunks p).length < 2 ^ 64 := by
    have hzero : sampleSession.sendNonce.toNat = 0 := rfl
    rw [length_chunks, hzero]
    unfold ENCRYPTED_FRAME_OVERHEAD NOISE_NONCE_LEN NOISE_TAG_LEN MAX_MESSAGE_SIZE at hsize
    omega
  have hframe := (encryptFrame_ok coupled_sampleSession.sender).mpr ⟨hsize, hcount, rfl, rfl⟩
  have hsends : ([p].mapM encryptFrame).run sampleSession =
      .ok [sampleSession.egress.aead.frame sampleSession.sendNonce (chunks p)]
        (sampleSession.sent (chunks p).length) := by
    rw [mapM_cons, run_seq_ok]
    exact ⟨_, _, hframe, run_seq_ok.mpr ⟨[], _, by rw [mapM_nil]; rfl, rfl⟩⟩
  exact ⟨_, _, hsends⟩

theorem ideal_sampleReceiver (hfew : partCount p.length ≤ 2 ^ 64) :
    counterTag.Ideal (sampleReceiver [p]).ingress.aead 0 ([p].flatMap chunks) :=
  counterTag.ideal_idealOf 0 (by rw [length_flatMap_single]; exact hfew)

theorem accepted_prefix_single :
    (∃ frames s', ([[7]].mapM encryptFrame).run sampleSession = .ok frames s') ∧
      ∀ stream, accepted (sampleReceiver [[7]]) (framesOf stream) <+: [[7]] := by
  have hnever : NeverFull [[7]] := by
    intro i p hp
    cases i with
    | zero =>
      cases hp
      exact ⟨by decide, fun _ => by decide⟩
    | succ i => simp at hp
  obtain ⟨frames, s', hsend⟩ := sampleSession_sends (p := [7]) (by decide)
  exact ⟨⟨frames, s', hsend⟩, (accepted_prefix_iff coupled_sampleSession.sender (lockstep_new _ _)
    rfl hsend (ideal_sampleReceiver (by decide))).mpr hnever⟩

theorem cut_of_length (hlen : p.length = MAX_TRANSPORT_PAYLOAD + 1) :
    ∃ frames s', ([p].mapM encryptFrame).run sampleSession = .ok frames s' ∧
      counterTag.Ideal (sampleReceiver [p]).ingress.aead 0 ([p].flatMap chunks) ∧
      ∃ stream, ¬ accepted (sampleReceiver [p]) (framesOf stream) <+: [p] := by
  obtain ⟨frames, s', hsend⟩ := sampleSession_sends (p := p) (by rw [hlen]; decide)
  have hideal := ideal_sampleReceiver (p := p) (by rw [hlen]; decide)
  have hleft := encryptFrames_ok coupled_sampleSession.sender hsend
  have hcut := cut_attack ⟨lockstep_new counterTag _, hideal, hleft⟩ (Nat.zero_le _) []
    (by rw [drop_zero, flatMap_singleton]) (by rw [hlen]; exact Nat.lt_succ_self _)
  rw [received_zero] at hcut
  exact ⟨frames, s', hsend, hideal, hcut⟩

/-- A payload of one byte more than a part: its first part is accepted as a payload. -/
theorem long_payload_cut :
    ∃ payloads frames s', (payloads.mapM encryptFrame).run sampleSession = .ok frames s' ∧
      counterTag.Ideal (sampleReceiver payloads).ingress.aead 0 (payloads.flatMap chunks) ∧
      ∃ stream, ¬ accepted (sampleReceiver payloads) (framesOf stream) <+: payloads :=
  ⟨[List.replicate (MAX_TRANSPORT_PAYLOAD + 1) 0], cut_of_length length_replicate⟩

end Strangecoin
