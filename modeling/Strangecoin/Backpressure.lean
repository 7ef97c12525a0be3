import Strangecoin.FrameIntegrity

/-! # Sending under backpressure

`send_payload` encrypts a payload, which advances the counter, and then writes the frame
as far as the socket takes it.  When the socket does not take all of it the call fails, but
the counter and the bytes already written stay.
-/
namespace Strangecoin
open List

/-- The answer to one `try_write`. -/
inductive TryWrite where
  | wrote (n : Nat)
  | wouldBlock
  | failed (message : String)
deriving DecidableEq, Repr

def backpressure : NetError := .transport "socket backpressure (try_write WouldBlock)"

/-- The loop of `send_payload`: the bytes that got onto the wire, and the result.  A socket
that has no further answer blocks. -/
def writeLoop : List UInt8 → List TryWrite → List UInt8 × Except NetError Unit
  | [], _ => ([], .ok ())
  | _ :: _, [] => ([], .error backpressure)
  | b :: bs, .wrote n :: answers =>
    if n = 0 then ([], .error (.transport "socket closed while writing frame"))
    else
      let (written, result) := writeLoop ((b :: bs).drop n) answers
      ((b :: bs).take n ++ written, result)
  | _ :: _, .wouldBlock :: _ => ([], .error backpressure)
  | _ :: _, .failed message :: _ => ([], .error (.transport message))

/-- A registered connection: its transport, and the bytes written to its socket. -/
structure Connection where
  transport : NoiseTransport
  wire : List UInt8

namespace Connection

/-- An operation under the transport lock. -/
def withTransport {α : Type} (x : EStateM NetError NoiseTransport α) :
    EStateM NetError Connection α := fun c =>
  match x.run c.transport with
  | .ok a t => .ok a { c with transport := t }
  | .error e t => .error e { c with transport := t }

def sendPayload (payload : List UInt8) (answers : List TryWrite) :
    EStateM NetError Connection Unit := do
  let frame ← withTransport (encryptFrame payload)
  let (written, result) := writeLoop frame answers
  modify fun c => { c with wire := c.wire ++ written }
  check result

/-- One `send_payload` call, with the payloads whose call succeeded so far. -/
def send (state : Connection × List (List UInt8)) (payload : List UInt8)
    (answers : List TryWrite) : Connection × List (List UInt8) :=
  match (sendPayload payload answers).run state.1 with
  | .ok _ c => (c, state.2 ++ [payload])
  | .error _ c => (c, state.2)

end Connection

/-- What reaches one connection: `send_to_peer` for its node, or a broadcast, which skips
it if the node is banned and ignores a failure. -/
inductive SendCall where
  | sendToPeer (payload : List UInt8) (answers : List TryWrite)
  | broadcastMessage (banned : Bool) (payload : List UInt8) (answers : List TryWrite)
deriving DecidableEq, Repr

namespace SendCall

def apply (state : Connection × List (List UInt8)) :
    SendCall → Connection × List (List UInt8)
  | sendToPeer payload answers => Connection.send state payload answers
  | broadcastMessage banned payload answers =>
    if banned then state else Connection.send state payload answers

/-- All calls on a new connection. -/
def run (t : NoiseTransport) (calls : List SendCall) : Connection × List (List UInt8) :=
  calls.foldl apply (⟨t, []⟩, [])

end SendCall

/-- The socket takes so many bytes. -/
def takes : Nat → List TryWrite → Bool
  | 0, _ => true
  | n + 1, .wrote k :: answers => k ≠ 0 && takes (n + 1 - k) answers
  | _ + 1, _ => false

/-- The length of the frame of a payload. -/
def frameLength (payload : List UInt8) : Nat :=
  4 + payload.length + partCount payload.length * ENCRYPTED_FRAME_OVERHEAD

/-- The payload is too long to be encrypted, or the socket takes all of its frame. -/
def Taken (payload : List UInt8) (answers : List TryWrite) : Prop :=
  MAX_MESSAGE_SIZE < frameLength payload ∨ takes (frameLength payload) answers = true

def SendCall.Unhindered : SendCall → Prop
  | sendToPeer payload answers => Taken payload answers
  | broadcastMessage banned payload answers => banned = true ∨ Taken payload answers

/-! ### Reading the wire -/

/-- The peer reads the whole wire and gets these payloads. -/
structure Decoded (r : NoiseTransport) (wire : List UInt8) (payloads : List (List UInt8))
    (r' : NoiseTransport) : Prop where
  whole : (framesOf wire).flatten = wire
  received : ((framesOf wire).mapM decryptFrame).run r = .ok payloads r'

variable {wire : List UInt8}

theorem framesOf_append (h : (framesOf wire).flatten = wire) (rest : List UInt8) :
    framesOf (wire ++ rest) = framesOf wire ++ framesOf rest := by
  induction wire using framesOf.induct with
  | case1 wire raw tail hread ih =>
    rw [framesOf_read hread, flatten_cons] at h
    obtain ⟨hwire, hshape⟩ := readFrame_ok.mp hread
    have htail : (framesOf tail).flatten = tail := append_cancel_left (h.trans hwire)
    have hlonger : readFrame (wire ++ rest) = .ok (some (raw, tail ++ rest)) :=
      readFrame_ok.mpr ⟨by rw [hwire, append_assoc], hshape⟩
    rw [framesOf_read hread, framesOf_read hlonger, ih htail, cons_append]
  | case2 wire hnone =>
    have hnil : framesOf wire = [] := by
      rw [framesOf]
      split
      · rename_i raw tail hread
        exact absurd hread (hnone raw tail)
      · rfl
    rw [hnil, flatten_nil] at h
    rw [hnil, ← h]
    rfl

theorem decoded_nil (r : NoiseTransport) : Decoded r [] [] r := by
  constructor
  · rw [framesOf_nil]
    rfl
  · rw [framesOf_nil, mapM_nil]
    rfl

variable {msg : List UInt8} {r : NoiseTransport}

theorem Decoded.append {r' r'' : NoiseTransport} {frame : List UInt8} {payloads : List (List UInt8)}
    (h : Decoded r wire payloads r') (hframe : (decryptFrame frame).run r' = .ok msg r'') :
    Decoded r (wire ++ frame) (payloads ++ [msg]) r'' := by
  have hlast : framesOf frame = [frame] := framesOf_single (decryptFrame_ok.mp hframe).1
  constructor
  · rw [framesOf_append h.whole, hlast, flatten_append, h.whole, flatten_singleton]
  · rw [framesOf_append h.whole, hlast, mapM_append, run_seq_ok]
    refine ⟨payloads, r', h.received, run_seq_ok.mpr ⟨[msg], r'', ?_, rfl⟩⟩
    rw [mapM_cons, run_seq_ok]
    exact ⟨msg, r'', hframe, run_seq_ok.mpr ⟨[], r'', by rw [mapM_nil]; rfl, rfl⟩⟩

/-! ### One call -/

variable {answers : List TryWrite}

theorem writeLoop_takes {frame : List UInt8} (h : takes frame.length answers = true) :
    writeLoop frame answers = (frame, .ok ()) := by
  induction answers generalizing frame with
  | nil =>
    cases frame with
    | nil => rfl
    | cons b bs => cases h
  | cons answer answers ih =>
    cases frame with
    | nil => rfl
    | cons b bs =>
      cases answer with
      | wrote n =>
        rw [length_cons, takes, Bool.and_eq_true, decide_eq_true_iff] at h
        have hrest : takes ((b :: bs).drop n).length answers = true := by
          rw [length_drop, length_cons]
          exact h.2
        rw [writeLoop, if_neg h.1, ih hrest]
        exact Prod.ext (take_append_drop ..) rfl
      | wouldBlock => cases h
      | failed message => cases h

variable {payload : List UInt8}

theorem length_frame {aead : Aead} {n : UInt64} :
    (aead.frame n (chunks payload)).length = frameLength payload := by
  rw [Aead.frame, length_append, length_toBeBytes32, length_parts_chunks, frameLength,
    Nat.add_assoc]

/-- Later frames of the sender decode: the counters agree, or no frame will come. -/
structure InStep (s r : NoiseTransport) : Prop where
  lockstep : s.Lockstep
  coupled : s.sendNonce ≠ lastNonce → Coupled s r

theorem InStep.frame {s s' : NoiseTransport} (h : InStep s r) {frame : List UInt8}
    (hsend : (encryptFrame msg).run s = .ok frame s') :
    ∃ k, (decryptFrame frame).run r = .ok msg (r.received k) ∧ InStep s' (r.received k) := by
  obtain ⟨-, hleft, -, -⟩ := (encryptFrame_ok h.lockstep).mp hsend
  have hcoupled := h.coupled (ne_lastNonce (length_pos_iff.mpr chunks_ne_nil) hleft)
  obtain ⟨hreceive, rfl⟩ := hcoupled.frame hsend
  exact ⟨_, hreceive, (hcoupled.advance _).sender, fun _ => hcoupled.advance _⟩

namespace Connection

variable {c : Connection} {t : NoiseTransport} {payload frame : List UInt8}
  {answers : List TryWrite}

theorem run_bind_of_ok {ε σ α β : Type} {x : EStateM ε σ α} {f : α → EStateM ε σ β} {s u : σ}
    {a : α} (h : x.run s = .ok a u) : (x >>= f).run s = (f a).run u := by
  rw [EStateM.run_bind, h]

theorem run_withTransport {α : Type} {x : EStateM NetError NoiseTransport α} :
    (withTransport x).run c = match x.run c.transport with
      | .ok a t => .ok a { c with transport := t }
      | .error e t => .error e { c with transport := t } :=
  rfl

theorem sendPayload_error {e : NetError} (h : (encryptFrame payload).run c.transport = .error e t) :
    (sendPayload payload answers).run c = .error e { c with transport := t } := by
  have hlocked : (withTransport (encryptFrame payload)).run c =
      .error e { c with transport := t } := by
    rw [run_withTransport, h]
  exact run_seq_error.mpr (.inl hlocked)

theorem sendPayload_frame (answers : List TryWrite)
    (h : (encryptFrame payload).run c.transport = .ok frame t) :
    (sendPayload payload answers).run c =
      (check (writeLoop frame answers).2).run ⟨t, c.wire ++ (writeLoop frame answers).1⟩ := by
  have hlocked : (withTransport (encryptFrame payload)).run c =
      .ok frame { c with transport := t } := by
    rw [run_withTransport, h]
  exact run_bind_of_ok hlocked

variable {state : Connection × List (List UInt8)}

theorem send_ok (h : (sendPayload payload answers).run state.1 = .ok () c) :
    send state payload answers = (c, state.2 ++ [payload]) := by
  rw [send, h]

theorem send_error {e : NetError} (h : (sendPayload payload answers).run state.1 = .error e c) :
    send state payload answers = (c, state.2) := by
  rw [send, h]

end Connection

/-- What is to be shown of every point of a run. -/
def Healthy (r : NoiseTransport) (state : Connection × List (List UInt8)) : Prop :=
  ∃ r', Decoded r state.1.wire state.2 r' ∧ InStep state.1.transport r'

variable {state : Connection × List (List UInt8)}

theorem Healthy.send (h : Healthy r state) (htaken : Taken payload answers) :
    Healthy r (Connection.send state payload answers) := by
  obtain ⟨r', hdecoded, hstep⟩ := h
  cases hencrypt : (encryptFrame payload).run state.1.transport with
  | error e t =>
    rw [Connection.send_error (Connection.sendPayload_error hencrypt)]
    refine ⟨r', hdecoded, ?_⟩
    -- refused for its size, or no counter is left for any later payload
    rcases encryptFrame_error hstep.lockstep hencrypt with ⟨-, rfl⟩ | ⟨-, k, rfl, hlast⟩
    · exact hstep
    · exact ⟨hstep.lockstep.sent k, fun hleft => absurd hlast hleft⟩
  | ok frame t =>
    obtain ⟨hsize, -, hframe, -⟩ := (encryptFrame_ok hstep.lockstep).mp hencrypt
    have hwritten : writeLoop frame answers = (frame, .ok ()) := by
      refine writeLoop_takes ?_
      rw [hframe, length_frame]
      exact htaken.resolve_left (Nat.not_lt_of_le hsize)
    have hsent := Connection.sendPayload_frame answers hencrypt
    rw [hwritten] at hsent
    obtain ⟨k, hreceive, hnext⟩ := hstep.frame hencrypt
    rw [Connection.send_ok hsent]
    exact ⟨_, hdecoded.append hreceive, hnext⟩

theorem Healthy.apply (h : Healthy r state) {call : SendCall} (hcall : call.Unhindered) :
    Healthy r (call.apply state) := by
  cases call with
  | sendToPeer payload answers => exact h.send hcall
  | broadcastMessage banned payload answers =>
    cases banned with
    | true => exact h
    | false => exact h.send (hcall.resolve_left Bool.false_ne_true)

/-- If the socket takes every frame in full, the peer decodes exactly the payloads whose
call succeeded, and would decode every later one. -/
theorem unhindered_sends_decode {s r : NoiseTransport} (h : Coupled s r)
    (calls : List SendCall) (hcalls : ∀ call ∈ calls, call.Unhindered) :
    ∃ r', Decoded r (SendCall.run s calls).1.wire (SendCall.run s calls).2 r' ∧
      ∀ payload frame s', (encryptFrame payload).run (SendCall.run s calls).1.transport =
          .ok frame s' →
        ∃ r'', (decryptFrame frame).run r' = .ok payload r'' := by
  have hrun : ∀ state, Healthy r state → Healthy r (calls.foldl SendCall.apply state) := by
    induction calls with
    | nil => exact fun state hstate => hstate
    | cons call calls ih =>
      intro state hstate
      exact ih (fun c hc => hcalls c (mem_cons_of_mem call hc)) _
        (hstate.apply (hcalls call mem_cons_self))
  obtain ⟨r', hdecoded, hstep⟩ := hrun (⟨s, []⟩, []) ⟨r, decoded_nil r, h.sender, fun _ => h⟩
  refine ⟨r', hdecoded, fun payload frame s' hsend => ?_⟩
  obtain ⟨k, hreceive, -⟩ := hstep.frame hsend
  exact ⟨_, hreceive⟩

theorem length_empty_frame : frameLength [] = 28 := by decide

theorem unhindered_sends_decode_one :
    ∃ r', Decoded sampleSession (SendCall.run sampleSession [.sendToPeer [] [.wrote 28]]).1.wire
      (SendCall.run sampleSession [.sendToPeer [] [.wrote 28]]).2 r' := by
  obtain ⟨r', hdecoded, -⟩ := unhindered_sends_decode coupled_sampleSession
    [.sendToPeer [] [.wrote 28]] (by
      intro call hcall
      rw [mem_singleton.mp hcall]
      exact .inr (by rw [length_empty_frame]; rfl))
  exact ⟨r', hdecoded⟩

variable {t : NoiseTransport}

/-- A frame under another counter than the next one is not accepted. -/
theorem decryptFrame_other_counter {t' : NoiseTransport} {aead : Aead} {n : UInt64}
    {ps : List (List UInt8)} (hlock : t.Lockstep) (hne : ps ≠ []) (hother : n ≠ t.recvNonce) :
    (decryptFrame (aead.frame n ps)).run t ≠ .ok msg t' := by
  intro h
  obtain ⟨-, h⟩ := decryptFrame_ok.mp h
  rw [drop_frame] at h
  obtain ⟨p, ps, rfl⟩ := exists_cons_of_ne_nil hne
  have hlen : (toBeBytes n).length = NOISE_NONCE_LEN := length_toBeBytes n
  have hcounter := decryptParts_counters hlock h 0
    (by rw [Nat.zero_mul]; exact length_pos_iff.mpr part_ne_nil)
  rw [Nat.zero_mul, drop_zero, Aead.parts, Aead.part, append_assoc,
    take_left' hlen, fromBeBytes64_toBeBytes] at hcounter
  exact hother (hcounter.trans (UInt64.add_zero _))

/-- Two empty payloads: the first one finds the buffer full, the second one succeeds. -/
def blockedOnce : List SendCall :=
  [.sendToPeer [] [.wouldBlock], .sendToPeer [] [.wrote 28]]

theorem encryptFrame_empty (hlock : t.Lockstep) (hleft : t.sendNonce.toNat + 1 < 2 ^ 64) :
    (encryptFrame []).run t = .ok (t.egress.aead.frame t.sendNonce (chunks [])) (t.sent 1) := by
  have hone : (chunks []).length = 1 := by
    rw [length_chunks]
    rfl
  rw [encryptFrame_ok hlock, hone]
  exact ⟨by decide, hleft, rfl, rfl⟩

theorem Connection.send_blocked (hlock : state.1.transport.Lockstep)
    (hleft : state.1.transport.sendNonce.toNat + 1 < 2 ^ 64) :
    Connection.send state [] [.wouldBlock] =
      (⟨state.1.transport.sent 1, state.1.wire⟩, state.2) := by
  have hblocked {frame : List UInt8} (hlen : frame.length = 28) :
      writeLoop frame [.wouldBlock] = ([], .error backpressure) := by
    cases frame with
    | nil => cases hlen
    | cons b bs => rfl
  have hsent := sendPayload_frame [.wouldBlock] (encryptFrame_empty hlock hleft)
  rw [hblocked (length_frame.trans length_empty_frame), append_nil] at hsent
  exact send_error hsent

theorem Connection.send_taken (hlock : state.1.transport.Lockstep)
    (hleft : state.1.transport.sendNonce.toNat + 1 < 2 ^ 64) :
    Connection.send state [] [.wrote 28] =
      (⟨state.1.transport.sent 1, state.1.wire ++ state.1.transport.egress.aead.frame
        state.1.transport.sendNonce (chunks [])⟩, state.2 ++ [[]]) := by
  have htaken {frame : List UInt8} (hlen : frame.length = 28) :
      writeLoop frame [.wrote 28] = (frame, .ok ()) := by
    refine writeLoop_takes ?_
    rw [hlen]
    rfl
  have hsent := sendPayload_frame [.wrote 28] (encryptFrame_empty hlock hleft)
  rw [htaken (length_frame.trans length_empty_frame)] at hsent
  exact send_ok hsent

theorem run_blockedOnce : SendCall.run sampleSession blockedOnce =
    (⟨(sampleSession.sent 1).sent 1, (sampleSession.sent 1).egress.aead.frame
      (sampleSession.sent 1).sendNonce (chunks [])⟩, [[]]) := by
  have hlock := coupled_sampleSession.sender
  rw [SendCall.run, blockedOnce, foldl_cons, foldl_cons, foldl_nil, SendCall.apply,
    SendCall.apply, Connection.send_blocked hlock (by decide),
    Connection.send_taken (hlock.sent 1) (by decide), nil_append, nil_append]

/-- The payload whose call succeeded is not decoded: its counter is ahead of the peer. -/
theorem backpressure_desynchronizes :
    (SendCall.run sampleSession blockedOnce).2 = [[]] ∧
      ∀ r', ¬ Decoded sampleSession (SendCall.run sampleSession blockedOnce).1.wire [[]] r' := by
  rw [run_blockedOnce]
  refine ⟨rfl, fun r' hdecoded => ?_⟩
  have hframed : Framed ((sampleSession.sent 1).egress.aead.frame (sampleSession.sent 1).sendNonce
      (chunks [])) := by
    refine framed_frame chunks_ne_nil ?_
    rw [length_parts_chunks]
    decide
  have hreceived := hdecoded.received
  rw [framesOf_single hframed, mapM_cons, run_seq_ok] at hreceived
  obtain ⟨msg, u, hframe, -⟩ := hreceived
  exact decryptFrame_other_counter coupled_sampleSession.receiver chunks_ne_nil (by decide) hframe

end Strangecoin
