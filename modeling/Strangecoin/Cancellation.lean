import Strangecoin.Backpressure

/-! # The read loop and its ticks

`run_connection` selects between two timers and the next frame.  When a timer wins, the
read future is dropped with the bytes it has consumed, and the next one starts at the byte
behind them.
-/
namespace Strangecoin
open List

inductive LoopStatus where
  | running
  /-- `dispatch_frame` closed the session. -/
  | closed
  /-- Reading or decrypting a frame failed. -/
  | failed (e : NetError)
deriving DecidableEq

structure ReadLoop where
  /-- Bytes that have arrived and are not yet read. -/
  socket : List UInt8
  /-- Bytes the current read has consumed. -/
  pending : List UInt8
  transport : NoiseTransport
  dispatched : List (List UInt8)
  status : LoopStatus

inductive LoopEvent where
  | arrive (bytes : List UInt8)
  /-- The read is polled; `keeps` is the verdict of `dispatch_frame` if it gets a frame. -/
  | poll (keeps : Bool)
  | shutdownTick
  | reconcileTick
deriving DecidableEq, Repr

namespace ReadLoop

def new (t : NoiseTransport) : ReadLoop := ⟨[], [], t, [], .running⟩

/-- `read_encrypted_frame` runs until it has to wait or has a frame. -/
def poll (self : ReadLoop) (keeps : Bool) : ReadLoop :=
  match readFrame (self.pending ++ self.socket) with
  | .error e => { self with status := .failed e }
  | .ok none => { self with pending := self.pending ++ self.socket, socket := [] }
  | .ok (some (raw, rest)) =>
    match (decryptFrame raw).run self.transport with
    | .error e t => { self with transport := t, status := .failed e }
    | .ok payload t =>
      { socket := rest, pending := [], transport := t, dispatched := self.dispatched ++ [payload]
        status := if keeps then .running else .closed }

def step (self : ReadLoop) (event : LoopEvent) : ReadLoop :=
  if self.status = .running then
    match event with
    | .arrive bytes => { self with socket := self.socket ++ bytes }
    | .poll keeps => self.poll keeps
    -- the future is dropped, and what it has consumed with it
    | .shutdownTick => { self with pending := [] }
    | .reconcileTick => { self with pending := [] }
  else self

def run (t : NoiseTransport) (events : List LoopEvent) : ReadLoop := events.foldl step (new t)

end ReadLoop

namespace LoopEvent

/-- The bytes that arrive. -/
def bytes : LoopEvent → List UInt8
  | arrive bytes => bytes
  | _ => []

/-- Whenever a timer wins, the bytes that had arrived when the read was last polled are
whole frames. -/
def TicksAtBoundaries (arrived polled : List UInt8) : List LoopEvent → Prop
  | [] => True
  | arrive bytes :: events => TicksAtBoundaries (arrived ++ bytes) polled events
  | poll _ :: events => TicksAtBoundaries arrived arrived events
  | shutdownTick :: events =>
    (framesOf polled).flatten = polled ∧ TicksAtBoundaries arrived polled events
  | reconcileTick :: events =>
    (framesOf polled).flatten = polled ∧ TicksAtBoundaries arrived polled events

end LoopEvent

/-! ### Reading a part of a stream -/

variable {stream : List UInt8}

theorem readFrame_some_append {raw rest : List UInt8}
    (h : readFrame stream = .ok (some (raw, rest))) (more : List UInt8) :
    readFrame (stream ++ more) = .ok (some (raw, rest ++ more)) := by
  obtain ⟨rfl, hshape⟩ := readFrame_ok.mp h
  exact readFrame_ok.mpr ⟨append_assoc .., hshape⟩

theorem readFrame_error {e : NetError} :
    readFrame stream = .error e ↔ 4 ≤ stream.length ∧
      MAX_MESSAGE_SIZE < (fromBeBytes32 (stream.take 4)).toNat ∧ e = sizeErr "message" := by
  unfold readFrame
  constructor
  · intro h
    split at h
    · cases h
    rename_i hhead
    rcases bind_eq_error.mp h with h | ⟨_, -, h⟩
    · obtain ⟨hlong, rfl⟩ := guardWith_eq_error.mp h
      exact ⟨Nat.le_of_not_lt hhead, Nat.lt_of_not_le hlong, rfl⟩
    · split at h <;> cases h
  · rintro ⟨hhead, hlong, rfl⟩
    rw [if_neg (Nat.not_lt_of_le hhead)]
    exact bind_eq_error.mpr (.inl (guardWith_eq_error.mpr ⟨Nat.not_le_of_lt hlong, rfl⟩))

theorem readFrame_error_append {e : NetError} (h : readFrame stream = .error e) (more : List UInt8) :
    readFrame (stream ++ more) = .error e := by
  obtain ⟨hhead, hlong, rfl⟩ := readFrame_error.mp h
  refine readFrame_error.mpr ⟨?_, ?_, rfl⟩
  · rw [length_append]
    exact Nat.le_add_right_of_le hhead
  · rwa [take_append_of_le_length hhead]

theorem framesOf_none (h : readFrame stream = .ok none) : framesOf stream = [] := by
  rw [framesOf]
  split
  · rename_i raw rest hread
    rw [h] at hread
    cases hread
  · rfl

variable {frames : List (List UInt8)}

theorem framesOf_flatten (h : ∀ raw ∈ frames, Framed raw) (rest : List UInt8) :
    framesOf (frames.flatten ++ rest) = frames ++ framesOf rest := by
  induction frames with
  | nil => rfl
  | cons raw frames ih =>
    rw [flatten_cons, append_assoc, framesOf_framed (h raw mem_cons_self),
      ih fun raw hraw => h raw (mem_cons_of_mem _ hraw), cons_append]

/-- What is read from the start of a stream of frames is the first one. -/
theorem readFrame_initial {bytes : List UInt8} (hframed : ∀ raw ∈ frames, Framed raw)
    (h : bytes <+: frames.flatten) :
    readFrame bytes = .ok none ∨
      ∃ frame rest, frames.head? = some frame ∧ bytes = frame ++ rest ∧
        readFrame bytes = .ok (some (frame, rest)) := by
  obtain ⟨more, hmore⟩ := h
  cases frames with
  | nil =>
    have hnil : bytes = [] := (append_eq_nil_iff.mp hmore).1
    rw [hnil]
    exact .inl rfl
  | cons frame frames =>
    have hfirst := hframed frame mem_cons_self
    have hread : readFrame (bytes ++ more) = .ok (some (frame, frames.flatten)) := by
      rw [hmore]
      refine readFrame_ok.mpr ⟨rfl, hfirst.headed, hfirst.exact, ?_⟩
      rw [← hfirst.exact]
      exact hfirst.fits
    cases hbytes : readFrame bytes with
    | error e =>
      rw [readFrame_error_append hbytes] at hread
      cases hread
    | ok result =>
      cases result with
      | none => exact .inl rfl
      | some pair =>
        obtain ⟨raw, rest⟩ := pair
        rw [readFrame_some_append hbytes] at hread
        obtain ⟨rfl, -⟩ := Prod.mk.inj (Option.some.inj (Except.ok.inj hread))
        exact .inr ⟨raw, rest, rfl, (readFrame_ok.mp hbytes).1, rfl⟩

theorem framed_of_received {payloads : List (List UInt8)} {r r' : NoiseTransport}
    (h : (frames.mapM decryptFrame).run r = .ok payloads r') : ∀ raw ∈ frames, Framed raw := by
  induction frames generalizing r payloads r' with
  | nil => exact fun raw hraw => nomatch hraw
  | cons frame frames ih =>
    rw [mapM_cons, run_seq_ok] at h
    obtain ⟨payload, u, hfirst, h⟩ := h
    obtain ⟨_, _, hrest, -⟩ := run_seq_ok.mp h
    intro raw hraw
    rcases mem_cons.mp hraw with rfl | hraw
    · exact (decryptFrame_ok.mp hfirst).1
    · exact ih hrest raw hraw

/-! ### Runs -/

/-- The loop has handed over the first `k` payloads, and nothing is lost. -/
structure Tracks (frames payloads : List (List UInt8)) (arrived polled : List UInt8) (k : Nat)
    (loop : ReadLoop) : Prop where
  running : loop.status = .running
  stream : arrived = (frames.take k).flatten ++ (loop.pending ++ loop.socket)
  dispatched : loop.dispatched = payloads.take k
  ahead : ∃ r', ((frames.drop k).mapM decryptFrame).run loop.transport = .ok (payloads.drop k) r'
  waiting : loop.pending = [] ∨
    framesOf loop.pending = [] ∧ polled = (frames.take k).flatten ++ loop.pending

/-- The payloads are those sent, in order, and no error ended the loop. -/
def Safe (payloads : List (List UInt8)) (loop : ReadLoop) : Prop :=
  loop.dispatched <+: payloads ∧ ∀ e, loop.status ≠ .failed e

section

variable {frames payloads : List (List UInt8)} {arrived polled : List UInt8} {k : Nat}
  {loop : ReadLoop}

section
variable (h : Tracks frames payloads arrived polled k loop)
include h

theorem Tracks.safe : Safe payloads loop := by
  refine ⟨?_, fun e => ?_⟩
  · rw [h.dispatched]
    exact take_prefix ..
  · rw [h.running]
    exact LoopStatus.noConfusion

/-- With whole frames at the last poll nothing is pending. -/
theorem Tracks.pending_nil
    (hframed : ∀ raw ∈ frames, Framed raw) (hwhole : (framesOf polled).flatten = polled) :
    loop.pending = [] := by
  rcases h.waiting with hnil | ⟨hpart, hpolled⟩
  · exact hnil
  · rw [hpolled, framesOf_flatten fun raw hraw => hframed raw (mem_of_mem_take hraw), hpart,
      append_nil] at hwhole
    exact (append_right_eq_self.mp hwhole.symm)

theorem Tracks.poll
    (hframed : ∀ raw ∈ frames, Framed raw) (hinit : arrived <+: frames.flatten) (keeps : Bool) :
    (∃ k, Tracks frames payloads arrived arrived k (loop.poll keeps)) ∨
      Safe payloads (loop.poll keeps) ∧ (loop.poll keeps).status ≠ .running := by
  have hbytes : loop.pending ++ loop.socket <+: (frames.drop k).flatten := by
    rw [h.stream, ← take_append_drop k frames, flatten_append,
      take_append_drop] at hinit
    exact (prefix_append_right_inj _).mp hinit
  rcases readFrame_initial (fun raw hraw => hframed raw (mem_of_mem_drop hraw)) hbytes with
    hnone | ⟨frame, rest, hhead, hsplit, hread⟩
  · have hpoll : loop.poll keeps =
        { loop with pending := loop.pending ++ loop.socket, socket := [] } := by
      rw [ReadLoop.poll, hnone]
    rw [hpoll]
    refine .inl ⟨k, h.running, ?_, h.dispatched, h.ahead, .inr ⟨framesOf_none hnone, h.stream⟩⟩
    rw [append_nil]
    exact h.stream
  · obtain ⟨frames', hframes⟩ := head?_eq_some_iff.mp hhead
    have hnext : frames.drop (k + 1) = frames' := by
      rw [← drop_drop, hframes]
      rfl
    obtain ⟨r', hahead⟩ := h.ahead
    rw [hframes, mapM_cons, run_seq_ok] at hahead
    obtain ⟨payload, t, hreceive, hahead⟩ := hahead
    obtain ⟨payloads', u, hrest, hret⟩ := run_seq_ok.mp hahead
    obtain ⟨hpayloads, rfl⟩ := EStateM.Result.ok.inj hret
    have hdispatched : loop.dispatched ++ [payload] = payloads.take (k + 1) := by
      rw [h.dispatched, take_add, ← hpayloads]
      rfl
    have hpoll : loop.poll keeps =
        { socket := rest, pending := [], transport := t
          dispatched := loop.dispatched ++ [payload]
          status := if keeps then .running else .closed } := by
      rw [ReadLoop.poll, hread]
      dsimp only
      rw [hreceive]
    rw [hpoll]
    cases keeps with
    | true =>
      refine .inl ⟨k + 1, rfl, ?_, hdispatched, ⟨u, ?_⟩, .inl rfl⟩
      · rw [h.stream, hsplit, take_add, hframes]
        simp
      · rw [hnext, ← drop_drop, ← hpayloads]
        exact hrest
    | false =>
      refine .inr ⟨⟨?_, fun e => LoopStatus.noConfusion⟩, LoopStatus.noConfusion⟩
      rw [hdispatched]
      exact take_prefix ..

end

theorem step_of_ended (hended : loop.status ≠ .running) (events : List LoopEvent) :
    events.foldl ReadLoop.step loop = loop := by
  induction events with
  | nil => rfl
  | cons event events ih => rw [foldl_cons, ReadLoop.step.eq_def, if_neg hended, ih]

theorem Tracks.run (hframed : ∀ raw ∈ frames, Framed raw) {events : List LoopEvent}
    (h : Tracks frames payloads arrived polled k loop)
    (harrive : arrived ++ events.flatMap LoopEvent.bytes <+: frames.flatten)
    (hticks : LoopEvent.TicksAtBoundaries arrived polled events) :
    Safe payloads (events.foldl ReadLoop.step loop) := by
  induction events generalizing arrived polled k loop with
  | nil => exact h.safe
  | cons event events ih =>
    have hrunning := h.running
    rw [foldl_cons, ReadLoop.step.eq_def, if_pos hrunning]
    rw [flatMap_cons] at harrive
    have htick (hwhole : (framesOf polled).flatten = polled) :
        Tracks frames payloads arrived polled k { loop with pending := [] } := by
      have hnil := h.pending_nil hframed hwhole
      rw [← hnil]
      exact h
    cases event with
    | arrive bytes =>
      rw [← append_assoc] at harrive
      refine ih ⟨hrunning, ?_, h.dispatched, h.ahead, h.waiting⟩ harrive hticks
      rw [h.stream]
      simp only [LoopEvent.bytes, append_assoc]
    | poll keeps =>
      rcases h.poll hframed ((prefix_append ..).trans harrive) keeps with
        ⟨k, hnext⟩ | ⟨hsafe, hended⟩
      · exact ih hnext harrive hticks
      · dsimp only
        rw [step_of_ended hended]
        exact hsafe
    | shutdownTick => exact ih (htick hticks.1) harrive hticks.2
    | reconcileTick => exact ih (htick hticks.1) harrive hticks.2

end

/-- If the reader has seen whole frames whenever a timer wins, the payloads handed over are
those the peer sent, in order, and no framing or decryption error ends the loop. -/
theorem ticks_at_boundaries_safe {s s' r : NoiseTransport} {payloads frames : List (List UInt8)}
    (h : Coupled s r) (hsend : (payloads.mapM encryptFrame).run s = .ok frames s')
    (events : List LoopEvent) (harrive : events.flatMap LoopEvent.bytes <+: frames.flatten)
    (hticks : LoopEvent.TicksAtBoundaries [] [] events) :
    (ReadLoop.run r events).dispatched <+: payloads ∧
      ∀ e, (ReadLoop.run r events).status ≠ .failed e := by
  obtain ⟨k, hreceive, -⟩ := h.frames hsend
  exact Tracks.run (framed_of_received hreceive) (k := 0) ⟨rfl, rfl, rfl, ⟨_, hreceive⟩, .inl rfl⟩ harrive hticks

/-- The bytes of an empty payload under counter 0 of `counterTag`. -/
def emptyFrame : List UInt8 := [0, 0, 0, 24] ++ List.replicate 24 0

theorem send_emptyFrame : ([[]].mapM encryptFrame).run sampleSession =
    .ok [emptyFrame] (sampleSession.sent 1) := by
  have hchunks : chunks [] = [[]] := by
    rw [chunks]
    rfl
  have hframe : counterTag.frame 0 (chunks []) = emptyFrame := by
    rw [hchunks]
    decide
  have hsend := encryptFrame_empty coupled_sampleSession.sender (by decide)
  rw [mapM_cons, run_seq_ok]
  refine ⟨_, _, hsend, run_seq_ok.mpr ⟨[], _, by rw [mapM_nil]; rfl, ?_⟩⟩
  change EStateM.Result.ok [counterTag.frame 0 (chunks [])] _ = _
  rw [hframe]

/-- The frame arrives in two pieces, without a timer between them. -/
theorem ticks_at_boundaries_safe_pieces :
    (ReadLoop.run sampleSession [.arrive (emptyFrame.take 4), .poll true,
      .arrive (emptyFrame.drop 4), .poll true, .shutdownTick]).dispatched <+: [[]] := by
  refine (ticks_at_boundaries_safe coupled_sampleSession send_emptyFrame _ ?_ ?_).1
  · exact ⟨[], by decide⟩
  · have hframed : Framed emptyFrame := ⟨by decide, by decide, by decide, by decide⟩
    have hwhole : (framesOf emptyFrame).flatten = emptyFrame := by
      rw [framesOf_single hframed, flatten_singleton]
    exact ⟨hwhole, trivial⟩

/-- The length prefix arrives, a timer wins, and the rest arrives. -/
def tickInsideFrame : List LoopEvent :=
  [.arrive (emptyFrame.take 4), .poll true, .shutdownTick, .arrive (emptyFrame.drop 4), .poll true]

/-- The reader takes the first bytes of the counter for a length and ends the session. -/
theorem tick_inside_frame_fails :
    ([[]].mapM encryptFrame).run sampleSession = .ok [emptyFrame] (sampleSession.sent 1) ∧
      tickInsideFrame.flatMap LoopEvent.bytes = [emptyFrame].flatten ∧
      (ReadLoop.run sampleSession tickInsideFrame).status =
        .failed (sizeErr "encrypted frame") :=
  ⟨send_emptyFrame, by decide, by decide⟩

end Strangecoin
