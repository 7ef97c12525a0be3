import Strangecoin.NodeError
import Strangecoin.Operations
import Strangecoin.Readers

/-! # The encrypted transport

After the handshake each side of a session has a `snow` cipher state for either
direction, and counters of its own that it writes in front of every message.  A payload
is cut into chunks of at most `MAX_TRANSPORT_PAYLOAD` bytes, every chunk is encrypted
under the next counter, and the parts make up one frame behind a length prefix.

The AEAD is a parameter (`Aead`) of which only the length of a ciphertext is fixed.  Rekeying
and the pinned node id play no part in framing and are left out.
-/
namespace Strangecoin
open List

def MAX_NOISE_MSG_LEN : Nat := 65535
def NOISE_TAG_LEN : Nat := 16
def NOISE_NONCE_LEN : Nat := 8
def MAX_TRANSPORT_PAYLOAD : Nat := MAX_NOISE_MSG_LEN - NOISE_TAG_LEN
def MAX_ENCRYPTED_PART : Nat := NOISE_NONCE_LEN + MAX_NOISE_MSG_LEN
def ENCRYPTED_FRAME_OVERHEAD : Nat := NOISE_NONCE_LEN + NOISE_TAG_LEN
def MAX_MESSAGE_SIZE : Nat := 32 * 1024 * 1024

/-- The errors of the transport; `state`, `input` and `decrypt` are also what errors of
`snow` are mapped to. -/
inductive NoiseError where
  | state (message : String)
  | input (message : String)
  | decrypt
  | replay
deriving DecidableEq, Repr

/-- The text of an error. -/
def NoiseError.toString : NoiseError → String
  | .state message => "noise state problem: " ++ message
  | .input message => "noise invalid input: " ++ message
  | .decrypt => "noise decryption failed"
  | .replay => "nonce out of sequence"

/-- Authenticated encryption under one key, by counter. -/
structure Aead where
  /-- Encryption. -/
  enclose : UInt64 → List UInt8 → List UInt8
  /-- Decryption. -/
  disclose : UInt64 → List UInt8 → Option (List UInt8)
  length_enclose : ∀ n p, (enclose n p).length = p.length + NOISE_TAG_LEN
  length_disclose : ∀ n c p, disclose n c = some p → c.length = p.length + NOISE_TAG_LEN

/-- A cipher state of `snow`: a key and the counter of the next message. -/
structure CipherState where
  aead : Aead
  n : UInt64

structure NoiseTransport where
  egress : CipherState
  ingress : CipherState
  sendNonce : UInt64
  recvNonce : UInt64

/-- The last counter is reserved. -/
def lastNonce : UInt64 := 0xffffffffffffffff

namespace NoiseTransport

/-- After the handshake all counters are zero. -/
def new (egress ingress : Aead) : NoiseTransport := ⟨⟨egress, 0⟩, ⟨ingress, 0⟩, 0, 0⟩

/-- `snow`'s `write_message`: the counter advances with the message. -/
def writeMessage (payload : List UInt8) : EStateM NoiseError NoiseTransport (List UInt8) := do
  let self ← get
  check (guardWith (self.egress.n ≠ lastNonce) (.state "Exhausted"))
  modify fun self => { self with egress := { self.egress with n := self.egress.n + 1 } }
  return self.egress.aead.enclose self.egress.n payload

/-- `snow`'s `read_message`: the counter advances if the message is authentic. -/
def readMessage (message : List UInt8) : EStateM NoiseError NoiseTransport (List UInt8) := do
  let self ← get
  check (guardWith (self.ingress.n ≠ lastNonce) (.state "Exhausted"))
  let payload ← check (okOr (self.ingress.aead.disclose self.ingress.n message) .decrypt)
  modify fun self => { self with ingress := { self.ingress with n := self.ingress.n + 1 } }
  return payload

/-- One part: the counter, then the ciphertext.  `outLen` is the size of the buffer. -/
def encrypt (plaintext : List UInt8) (outLen : Nat) :
    EStateM NoiseError NoiseTransport (List UInt8) := do
  check (guardWith (plaintext.length ≤ MAX_TRANSPORT_PAYLOAD) (.input
    ("transport payload too large: " ++ toString plaintext.length ++ " > " ++
      toString MAX_TRANSPORT_PAYLOAD)))
  let need := NOISE_NONCE_LEN + plaintext.length + NOISE_TAG_LEN
  check (guardWith (need ≤ outLen) (.input
    ("transport buffer too small: need " ++ toString need ++ ", got " ++ toString outLen)))
  let self ← get
  let header := toBeBytes self.sendNonce
  let written ← writeMessage plaintext
  let next ← check (okOr (checkedAdd self.sendNonce 1) (.state "send nonce exhausted"))
  modify fun self => { self with sendNonce := next }
  return header ++ written

/-- The counter of a part has to be the next one; then the ciphertext has to be
authentic. -/
def decrypt (message : List UInt8) (outLen : Nat) :
    EStateM NoiseError NoiseTransport (List UInt8) := do
  check (guardWith (NOISE_NONCE_LEN + NOISE_TAG_LEN ≤ message.length) (.input
    ("transport message too short: " ++ toString message.length)))
  let self ← get
  check (guardWith (fromBeBytes64 (message.take NOISE_NONCE_LEN) = self.recvNonce) .replay)
  let ciphertext := message.drop NOISE_NONCE_LEN
  let need := ciphertext.length - NOISE_TAG_LEN
  check (guardWith (need ≤ outLen) (.input
    ("transport buffer too small: need " ++ toString need ++ ", got " ++ toString outLen)))
  let written ← readMessage ciphertext
  let next ← check (okOr (checkedAdd self.recvNonce 1) (.state "receive nonce exhausted"))
  modify fun self => { self with recvNonce := next }
  return written

end NoiseTransport

/-! ### Frames -/

def sizeErr (what : String) : NetError := .protocol ("size limit exceeded: " ++ what)

/-- `.map_err(|e| NetError::Transport(e.to_string()))`. -/
def onTransport {α : Type} (x : EStateM NoiseError NoiseTransport α) :
    EStateM NetError NoiseTransport α :=
  mapStop (fun e => .transport e.toString) x

/-- The loop of `encrypt_frame`: one part for every chunk, and one for an empty payload. -/
def encryptParts (msg : List UInt8) : EStateM NetError NoiseTransport (List UInt8) := do
  let part ← onTransport (NoiseTransport.encrypt (msg.take MAX_TRANSPORT_PAYLOAD) MAX_ENCRYPTED_PART)
  if msg.length ≤ MAX_TRANSPORT_PAYLOAD then return part
  else
    let parts ← encryptParts (msg.drop MAX_TRANSPORT_PAYLOAD)
    return part ++ parts
termination_by msg.length
decreasing_by
  rw [length_drop]
  have : 0 < MAX_TRANSPORT_PAYLOAD := by decide
  omega

/-- `div_ceil`. -/
def divCeil (n d : Nat) : Nat := if 0 < n % d then n / d + 1 else n / d

/-- `msg.len().div_ceil(MAX_TRANSPORT_PAYLOAD).max(1)`. -/
def partCount (length : Nat) : Nat := max (divCeil length MAX_TRANSPORT_PAYLOAD) 1

def encryptFrame (msg : List UInt8) : EStateM NetError NoiseTransport (List UInt8) := do
  let wireLen := 4 + msg.length + partCount msg.length * ENCRYPTED_FRAME_OVERHEAD
  check (guardWith (wireLen ≤ MAX_MESSAGE_SIZE) (sizeErr "encrypted message"))
  let parts ← encryptParts msg
  return toBeBytes32 (UInt32.ofNat parts.length) ++ parts

/-- The loop of `decrypt_frame`: parts of the maximal size, and a last one. -/
def decryptParts (blob : List UInt8) : EStateM NetError NoiseTransport (List UInt8) :=
  if blob = [] then return []
  else do
    let part := blob.take MAX_ENCRYPTED_PART
    check (guardWith (ENCRYPTED_FRAME_OVERHEAD ≤ part.length) (sizeErr "encrypted part"))
    let chunk ← onTransport (NoiseTransport.decrypt part (part.length - ENCRYPTED_FRAME_OVERHEAD))
    let rest ← decryptParts (blob.drop MAX_ENCRYPTED_PART)
    return chunk ++ rest
termination_by blob.length
decreasing_by
  rename_i hne
  have := length_pos_iff.mpr hne
  have : 0 < MAX_ENCRYPTED_PART := by decide
  rw [length_drop]
  omega

def decryptFrame (raw : List UInt8) : EStateM NetError NoiseTransport (List UInt8) := do
  check (guardWith (4 ≤ raw.length) (sizeErr "encrypted frame prefix"))
  let total := (fromBeBytes32 (raw.take 4)).toNat
  check (guardWith (total ≤ MAX_MESSAGE_SIZE) (sizeErr "encrypted frame"))
  check (guardWith (total = raw.length - 4) (sizeErr "encrypted frame length"))
  check (guardWith (ENCRYPTED_FRAME_OVERHEAD ≤ total) (sizeErr "encrypted frame"))
  decryptParts (raw.drop 4)

/-! ### Streams -/

/-- `read_length_prefixed` on the bytes of a stream, with the prefix that
`read_encrypted_frame` puts back: the frame and what follows it, or nothing while bytes are
missing. -/
def readFrame (stream : List UInt8) : Except NetError (Option (List UInt8 × List UInt8)) := do
  if stream.length < 4 then return none
  let len := (fromBeBytes32 (stream.take 4)).toNat
  guardWith (len ≤ MAX_MESSAGE_SIZE) (sizeErr "message")
  if stream.length < 4 + len then return none
  let body := (stream.drop 4).take len
  return some (toBeBytes32 (UInt32.ofNat body.length) ++ body, stream.drop (4 + len))

theorem readFrame_ok {stream raw rest : List UInt8} :
    readFrame stream = .ok (some (raw, rest)) ↔
      stream = raw ++ rest ∧ 4 ≤ raw.length ∧
      (fromBeBytes32 (raw.take 4)).toNat = raw.length - 4 ∧ raw.length - 4 ≤ MAX_MESSAGE_SIZE := by
  unfold readFrame
  constructor
  · intro h
    split at h
    · cases h
    rename_i hhead
    obtain ⟨_, hfits, h⟩ := bind_eq_ok.mp h
    rw [guardWith_eq_ok] at hfits
    split at h
    · cases h
    rename_i hbody
    obtain ⟨rfl, rfl⟩ := Prod.mk.inj (Option.some.inj (Except.ok.inj h))
    have hfour : (stream.take 4).length = 4 := by
      rw [length_take]
      omega
    have hlen : ((stream.drop 4).take (fromBeBytes32 (stream.take 4)).toNat).length =
        (fromBeBytes32 (stream.take 4)).toNat := by
      rw [length_take, length_drop]
      omega
    rw [hlen, UInt32.ofNat_toNat, toBeBytes32_fromBeBytes32 hfour, take_left' hfour,
      length_append, hfour, hlen]
    refine ⟨?_, by omega, by omega, by omega⟩
    rw [append_assoc, ← drop_drop, take_append_drop, take_append_drop]
  · rintro ⟨rfl, hhead, hexact, hfits⟩
    have htake : (raw ++ rest).take 4 = raw.take 4 := take_append_of_le_length hhead
    have hfour : (raw.take 4).length = 4 := by
      rw [length_take]
      omega
    have hbody : ((raw ++ rest).drop 4).take (raw.length - 4) = raw.drop 4 := by
      rw [drop_append_of_le_length hhead, take_left' (length_drop ..)]
    rw [if_neg (by rw [length_append]; omega), htake, hexact, bind_eq_ok]
    refine ⟨(), guardWith_eq_ok.mpr hfits, ?_⟩
    rw [if_neg (by rw [length_append]; omega), hbody]
    dsimp only
    rw [length_drop, ← hexact, UInt32.ofNat_toNat, toBeBytes32_fromBeBytes32 hfour, take_append_drop, hexact,
      Nat.add_sub_cancel' hhead, drop_left]
    rfl

/-- The frames of a stream, up to the first one that is incomplete or too long. -/
def framesOf (stream : List UInt8) : List (List UInt8) :=
  match _h : readFrame stream with
  | .ok (some (raw, rest)) => raw :: framesOf rest
  | _ => []
termination_by stream.length
decreasing_by
  obtain ⟨rfl, hhead, -⟩ := readFrame_ok.mp _h
  rw [length_append]
  omega

end Strangecoin
