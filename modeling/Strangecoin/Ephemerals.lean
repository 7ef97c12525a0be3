import Strangecoin.Readers
import Strangecoin.Serialize

/-! # Ephemeral keys of handshakes

A handshake takes its ephemeral key from the node's long-term seed and a counter that all
clones of the keypair share.  The counter lives in memory only and is rebuilt from zero at
every start, which is what makes a run reproducible.
-/
namespace Strangecoin
open List

/-- The primitives: HKDF-SHA256 expanded to 32 bytes, and keyed BLAKE3. -/
structure KeyDerivation where
  /-- Of the input key and the info. -/
  hkdf : List UInt8 → List UInt8 → List UInt8
  /-- Of the key and the message. -/
  keyedHash : List UInt8 → List UInt8 → List UInt8
  length_hkdf : ∀ ikm info, (hkdf ikm info).length = 32
  length_keyedHash : ∀ key message, (keyedHash key message).length = 32

def EPHEMERAL_INFO : List UInt8 := asBytes "noise_ephemeral_v1"

/-- `info = "noise_ephemeral_v1" || counter_be`. -/
def ephemeralInfo (counter : UInt64) : List UInt8 := EPHEMERAL_INFO ++ toBeBytes counter

def KeyDerivation.ephemeralSeed (kd : KeyDerivation) (longTermSeed : List UInt8)
    (counter : UInt64) : List UInt8 :=
  kd.hkdf longTermSeed (ephemeralInfo counter)

/-! ### The source of random bytes -/

/-- BLAKE3 in counter mode. -/
structure Blake3Random where
  seed : List UInt8
  blockIndex : UInt64
  block : List UInt8
  pos : Nat

namespace Blake3Random

/-- The first pull refills. -/
def new (seed : List UInt8) : Blake3Random := ⟨seed, 0, List.replicate 32 0, 32⟩

def refill (kd : KeyDerivation) (self : Blake3Random) : Blake3Random :=
  { self with
    block := kd.keyedHash self.seed (toBeBytes self.blockIndex)
    blockIndex := self.blockIndex + 1
    pos := 0 }

/-- One byte of `try_fill_bytes`. -/
def nextByte (kd : KeyDerivation) (self : Blake3Random) : UInt8 × Blake3Random :=
  let self := if self.pos = self.block.length then self.refill kd else self
  (self.block.getD self.pos 0, { self with pos := self.pos + 1 })

def tryFillBytes (kd : KeyDerivation) : Nat → Blake3Random → List UInt8 × Blake3Random
  | 0, self => ([], self)
  | n + 1, self =>
    let (byte, self) := self.nextByte kd
    let (bytes, self) := tryFillBytes kd n self
    (byte :: bytes, self)

/-- Within a block the bytes are those of the block. -/
theorem tryFillBytes_block (kd : KeyDerivation) {n : Nat} {self : Blake3Random}
    (h : self.pos + n ≤ self.block.length) :
    (tryFillBytes kd n self).1 = (self.block.drop self.pos).take n := by
  induction n generalizing self with
  | zero => rfl
  | succ n ih =>
    have hpos : self.pos < self.block.length := by omega
    have hnext : self.nextByte kd =
        (self.block.getD self.pos 0, { self with pos := self.pos + 1 }) := by
      rw [nextByte, if_neg (Nat.ne_of_lt hpos)]
    rw [tryFillBytes, hnext]
    dsimp only
    rw [ih (by dsimp only; omega), drop_eq_getElem_cons hpos, take_succ_cons]
    congr 1
    exact getD_eq_getElem _ _ hpos

/-- Behind the end of a block the next one is computed. -/
theorem tryFillBytes_refill (kd : KeyDerivation) (n : Nat) {self : Blake3Random}
    (h : self.pos = self.block.length) :
    tryFillBytes kd (n + 1) self = tryFillBytes kd (n + 1) (self.refill kd) := by
  have hfull : (self.refill kd).pos ≠ (self.refill kd).block.length := by
    rw [refill, kd.length_keyedHash]
    exact Nat.zero_ne_add_one 31
  have hnext : self.nextByte kd = (self.refill kd).nextByte kd := by
    rw [nextByte, if_pos h, nextByte, if_neg hfull]
  rw [tryFillBytes, hnext, tryFillBytes]

end Blake3Random

/-- The ephemeral private key that `snow` generates: 32 bytes of a new source. -/
def KeyDerivation.ephemeralKey (kd : KeyDerivation) (seed : List UInt8) : List UInt8 :=
  (Blake3Random.tryFillBytes kd 32 (.new seed)).1

theorem KeyDerivation.ephemeralKey_eq (kd : KeyDerivation) (seed : List UInt8) :
    kd.ephemeralKey seed = kd.keyedHash seed (toBeBytes 0) := by
  have hlen : (kd.keyedHash seed (toBeBytes 0)).length = 32 := kd.length_keyedHash ..
  rw [ephemeralKey, Blake3Random.tryFillBytes_refill kd 31 rfl, Blake3Random.tryFillBytes_block]
  · exact take_of_length_le (Nat.le_of_eq hlen)
  · exact Nat.le_of_eq hlen.symm

/-! ### The counter of a keypair -/

/-- What all clones of a keypair share. -/
structure NodeKeypairInner where
  seed : List UInt8
  handshakeCounter : UInt64

def NodeKeypairInner.fromSeed (seed : List UInt8) : NodeKeypairInner := ⟨seed, 0⟩

/-- `fetch_add` returns the counter before, and wraps. -/
def nextEphemeralSeed (kd : KeyDerivation) : StateM NodeKeypairInner (List UInt8) := do
  let self ← get
  set { self with handshakeCounter := self.handshakeCounter + 1 }
  return kd.ephemeralSeed self.seed self.handshakeCounter

/-- What a process does with one of its keypairs. -/
inductive KeyOp where
  | clone (handle : Nat)
  | handshake (handle : Nat)
deriving DecidableEq, Repr

/-- A running node: one keypair loaded from the keystore, and its clones. -/
structure NodeProcess where
  inner : NodeKeypairInner
  handles : Nat

namespace NodeProcess

/-- `from_keystore` at the start of the process. -/
def start (seed : List UInt8) : NodeProcess := ⟨.fromSeed seed, 1⟩

/-- A handshake draws a seed; a clone is one more handle to the same counter. -/
def step (kd : KeyDerivation) (self : NodeProcess) : KeyOp → NodeProcess × Option (List UInt8)
  | .clone handle =>
    (if handle < self.handles then { self with handles := self.handles + 1 } else self, none)
  | .handshake handle =>
    if handle < self.handles then
      let (seed, inner) := (nextEphemeralSeed kd).run self.inner
      ({ self with inner := inner }, some seed)
    else (self, none)

/-- The seeds that the handshakes of a process draw. -/
def draws (kd : KeyDerivation) (self : NodeProcess) : List KeyOp → List (List UInt8)
  | [] => []
  | op :: ops => (self.step kd op).2.toList ++ draws kd (self.step kd op).1 ops

/-- They are those of the next counters, whichever clones are used. -/
theorem draws_eq (kd : KeyDerivation) (self : NodeProcess) (ops : List KeyOp) :
    ∃ n, self.draws kd ops = (List.range n).map fun i =>
      kd.ephemeralSeed self.inner.seed (self.inner.handshakeCounter + UInt64.ofNat i) := by
  induction ops generalizing self with
  | nil => exact ⟨0, rfl⟩
  | cons op ops ih =>
    cases op with
    | clone handle =>
      obtain ⟨n, hn⟩ := ih (self.step kd (.clone handle)).1
      refine ⟨n, ?_⟩
      rw [draws, hn, step]
      split <;> rfl
    | handshake handle =>
      obtain ⟨n, hn⟩ := ih (self.step kd (.handshake handle)).1
      by_cases hhandle : handle < self.handles
      · refine ⟨n + 1, ?_⟩
        rw [draws, hn, step, if_pos hhandle, range_succ_eq_map, map_cons, map_map]
        refine cons_eq_cons.mpr ⟨?_, ?_⟩
        · exact congrArg _ (UInt64.add_zero _).symm
        · refine map_congr_left fun i _ => congrArg _ ?_
          change self.inner.handshakeCounter + 1 + UInt64.ofNat i = _
          rw [UInt64.add_assoc, show (1 : UInt64) = UInt64.ofNat 1 from rfl, ← UInt64.ofNat_add,
            Nat.add_comm]
      · refine ⟨n, ?_⟩
        rw [draws, hn, step, if_neg hhandle]
        rfl

end NodeProcess

/-- The seeds drawn in one run of the node. -/
def drawnInRun (kd : KeyDerivation) (seed : List UInt8) (ops : List KeyOp) : List (List UInt8) :=
  (NodeProcess.start seed).draws kd ops

/-- HKDF is injective in infos of the length in use. -/
def KeyDerivation.InjectiveInInfo (kd : KeyDerivation) : Prop :=
  ∀ ikm, Set.InjOn (kd.hkdf ikm) {info | info.length = 26}

/-- Keyed BLAKE3 is injective in its key. -/
def KeyDerivation.InjectiveInKey (kd : KeyDerivation) : Prop :=
  ∀ message, Set.InjOn (fun key => kd.keyedHash key message) {key | key.length = 32}

section

variable {kd : KeyDerivation} {seed a b : List UInt8} {ops ops' : List KeyOp} {i j : Nat}

theorem length_ephemeralInfo (counter : UInt64) : (ephemeralInfo counter).length = 26 := by
  rw [ephemeralInfo, length_append, length_toBeBytes]
  decide

theorem ephemeralSeed_inj (h : kd.InjectiveInInfo) {c c' : UInt64} :
    kd.ephemeralSeed seed c = kd.ephemeralSeed seed c' ↔ c = c' := by
  refine ⟨fun hsame => ?_, fun hsame => congrArg _ hsame⟩
  have hinfo := h seed (length_ephemeralInfo c) (length_ephemeralInfo c') hsame
  have hbytes := congrArg fromBeBytes64 (append_cancel_left hinfo)
  rwa [fromBeBytes64_toBeBytes, fromBeBytes64_toBeBytes] at hbytes

theorem getElem?_drawnInRun (h : (drawnInRun kd seed ops)[i]? = some a) :
    a = kd.ephemeralSeed seed (UInt64.ofNat i) := by
  obtain ⟨n, hn⟩ := (NodeProcess.start seed).draws_eq kd ops
  rw [drawnInRun, hn, getElem?_map] at h
  obtain ⟨k, hk, rfl⟩ := Option.map_eq_some_iff.mp h
  obtain ⟨hlt, rfl⟩ := List.getElem?_eq_some_iff.mp hk
  rw [getElem_range]
  exact congrArg _ (UInt64.zero_add _)

/-- Two draws, of one run or of two, agree exactly if their counters do. -/
theorem draws_agree_iff (h : kd.InjectiveInInfo) (ha : (drawnInRun kd seed ops)[i]? = some a)
    (hb : (drawnInRun kd seed ops')[j]? = some b) : a = b ↔ i % 2 ^ 64 = j % 2 ^ 64 := by
  rw [getElem?_drawnInRun ha, getElem?_drawnInRun hb, ephemeralSeed_inj h, ← UInt64.toNat_inj,
    UInt64.toNat_ofNat', UInt64.toNat_ofNat']

theorem length_drawn (ha : a ∈ drawnInRun kd seed ops) : a.length = 32 := by
  obtain ⟨i, hi⟩ := mem_iff_getElem?.mp ha
  rw [getElem?_drawnInRun hi]
  exact kd.length_hkdf ..

theorem ephemeralKey_inj (h : kd.InjectiveInKey) (ha : a.length = 32) (hb : b.length = 32) :
    kd.ephemeralKey a = kd.ephemeralKey b ↔ a = b := by
  rw [kd.ephemeralKey_eq, kd.ephemeralKey_eq]
  exact ⟨fun hsame => h _ ha hb hsame, fun hsame => by rw [hsame]⟩

/-- The seeds of one run are pairwise different. -/
theorem nodup_drawnInRun (h : kd.InjectiveInInfo)
    (hfew : (drawnInRun kd seed ops).length ≤ 2 ^ 64) : (drawnInRun kd seed ops).Nodup := by
  rw [nodup_iff_pairwise_ne, pairwise_iff_getElem]
  intro i j hi hj hlt hsame
  have hmod := (draws_agree_iff h (getElem?_eq_getElem hi) (getElem?_eq_getElem hj)).mp
    hsame
  omega

/-- Within one run of fewer than `2 ^ 64` handshakes no two draw the same seed, whichever
clones they use.  Two handshakes of any runs draw the same seed exactly if they have the
same index, and then, with a peer that replays its key, the same set of ephemeral keys. -/
theorem ephemerals_fresh_within_run (hinfo : kd.InjectiveInInfo) (hkey : kd.InjectiveInKey)
    (seed : List UInt8) :
    (∀ ops, (drawnInRun kd seed ops).length ≤ 2 ^ 64 → (drawnInRun kd seed ops).Nodup) ∧
    ∀ ops ops' i j a b, (drawnInRun kd seed ops)[i]? = some a →
      (drawnInRun kd seed ops')[j]? = some b →
      (a = b ↔ i % 2 ^ 64 = j % 2 ^ 64) ∧
      ∀ peer peer' : List UInt8, (kd.ephemeralKey a, peer) = (kd.ephemeralKey b, peer') ↔
        i % 2 ^ 64 = j % 2 ^ 64 ∧ peer = peer' := by
  refine ⟨fun ops hfew => nodup_drawnInRun hinfo hfew, fun ops ops' i j a b ha hb => ?_⟩
  have hagree := draws_agree_iff hinfo ha hb
  refine ⟨hagree, fun peer peer' => ?_⟩
  rw [Prod.mk.injEq, ephemeralKey_inj hkey (length_drawn (mem_of_getElem? ha))
    (length_drawn (mem_of_getElem? hb)), hagree]

end

/-- A derivation that is injective by construction. -/
def plainDerivation : KeyDerivation where
  hkdf _ info := (info ++ List.replicate 32 0).take 32
  keyedHash key _ := (key ++ List.replicate 32 0).take 32
  length_hkdf ikm info := by simp
  length_keyedHash key message := by simp

theorem padded_inj {n : Nat} {x y z : List UInt8} (hx : x.length = n) (hy : y.length = n)
    (hn : n ≤ 32) (h : (x ++ z).take 32 = (y ++ z).take 32) : x = y := by
  have hstart := congrArg (List.take n) h
  rwa [take_take, take_take, Nat.min_eq_left hn, take_left' hx,
    take_left' hy] at hstart

theorem plainDerivation_injective :
    plainDerivation.InjectiveInInfo ∧ plainDerivation.InjectiveInKey :=
  ⟨fun _ _ hx _ hy h => padded_inj hx hy (by decide) h,
    fun _ _ hx _ hy h => padded_inj hx hy (by decide) h⟩

theorem two_clones_draw_fresh :
    (drawnInRun plainDerivation [] [.handshake 0, .clone 0, .handshake 1]).length = 2 ∧
      (drawnInRun plainDerivation [] [.handshake 0, .clone 0, .handshake 1]).Nodup :=
  ⟨rfl, (ephemerals_fresh_within_run plainDerivation_injective.1 plainDerivation_injective.2 []).1
    _ (by decide)⟩

/-- Two runs of one handshake each draw the same seed. -/
theorem restart_reuses_ephemeral :
    plainDerivation.InjectiveInInfo ∧
      ¬ ([[.handshake 0], [.handshake 0]].flatMap (drawnInRun plainDerivation [])).Nodup := by
  refine ⟨plainDerivation_injective.1, fun hnodup => ?_⟩
  have hdraw : drawnInRun plainDerivation [] [.handshake 0] =
      [plainDerivation.ephemeralSeed [] 0] := rfl
  rw [flatMap_cons, flatMap_singleton, hdraw] at hnodup
  exact absurd mem_cons_self (nodup_cons.mp hnodup).1

end Strangecoin
