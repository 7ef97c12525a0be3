import Strangecoin.Bytes

/-! # BLAKE3

The unkeyed hash with a 32-byte output, as its specification computes it: blocks
of 64 bytes are compressed into a chaining value, chunks of 1024 bytes are the
leaves of a binary tree, and the last compression carries the root flag.

It is here so that statements made for an arbitrary hash can be read at the real one; short
inputs may be evaluated another way (`evalBlake3_eq`).
-/
namespace Strangecoin
open List
namespace Blake3

def IV : List UInt32 :=
  [0x6A09E667, 0xBB67AE85, 0x3C6EF372, 0xA54FF53A, 0x510E527F, 0x9B05688C, 0x1F83D9AB, 0x5BE0CD19]

def MSG_PERMUTATION : List Nat := [2, 6, 3, 10, 7, 0, 4, 13, 1, 11, 12, 5, 9, 14, 15, 8]

def CHUNK_START : UInt32 := 1
def CHUNK_END : UInt32 := 2
def PARENT : UInt32 := 4
def ROOT : UInt32 := 8

def rotateRight (x : UInt32) (n : UInt32) : UInt32 := (x >>> n) ||| (x <<< (32 - n))

/-- The mixing function on four words of the state. -/
def g (state : List UInt32) (a b c d : Nat) (x y : UInt32) : List UInt32 :=
  let va := state.getD a 0 + state.getD b 0 + x
  let vd := rotateRight (state.getD d 0 ^^^ va) 16
  let vc := state.getD c 0 + vd
  let vb := rotateRight (state.getD b 0 ^^^ vc) 12
  let va := va + vb + y
  let vd := rotateRight (vd ^^^ va) 8
  let vc := vc + vd
  let vb := rotateRight (vb ^^^ vc) 7
  (((state.set a va).set b vb).set c vc).set d vd

/-- Columns, then diagonals. -/
def round (state : List UInt32) (m : List UInt32) : List UInt32 :=
  let s := g state 0 4 8 12 (m.getD 0 0) (m.getD 1 0)
  let s := g s 1 5 9 13 (m.getD 2 0) (m.getD 3 0)
  let s := g s 2 6 10 14 (m.getD 4 0) (m.getD 5 0)
  let s := g s 3 7 11 15 (m.getD 6 0) (m.getD 7 0)
  let s := g s 0 5 10 15 (m.getD 8 0) (m.getD 9 0)
  let s := g s 1 6 11 12 (m.getD 10 0) (m.getD 11 0)
  let s := g s 2 7 8 13 (m.getD 12 0) (m.getD 13 0)
  g s 3 4 9 14 (m.getD 14 0) (m.getD 15 0)

def rounds : Nat → List UInt32 → List UInt32 → List UInt32
  | 0, state, _ => state
  | n + 1, state, m => rounds n (round state m) (MSG_PERMUTATION.map (fun i => m.getD i 0))

/-- The chaining value after one block. -/
def compress (cv block : List UInt32) (counter : Nat) (len flags : UInt32) : List UInt32 :=
  let state := rounds 7 (cv ++ IV.take 4 ++
    [UInt32.ofNat counter, UInt32.ofNat (counter / 2 ^ 32), len, flags]) block
  List.zipWith (· ^^^ ·) (state.take 8) (state.drop 8)

/-- Little-endian words of a block, padded with zeros. -/
def words (bytes : List UInt8) : List UInt32 :=
  (List.range 16).map fun i => (List.range 4).foldr
    (fun j acc => acc * 256 + (bytes.getD (4 * i + j) 0).toUInt32) 0

/-- The blocks of a chunk, from the chaining value so far. -/
def chunkBlocks (counter : Nat) (root : UInt32) :
    Nat → UInt32 → List UInt32 → List UInt8 → List UInt32
  | 0, _, cv, _ => cv
  | fuel + 1, start, cv, bytes =>
    if bytes.length ≤ 64 then
      compress cv (words bytes) counter (UInt32.ofNat bytes.length) (start ||| CHUNK_END ||| root)
    else
      chunkBlocks counter root fuel 0 (compress cv (words (bytes.take 64)) counter 64 start)
        (bytes.drop 64)

/-- The chaining value of the subtree over the bytes. -/
def subtree : Nat → List UInt8 → Nat → UInt32 → List UInt32
  | 0, _, _, _ => IV
  | fuel + 1, bytes, counter, root =>
    if bytes.length ≤ 1024 then chunkBlocks counter root 16 CHUNK_START IV bytes
    else
      let left := 1024 * 2 ^ Nat.log2 ((bytes.length - 1) / 1024)
      compress IV
        (subtree fuel (bytes.take left) counter 0 ++
          subtree fuel (bytes.drop left) (counter + left / 1024) 0)
        0 64 (PARENT ||| root)

/-! ### Evaluation

Lists of words are slow to evaluate in the kernel, numbers are not.  Concrete runs are evaluated
with the same compression on records of numbers. -/

def rotate (x n : Nat) : Nat := (x % 2 ^ 32) >>> n ||| x <<< (32 - n)

theorem ofNat_rotate (x : Nat) {n : Nat} (hpos : 0 < n) (hlt : n < 32) :
    UInt32.ofNat (rotate x n) = rotateRight (.ofNat x) (.ofNat n) := by
  have hright : UInt32.ofNat ((x % 2 ^ 32) >>> n) = .ofNat x >>> .ofNat n := by
    apply UInt32.toNat_inj.mp
    have hle : (x % 2 ^ 32) >>> n < 2 ^ 32 :=
      lt_of_le_of_lt (Nat.shiftRight_le _ _) (Nat.mod_lt _ (by decide))
    rw [UInt32.toNat_shiftRight, UInt32.toNat_ofNat', UInt32.toNat_ofNat', UInt32.toNat_ofNat',
      Nat.mod_eq_of_lt hle, Nat.mod_eq_of_lt (show n < 2 ^ 32 by omega), Nat.mod_eq_of_lt hlt]
  unfold rotate rotateRight
  rw [UInt32.ofNat_or, hright, UInt32.ofNat_shiftLeft _ _ (by omega),
    UInt32.ofNat_sub (Nat.le_of_lt hlt)]
  rfl

/-- The words of a block or of a state, each up to multiples of `2 ^ 32`. -/
structure Words where
  (w0 w1 w2 w3 w4 w5 w6 w7 w8 w9 w10 w11 w12 w13 w14 w15 : Nat)

def Words.toList : Words → List UInt32
  | ⟨w0, w1, w2, w3, w4, w5, w6, w7, w8, w9, w10, w11, w12, w13, w14, w15⟩ =>
    [w0, w1, w2, w3, w4, w5, w6, w7, w8, w9, w10, w11, w12, w13, w14, w15].map .ofNat

/-- The mixing function on the four words themselves. -/
def mix (a b c d x y : Nat) (k : Nat → Nat → Nat → Nat → Words) : Words :=
  let a := a + b + x
  let d := rotate (d ^^^ a) 16
  let c := c + d
  let b := rotate (b ^^^ c) 12
  let a := a + b + y
  let d := rotate (d ^^^ a) 8
  let c := c + d
  let b := rotate (b ^^^ c) 7
  k a b c d

def Words.round : Words → Words → Words
  | ⟨s0, s1, s2, s3, s4, s5, s6, s7, s8, s9, s10, s11, s12, s13, s14, s15⟩,
    ⟨m0, m1, m2, m3, m4, m5, m6, m7, m8, m9, m10, m11, m12, m13, m14, m15⟩ =>
    mix s0 s4 s8 s12 m0 m1 fun s0 s4 s8 s12 => mix s1 s5 s9 s13 m2 m3 fun s1 s5 s9 s13 =>
    mix s2 s6 s10 s14 m4 m5 fun s2 s6 s10 s14 => mix s3 s7 s11 s15 m6 m7 fun s3 s7 s11 s15 =>
    mix s0 s5 s10 s15 m8 m9 fun s0 s5 s10 s15 => mix s1 s6 s11 s12 m10 m11 fun s1 s6 s11 s12 =>
    mix s2 s7 s8 s13 m12 m13 fun s2 s7 s8 s13 => mix s3 s4 s9 s14 m14 m15 fun s3 s4 s9 s14 =>
    ⟨s0, s1, s2, s3, s4, s5, s6, s7, s8, s9, s10, s11, s12, s13, s14, s15⟩

def Words.permute : Words → Words
  | ⟨m0, m1, m2, m3, m4, m5, m6, m7, m8, m9, m10, m11, m12, m13, m14, m15⟩ =>
    ⟨m2, m6, m3, m10, m7, m0, m4, m13, m1, m11, m12, m5, m9, m14, m15, m8⟩

def Words.rounds : Nat → Words → Words → Words
  | 0, state, _ => state
  | n + 1, state, m => rounds n (state.round m) m.permute

theorem round_toList (s m : Words) : round s.toList m.toList = (s.round m).toList := by
  obtain ⟨s0, s1, s2, s3, s4, s5, s6, s7, s8, s9, s10, s11, s12, s13, s14, s15⟩ := s
  obtain ⟨m0, m1, m2, m3, m4, m5, m6, m7, m8, m9, m10, m11, m12, m13, m14, m15⟩ := m
  have h16 (x : Nat) : UInt32.ofNat (rotate x 16) = rotateRight (.ofNat x) 16 :=
    ofNat_rotate x (by decide) (by decide)
  have h12 (x : Nat) : UInt32.ofNat (rotate x 12) = rotateRight (.ofNat x) 12 :=
    ofNat_rotate x (by decide) (by decide)
  have h8 (x : Nat) : UInt32.ofNat (rotate x 8) = rotateRight (.ofNat x) 8 :=
    ofNat_rotate x (by decide) (by decide)
  have h7 (x : Nat) : UInt32.ofNat (rotate x 7) = rotateRight (.ofNat x) 7 :=
    ofNat_rotate x (by decide) (by decide)
  simp only [Words.toList, Words.round, mix, round, g, map_cons, map_nil,
    getD_cons_zero, getD_cons_succ, set_cons_zero, set_cons_succ,
    UInt32.ofNat_add, UInt32.ofNat_xor, h16, h12, h8, h7]

theorem rounds_toList (n : Nat) (s m : Words) :
    rounds n s.toList m.toList = (Words.rounds n s m).toList := by
  induction n generalizing s m with
  | zero => rfl
  | succ n ih =>
    rw [rounds, round_toList]
    exact ih (s.round m) m.permute

def Words.ofBytes (bytes : List UInt8) : Words :=
  let word (b : List UInt8) : Nat :=
    [0, 1, 2, 3].foldr (fun j acc => acc * 256 + (b.getD j 0).toNat) 0
  let b4 := bytes.drop 16; let b8 := b4.drop 16; let b12 := b8.drop 16
  ⟨word bytes, word (bytes.drop 4), word (bytes.drop 8), word (bytes.drop 12),
    word b4, word (b4.drop 4), word (b4.drop 8), word (b4.drop 12),
    word b8, word (b8.drop 4), word (b8.drop 8), word (b8.drop 12),
    word b12, word (b12.drop 4), word (b12.drop 8), word (b12.drop 12)⟩

theorem toList_ofBytes (bytes : List UInt8) : (Words.ofBytes bytes).toList = words bytes := by
  simp only [Words.ofBytes, Words.toList, words, getD_eq_getElem?_getD, getElem?_drop,
    drop_drop, map_cons, map_nil, foldr_cons, foldr_nil,
    UInt32.ofNat_add, UInt32.ofNat_mul, UInt32.ofNat_uInt8ToNat]
  rfl

/-- `compress` from a chaining value of eight words, for the first chunk. -/
def compressWords (cv : List Nat) (block : Words) (len flags : Nat) : List Nat :=
  match cv with
  | [c0, c1, c2, c3, c4, c5, c6, c7] =>
    match Words.rounds 7 ⟨c0, c1, c2, c3, c4, c5, c6, c7, 0x6A09E667, 0xBB67AE85, 0x3C6EF372,
      0xA54FF53A, 0, 0, len, flags⟩ block with
    | ⟨s0, s1, s2, s3, s4, s5, s6, s7, s8, s9, s10, s11, s12, s13, s14, s15⟩ =>
      [s0 ^^^ s8, s1 ^^^ s9, s2 ^^^ s10, s3 ^^^ s11, s4 ^^^ s12, s5 ^^^ s13, s6 ^^^ s14, s7 ^^^ s15]
  | _ => []

theorem compressWords_eq {cv : List Nat} (h : cv.length = 8) (block : Words) (len flags : Nat) :
    (compressWords cv block len flags).length = 8 ∧
      (compressWords cv block len flags).map .ofNat =
        compress (cv.map .ofNat) block.toList 0 (.ofNat len) (.ofNat flags) := by
  match cv, h with
  | [c0, c1, c2, c3, c4, c5, c6, c7], _ =>
    have hrounds : rounds 7 ([c0, c1, c2, c3, c4, c5, c6, c7].map .ofNat ++ IV.take 4 ++
        [UInt32.ofNat 0, UInt32.ofNat (0 / 2 ^ 32), .ofNat len, .ofNat flags]) block.toList = _ :=
      rounds_toList 7 ⟨c0, c1, c2, c3, c4, c5, c6, c7, 0x6A09E667, 0xBB67AE85, 0x3C6EF372,
        0xA54FF53A, 0, 0, len, flags⟩ block
    unfold compress compressWords
    rw [hrounds]
    dsimp only
    generalize Words.rounds 7 _ block = state
    cases state
    refine ⟨rfl, ?_⟩
    simp only [Words.toList, map_cons, map_nil, UInt32.ofNat_xor]
    rfl

/-- The blocks of a chunk that is the whole input. -/
def chunkWords : Nat → Nat → List Nat → List UInt8 → List Nat
  | 0, _, cv, _ => cv
  | fuel + 1, start, cv, bytes =>
    if bytes.length ≤ 64 then compressWords cv (.ofBytes bytes) bytes.length (start ||| 2 ||| 8)
    else chunkWords fuel 0 (compressWords cv (.ofBytes (bytes.take 64)) 64 start) (bytes.drop 64)

theorem chunkWords_eq (fuel start : Nat) {cv : List Nat} (h : cv.length = 8) (bytes : List UInt8) :
    (chunkWords fuel start cv bytes).length = 8 ∧
      (chunkWords fuel start cv bytes).map .ofNat =
        chunkBlocks 0 ROOT fuel (.ofNat start) (cv.map .ofNat) bytes := by
  induction fuel generalizing start cv bytes with
  | zero => exact ⟨h, rfl⟩
  | succ fuel ih =>
    unfold chunkWords chunkBlocks
    split
    · have hlast := compressWords_eq h (.ofBytes bytes) bytes.length (start ||| 2 ||| 8)
      rw [toList_ofBytes, UInt32.ofNat_or, UInt32.ofNat_or] at hlast
      exact hlast
    · obtain ⟨hlength, hnext⟩ := compressWords_eq h (.ofBytes (bytes.take 64)) 64 start
      rw [toList_ofBytes] at hnext
      have hrest := ih 0 hlength (bytes.drop 64)
      rw [hnext] at hrest
      exact hrest

/-- The bytes of eight words. -/
def digestOf (cv : List Nat) : Digest :=
  let bytes := cv.flatMap fun w =>
    [0, 1, 2, 3].map fun j => UInt8.ofNat (w % 2 ^ 32 / 256 ^ j % 256)
  if h : bytes.length = 32 then ⟨bytes.toArray, h⟩ else zeroDigest

theorem digestOf_eq {cv : List Nat} (h : cv.length = 8) : digestOf cv = Vector.ofFn fun i =>
    UInt8.ofNat (((cv.map UInt32.ofNat).getD (i / 4) 0).toNat / 256 ^ (i.val % 4) % 256) := by
  match cv, h with
  | [c0, c1, c2, c3, c4, c5, c6, c7], _ =>
    apply Vector.toList_inj.mp
    rw [Vector.toList_ofFn]
    rfl

end Blake3

/-- The 32-byte digest. -/
def blake3 (bytes : List UInt8) : Digest :=
  let cv := Blake3.subtree (bytes.length + 1) bytes 0 Blake3.ROOT
  Vector.ofFn fun i => UInt8.ofNat ((cv.getD (i / 4) 0).toNat / 256 ^ (i.val % 4) % 256)

/-- The digest of at most one chunk. -/
def evalBlake3 (bytes : List UInt8) : Digest :=
  if bytes.length ≤ 1024 then
    Blake3.digestOf (Blake3.chunkWords 16 1 (Blake3.IV.map UInt32.toNat) bytes)
  else blake3 bytes

theorem evalBlake3_eq (bytes : List UInt8) : evalBlake3 bytes = blake3 bytes := by
  unfold evalBlake3
  split
  · rename_i h
    obtain ⟨hlength, hchunk⟩ :=
      Blake3.chunkWords_eq 16 1 (show (Blake3.IV.map UInt32.toNat).length = 8 from rfl) bytes
    rw [Blake3.digestOf_eq hlength, hchunk, blake3, Blake3.subtree, if_pos h]
    rfl
  · rfl

theorem blake3_eq : blake3 = evalBlake3 := funext fun bytes => (evalBlake3_eq bytes).symm

example : blake3 [0x61, 0x62, 0x63] = #v[
    0x64, 0x37, 0xb3, 0xac, 0x38, 0x46, 0x51, 0x33, 0xff, 0xb6, 0x3b, 0x75, 0x27, 0x3a, 0x8d, 0xb5,
    0x48, 0xc5, 0x58, 0x46, 0x5d, 0x79, 0xdb, 0x03, 0xfd, 0x35, 0x9c, 0x6c, 0xd5, 0xbd, 0x9d, 0x85] := by
  decide +kernel

end Strangecoin
