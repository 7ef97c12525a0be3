import Strangecoin.AbiCodec

/-! # What one step of the codec does

Inversion lemmas for the encoders and decoders, and the sizes they compute with: the
head of a tuple is as long as the sum of its parts, wrapped, and a static type has the
size of its elements.
-/
namespace Strangecoin
open List
open AbiType

/-! ### Sizes -/

theorem foldl_wrap {xs : List Nat} {total : Nat} (h : total < 2 ^ 64) :
    xs.foldl (fun n x => (n + x) % 2 ^ 64) total = (total + xs.sum) % 2 ^ 64 := by
  induction xs generalizing total with
  | nil => rw [foldl_nil, sum_nil, Nat.add_zero, Nat.mod_eq_of_lt h]
  | cons x xs ih =>
    rw [foldl_cons, ih (Nat.mod_lt _ (by decide)), sum_cons, Nat.mod_add_mod, Nat.add_assoc]

namespace AbiType

theorem headLen_eq (types : List AbiType) :
    headLen types = (types.map headSize).sum % 2 ^ 64 := by
  have h := @foldl_wrap (types.map headSize) 0 (by decide)
  rw [foldl_map, Nat.zero_add] at h
  exact h

theorem anyDynamic_eq (elems : List AbiType) : anyDynamic elems = elems.any isDynamic := by
  induction elems with
  | nil => rfl
  | cons elem elems ih => rw [anyDynamic, ih, any_cons]

variable {elems : List AbiType}

theorem staticSizes_eq (h : ∀ elem ∈ elems, elem.staticSize = some elem.headSize) (total : Nat) :
    staticSizes total elems =
      some (elems.foldl (fun n t => (n + t.headSize) % 2 ^ 64) total) := by
  induction elems generalizing total with
  | nil => rfl
  | cons elem elems ih =>
    rw [staticSizes, h elem (by simp)]
    exact ih (fun e he => h e (by simp [he])) _

theorem staticSize_of_isSome {t : AbiType} (hstatic : t.isDynamic = false)
    (h : t.staticSize.isSome) : t.staticSize = some t.headSize := by
  obtain ⟨n, hn⟩ := Option.isSome_iff_exists.mp h
  rw [headSize, hstatic, hn]
  rfl

theorem isDynamic_of_mem (h : (tuple elems).isDynamic = false) {elem : AbiType}
    (helem : elem ∈ elems) : elem.isDynamic = false := by
  rw [isDynamic, anyDynamic_eq] at h
  exact eq_false_of_ne_true (any_eq_false.mp h elem helem)

theorem isSome_staticSize {t : AbiType} (h : t.isDynamic = false) : t.staticSize.isSome := by
  induction t with
  | uint bits => rfl
  | int bits => rfl
  | bool => rfl
  | address => rfl
  | bytes => cases h
  | string => cases h
  | array elem ih => cases h
  | fixedArray elem len ih =>
    rw [staticSize, Option.isSome_map]
    exact ih h
  | tuple elems ih =>
    have helems : ∀ elem ∈ elems, elem.staticSize = some elem.headSize := fun elem helem =>
      staticSize_of_isSome (isDynamic_of_mem h helem) (ih elem helem (isDynamic_of_mem h helem))
    rw [staticSize, staticSizes_eq helems]
    rfl

/-- A static type has a static size: its bytes in the head. -/
theorem staticSize_eq {t : AbiType} (h : t.isDynamic = false) : t.staticSize = some t.headSize :=
  staticSize_of_isSome h (isSome_staticSize h)

theorem headSize_tuple (h : (tuple elems).isDynamic = false) :
    (tuple elems).headSize = headLen elems := by
  have hsize := staticSize_eq h
  rw [staticSize, staticSizes_eq fun elem helem => staticSize_eq (isDynamic_of_mem h helem)] at hsize
  exact (Option.some.inj hsize).symm

theorem headSize_fixedArray {elem : AbiType} {len : Nat} (h : elem.isDynamic = false) :
    (fixedArray elem len).headSize = headLen (List.replicate len elem) := by
  have hsize := staticSize_eq (t := fixedArray elem len) h
  rw [staticSize, staticSize_eq h] at hsize
  rw [headLen_eq, map_replicate, sum_replicate, smul_eq_mul, Nat.mul_comm]
  exact (Option.some.inj hsize).symm

/-! ### Encoders and decoders of types -/

def encoder (t : AbiType) : Encoder := ⟨t, t.encodeStatic, t.encodeDynamicBody⟩

def decoder (t : AbiType) : Decoder := ⟨t, t.decodeStatic, t.decodeDynamicBody⟩

theorem encoders_eq (elems : List AbiType) : encoders elems = elems.map encoder := by
  induction elems with
  | nil => rfl
  | cons elem elems ih => rw [encoders, ih]; rfl

theorem decoders_eq (elems : List AbiType) : decoders elems = elems.map decoder := by
  induction elems with
  | nil => rfl
  | cons elem elems ih => rw [decoders, ih]; rfl

theorem map_type_encoder (types : List AbiType) : (types.map encoder).map Encoder.type = types := by
  rw [map_map]
  exact map_id _

theorem map_type_decoder (types : List AbiType) : (types.map decoder).map Decoder.type = types := by
  rw [map_map]
  exact map_id _

end AbiType

/-! ### Slices -/

variable {α : Type} {xs : List α}

theorem allocated_ok {width : Nat} {ys : List α} :
    allocated width xs = .ok ys ↔ width * xs.length ≤ ISIZE_MAX ∧ ys = xs := by
  unfold allocated
  split
  · rename_i h
    exact ⟨fun hok => ⟨h, (Except.ok.inj hok).symm⟩, fun hok => by rw [hok.2]⟩
  · rename_i h
    exact ⟨nofun, fun hok => absurd hok.1 h⟩

variable {data : List UInt8} {start stop : Nat}

theorem sliceOf_ok {w : List UInt8} :
    sliceOf data start stop = .ok w ↔
      (start ≤ stop ∧ stop ≤ data.length) ∧ w = (data.take stop).drop start := by
  unfold sliceOf
  split
  · rename_i h
    exact ⟨fun hok => ⟨h, (Except.ok.inj hok).symm⟩, fun hok => by rw [hok.2]⟩
  · rename_i h
    exact ⟨nofun, fun hok => absurd hok.1 h⟩

theorem readU32_ok {x : UInt32} :
    readU32 data start = .ok x ↔
      start + 4 ≤ data.length ∧ (data.take (start + 4)).drop start = toBeBytes32 x := by
  unfold readU32
  split
  · rename_i h
    have hlength : ((data.take (start + 4)).drop start).length = 4 := by
      rw [length_drop, length_take]
      omega
    constructor
    · intro hok
      rw [← Except.ok.inj hok, toBeBytes32_fromBeBytes32 hlength]
      exact ⟨h, rfl⟩
    · rintro ⟨-, hbytes⟩
      rw [hbytes, fromBeBytes32_toBeBytes32]
  · rename_i h
    exact ⟨nofun, fun hok => absurd hok.1 h⟩

/-- A slice that goes on where another one stops. -/
theorem slice_append_slice {mid : Nat} (h : start ≤ mid) (h' : mid ≤ stop)
    (hstop : stop ≤ xs.length) :
    (xs.take mid).drop start ++ (xs.take stop).drop mid = (xs.take stop).drop start := by
  have hmid : xs.take mid = (xs.take stop).take mid := by rw [take_take, min_eq_left h']
  rw [hmid, ← drop_append_of_le_length, take_append_drop]
  simp only [length_take]
  omega

theorem take_append_slice {mid : Nat} (h : mid ≤ stop) (hstop : stop ≤ xs.length) :
    xs.take mid ++ (xs.take stop).drop mid = xs.take stop :=
  slice_append_slice (Nat.zero_le mid) h hstop

theorem length_slice (hstop : stop ≤ xs.length) :
    ((xs.take stop).drop start).length = stop - start := by
  rw [length_drop, length_take, min_eq_left hstop]

/-! ### One element -/

section
variable {headLen : Nat} {head tail : List UInt8} {e : Encoder} {encoders : List Encoder} {v : AbiValue}
  {values : List AbiValue} {r : List UInt8 × List UInt8}

theorem encodeElems_dynamic_ok (he : e.type.isDynamic = true) :
    encodeElems headLen head tail (e :: encoders) (v :: values) = .ok r ↔
      headLen + tail.length < 2 ^ 32 ∧ ∃ body, e.body v = .ok body ∧
        head.length + 4 ≤ ISIZE_MAX ∧ tail.length + body.length ≤ ISIZE_MAX ∧
        encodeElems headLen (head ++ toBeBytes32 (UInt32.ofNat (headLen + tail.length)))
          (tail ++ body) encoders values = .ok r := by
  rw [encodeElems, if_pos he]
  simp only [bind_eq_ok, guardWith_eq_ok, allocated_ok, length_append,
    length_toBeBytes32, Nat.one_mul]
  constructor
  · rintro ⟨_, hoffset, _, ⟨hhead, rfl⟩, body, hbody, _, ⟨htail, rfl⟩, h⟩
    exact ⟨hoffset, body, hbody, hhead, htail, h⟩
  · rintro ⟨hoffset, body, hbody, hhead, htail, h⟩
    exact ⟨(), hoffset, _, ⟨hhead, rfl⟩, body, hbody, _, ⟨htail, rfl⟩, h⟩

theorem encodeElems_static_ok (he : e.type.isDynamic = false) :
    encodeElems headLen head tail (e :: encoders) (v :: values) = .ok r ↔
      ∃ bytes, e.static v = .ok bytes ∧ head.length + bytes.length ≤ ISIZE_MAX ∧
        encodeElems headLen (head ++ bytes) tail encoders values = .ok r := by
  rw [encodeElems, if_neg (by simp [he])]
  simp only [bind_eq_ok, allocated_ok, length_append, Nat.one_mul]
  constructor
  · rintro ⟨bytes, hbytes, _, ⟨hhead, rfl⟩, h⟩
    exact ⟨bytes, hbytes, hhead, h⟩
  · rintro ⟨bytes, hbytes, hhead, h⟩
    exact ⟨bytes, hbytes, _, ⟨hhead, rfl⟩, h⟩

end

section
variable {data : List UInt8} {headPos tailPos stop : Nat} {d : Decoder} {decoders : List Decoder}
  {values : List AbiValue}

theorem decodeElems_dynamic_ok (hd : d.type.isDynamic = true) :
    decodeElems data headPos tailPos (d :: decoders) = .ok (values, stop) ↔
      ∃ offset v n vs, readU32 data headPos = .ok offset ∧ offset.toNat = tailPos ∧
        tailPos ≤ data.length ∧ d.body (data.drop tailPos) = .ok (v, n) ∧
        decodeElems data (headPos + 4) (tailPos + n) decoders = .ok (vs, stop) ∧
        values = v :: vs := by
  rw [decodeElems, if_pos hd]
  simp only [bind_eq_ok, guardWith_eq_ok, sliceOf_ok, take_length, le_refl, and_true]
  constructor
  · rintro ⟨offset, hoffset, _, htail, _, ⟨hle, rfl⟩, ⟨v, n⟩, hv, ⟨vs, _⟩, hvs, h⟩
    obtain ⟨rfl, rfl⟩ := ok_pair h
    exact ⟨offset, v, n, vs, hoffset, htail, hle, hv, hvs, rfl⟩
  · rintro ⟨offset, v, n, vs, hoffset, htail, hle, hv, hvs, rfl⟩
    exact ⟨offset, hoffset, (), htail, _, ⟨hle, rfl⟩, (v, n), hv, (vs, stop), hvs, rfl⟩

theorem decodeElems_static_ok (hd : d.type.isDynamic = false) :
    decodeElems data headPos tailPos (d :: decoders) = .ok (values, stop) ↔
      ∃ v n vs, headPos + d.type.headSize ≤ data.length ∧
        d.static ((data.take (headPos + d.type.headSize)).drop headPos) = .ok (v, n) ∧
        decodeElems data (headPos + d.type.headSize) tailPos decoders = .ok (vs, stop) ∧
        values = v :: vs := by
  have hsize : d.type.staticSize.getD 0 = d.type.headSize := by rw [headSize, hd]; rfl
  rw [decodeElems, if_neg (by simp [hd])]
  simp only [bind_eq_ok, sliceOf_ok, hsize]
  constructor
  · rintro ⟨_, ⟨⟨-, hle⟩, rfl⟩, ⟨v, n⟩, hv, ⟨vs, _⟩, hvs, h⟩
    obtain ⟨rfl, rfl⟩ := ok_pair h
    exact ⟨v, n, vs, hle, hv, hvs, rfl⟩
  · rintro ⟨v, n, vs, hle, hv, hvs, rfl⟩
    exact ⟨_, ⟨⟨by omega, hle⟩, rfl⟩, (v, n), hv, (vs, stop), hvs, rfl⟩

end

/-! ### Words -/

theorem liftAbi_ok {x : Except AbiError α} {a : α} : liftAbi x = .ok a ↔ x = .ok a := by
  cases x with
  | ok b => exact ⟨fun h => congrArg _ (Except.ok.inj h), fun h => congrArg _ (Except.ok.inj h)⟩
  | error e => exact ⟨nofun, nofun⟩

theorem readWord_ok {word : Digest} :
    readWord data = .ok word ↔ 32 ≤ data.length ∧ word.toList = data.take 32 := by
  unfold readWord
  split
  · rename_i h
    have hlength : (data.take 32).length = 32 := by rw [length_take]; omega
    constructor
    · intro hok
      rw [← Except.ok.inj hok, toList_digestOfBytes hlength]
      exact ⟨h, rfl⟩
    · rintro ⟨-, hword⟩
      rw [← hword, digestOfBytes_toList]
  · rename_i h
    exact ⟨nofun, fun hok => absurd hok.1 h⟩

/-! ### Repeated elements and byte strings -/

theorem repeated_ok {x : α} {len : Nat} :
    repeated x len = .ok xs ↔ 8 * len ≤ ISIZE_MAX ∧ xs = List.replicate len x := by
  rw [repeated, allocated_ok, length_replicate]

section
variable {elem : AbiType} {len n : Nat} {values : List AbiValue} {bytes data : List UInt8}

theorem encodeRepeated_ok : encodeRepeated (encoder elem) len values = .ok bytes ↔
    values.length = len ∧ 8 * len ≤ ISIZE_MAX ∧
      encodeTuple ((List.replicate len elem).map encoder) values = .ok bytes := by
  simp only [encodeRepeated, bind_eq_ok, guardWith_eq_ok, repeated_ok, map_replicate]
  constructor
  · rintro ⟨_, hlen, _, ⟨halloc, rfl⟩, h⟩
    exact ⟨hlen, halloc, h⟩
  · rintro ⟨hlen, halloc, h⟩
    exact ⟨(), hlen, _, ⟨halloc, rfl⟩, h⟩

theorem decodeRepeated_ok : decodeRepeated (decoder elem) len data = .ok (values, n) ↔
    8 * len ≤ ISIZE_MAX ∧
      decodeTuple ((List.replicate len elem).map decoder) data = .ok (values, n) := by
  simp only [decodeRepeated, bind_eq_ok, repeated_ok, map_replicate]
  constructor
  · rintro ⟨_, ⟨halloc, rfl⟩, h⟩
    exact ⟨halloc, h⟩
  · rintro ⟨halloc, h⟩
    exact ⟨_, ⟨halloc, rfl⟩, h⟩

theorem encodeArray_ok : encodeArray (encoder elem) values = .ok bytes ↔
    values.length < 2 ^ 32 ∧ 8 * values.length ≤ ISIZE_MAX ∧
      ∃ elems, encodeTuple ((List.replicate values.length elem).map encoder) values = .ok elems ∧
        bytes = toBeBytes32 (UInt32.ofNat values.length) ++ elems := by
  simp only [encodeArray, bind_eq_ok, guardWith_eq_ok, repeated_ok, map_replicate]
  constructor
  · rintro ⟨_, hcount, _, ⟨halloc, rfl⟩, elems, h, hbytes⟩
    exact ⟨hcount, halloc, elems, h, (Except.ok.inj hbytes).symm⟩
  · rintro ⟨hcount, halloc, elems, h, rfl⟩
    exact ⟨(), hcount, _, ⟨halloc, rfl⟩, elems, h, rfl⟩

theorem decodeArray_ok : decodeArray (decoder elem) data = .ok (values, n) ↔
    ∃ count m, readU32 data 0 = .ok count ∧ count.toNat ≤ data.length ∧
      8 * count.toNat ≤ ISIZE_MAX ∧
      decodeTuple ((List.replicate count.toNat elem).map decoder) (data.drop 4) = .ok (values, m) ∧
      n = 4 + m := by
  simp only [decodeArray, bind_eq_ok, guardWith_eq_ok, repeated_ok, map_replicate,
    sliceOf_ok, take_length, le_refl, and_true]
  constructor
  · rintro ⟨count, hread, _, hcount, _, ⟨halloc, rfl⟩, _, ⟨-, rfl⟩, ⟨vs, m⟩, h, hn⟩
    obtain ⟨rfl, rfl⟩ := ok_pair hn
    exact ⟨count, m, hread, hcount, halloc, h, rfl⟩
  · rintro ⟨count, m, hread, hcount, halloc, h, rfl⟩
    have hlong := (readU32_ok.mp hread).1
    exact ⟨count, hread, (), hcount, _, ⟨halloc, rfl⟩, _, ⟨by omega, rfl⟩, (values, m), h, rfl⟩

theorem encodeBytes_ok {value : List UInt8} {tooLong : String} :
    encodeBytes value tooLong = .ok bytes ↔
      value.length < 2 ^ 32 ∧ bytes = toBeBytes32 (UInt32.ofNat value.length) ++ value := by
  simp only [encodeBytes, bind_eq_ok, guardWith_eq_ok]
  constructor
  · rintro ⟨_, hlength, hbytes⟩
    exact ⟨hlength, (Except.ok.inj hbytes).symm⟩
  · rintro ⟨hlength, rfl⟩
    exact ⟨(), hlength, rfl⟩

theorem decodeBytes_ok {value : List UInt8} : decodeBytes data = .ok (value, n) ↔
    value.length < 2 ^ 32 ∧ n ≤ data.length ∧ n = 4 + value.length ∧
      data.take n = toBeBytes32 (UInt32.ofNat value.length) ++ value := by
  simp only [decodeBytes, bind_eq_ok, guardWith_eq_ok, sliceOf_ok, readU32_ok]
  constructor
  · rintro ⟨len, ⟨hlong, hword⟩, _, hstop, _, ⟨-, rfl⟩, h⟩
    obtain ⟨rfl, rfl⟩ := ok_pair h
    have hlength : ((data.take (4 + len.toNat)).drop 4).length = len.toNat := by
      rw [length_slice hstop, Nat.add_sub_cancel_left]
    rw [hlength, UInt32.ofNat_toNat, ← hword]
    refine ⟨len.toNat_lt, hstop, rfl, ?_⟩
    exact (take_append_slice (Nat.le_add_right 4 _) hstop).symm
  · rintro ⟨hlength, hle, rfl, htake⟩
    have hnat := toNat_ofNat_length hlength
    have hword : (data.take (0 + 4)).drop 0 = toBeBytes32 (UInt32.ofNat value.length) := by
      have hfirst := congrArg (List.take 4) htake
      rw [take_take, min_eq_left (Nat.le_add_right 4 _), take_left' (by simp)] at hfirst
      exact hfirst
    refine ⟨UInt32.ofNat value.length, ⟨by omega, hword⟩, (), by rw [hnat]; exact hle, value, ⟨?_, ?_⟩, ?_⟩
    · rw [hnat]; omega
    · rw [hnat, htake, drop_left' (by simp)]
    · rw [hnat]; rfl

end

end Strangecoin
