import Strangecoin.AbiSteps

/-! # Calldata is canonical

What a decoder accepts is what the encoder writes for the values it returns.  For a
tuple both loops are run in step: when the decoder stands at two positions of the
data, the encoder has written the bytes up to the first as head, and the bytes between
the end of the head and the second as tail.
-/
namespace Strangecoin
open List
open AbiType

/-! ### Canonical encodings -/

namespace AbiType

/-- What the decoder of a static type makes of bytes is encoded as these bytes. -/
def CanonicalStatic (t : AbiType) : Prop :=
  ∀ data v n, data.length ≤ ISIZE_MAX → data.length = t.headSize →
    t.decodeStatic data = .ok (v, n) → t.encodeStatic v = .ok data

/-- What the decoder of a dynamic type makes of bytes is encoded as the bytes it
consumed. -/
def CanonicalBody (t : AbiType) : Prop :=
  ∀ data v n, data.length ≤ ISIZE_MAX → t.decodeDynamicBody data = .ok (v, n) →
    n ≤ data.length ∧ t.encodeDynamicBody v = .ok (data.take n)

structure Canonical (t : AbiType) : Prop where
  static : t.isDynamic = false → t.CanonicalStatic
  body : t.isDynamic = true → t.CanonicalBody

end AbiType

section
variable {data : List UInt8} (hdata : data.length ≤ ISIZE_MAX)
include hdata

variable {types : List AbiType}

/-- **The loops of encoder and decoder in step**: what the decoder read is the head and
the tail that the encoder has written. -/
theorem encodeElems_of_decodeElems (htypes : ∀ t ∈ types, t.Canonical)
    {headLen headPos tailPos stop : Nat} {values : List AbiValue} (hhead : headPos ≤ data.length)
    (htail : headLen ≤ tailPos) (htail' : tailPos ≤ data.length)
    (h : decodeElems data headPos tailPos (types.map decoder) = .ok (values, stop)) :
    values.length = types.length ∧ headPos + (types.map headSize).sum ≤ data.length ∧
      tailPos ≤ stop ∧ stop ≤ data.length ∧
      encodeElems headLen (data.take headPos) ((data.take tailPos).drop headLen)
          (types.map encoder) values =
        .ok (data.take (headPos + (types.map headSize).sum), (data.take stop).drop headLen) := by
  induction types generalizing headPos tailPos values with
  | nil =>
    obtain ⟨rfl, rfl⟩ := ok_pair h
    exact ⟨rfl, hhead, le_rfl, htail', rfl⟩
  | cons t types ih =>
    have hcanonical := htypes t (by simp)
    have ih := @ih fun t' ht' => htypes t' (by simp [ht'])
    cases hdynamic : t.isDynamic with
    | true =>
      have hsize : t.headSize = 4 := by rw [headSize, hdynamic]; rfl
      obtain ⟨offset, v, n, vs, hoffset, hcanon, -, hv, hvs, rfl⟩ :=
        (decodeElems_dynamic_ok (d := decoder t) hdynamic).mp h
      obtain ⟨hread, hword⟩ := readU32_ok.mp hoffset
      obtain ⟨hn, hbody⟩ := hcanonical.body hdynamic _ v n (by rw [length_drop]; omega) hv
      rw [length_drop] at hn
      obtain ⟨hlength, hsum, hstop, hstop', henc⟩ := ih hread (by omega) (by omega) hvs
      have hslice : (data.drop tailPos).take n = (data.take (tailPos + n)).drop tailPos := by
        rw [drop_take, Nat.add_sub_cancel_left]
      have hout : headLen + ((data.take tailPos).drop headLen).length = tailPos := by
        rw [length_slice htail']
        omega
      rw [map_cons, sum_cons, hsize]
      refine ⟨by simp [hlength], by omega, by omega, hstop', ?_⟩
      refine (encodeElems_dynamic_ok (e := encoder t) hdynamic).mpr ⟨?_, _, hbody, ?_, ?_, ?_⟩
      · rw [hout, ← hcanon]
        exact offset.toNat_lt
      · rw [length_take]
        omega
      · rw [length_slice htail', hslice, length_slice (by omega)]
        omega
      · rw [hout, ← hcanon, UInt32.ofNat_toNat, ← hword, hcanon, hslice,
          take_append_slice (by omega) hread, slice_append_slice htail (by omega) (by omega), henc,
          Nat.add_assoc]
    | false =>
      obtain ⟨v, n, vs, hle, hv, hvs, rfl⟩ := (decodeElems_static_ok (d := decoder t) hdynamic).mp h
      have hstatic := hcanonical.static hdynamic _ v n (by rw [length_slice hle]; omega)
        (by rw [length_slice hle]; exact Nat.add_sub_cancel_left _ _) hv
      obtain ⟨hlength, hsum, hstop, hstop', henc⟩ := ih hle htail htail' hvs
      rw [map_cons, sum_cons, ← Nat.add_assoc]
      refine ⟨by simp [hlength], hsum, hstop, hstop', ?_⟩
      refine (encodeElems_static_ok (e := encoder t) hdynamic).mpr ⟨_, hstatic, ?_, ?_⟩
      · rw [length_slice hle, length_take]
        omega
      · rw [take_append_slice (by omega) hle]
        exact henc

/-- **A tuple** whose element types are canonical. -/
theorem encodeTuple_of_decodeTuple (htypes : ∀ t ∈ types, t.Canonical) {values : List AbiValue}
    {stop : Nat} (h : decodeTuple (types.map decoder) data = .ok (values, stop)) :
    values.length = types.length ∧ stop ≤ data.length ∧
      encodeTuple (types.map encoder) values = .ok (data.take stop) := by
  obtain ⟨_, hhead, h⟩ := bind_eq_ok.mp h
  have hhead := guardWith_eq_ok.mp hhead
  rw [map_type_decoder] at hhead h
  obtain ⟨hlength, hsum, hstop, hstop', henc⟩ :=
    encodeElems_of_decodeElems hdata htypes (Nat.zero_le _) le_rfl hhead h
  -- nothing wrapped: the head is as long as the data at most
  have hlen : headLen types = (types.map headSize).sum := by
    rw [headLen_eq, Nat.mod_eq_of_lt]
    unfold ISIZE_MAX at hdata
    omega
  rw [Nat.zero_add] at hsum henc
  have hstart : (data.take (headLen types)).drop (headLen types) = [] :=
    drop_eq_nil_of_le (by simp)
  rw [hstart, take_zero] at henc
  refine ⟨hlength, hstop', ?_⟩
  unfold encodeTuple
  rw [map_type_encoder]
  refine bind_eq_ok.mpr ⟨(), guardWith_eq_ok.mpr (by simp [hlength]), ?_⟩
  refine bind_eq_ok.mpr ⟨(), guardWith_eq_ok.mpr (by omega), ?_⟩
  refine bind_eq_ok.mpr ⟨_, henc, ?_⟩
  rw [← hlen] at *
  have hbytes := take_append_slice hstop hstop'
  refine allocated_ok.mpr ⟨?_, hbytes.symm⟩
  rw [hbytes, length_take]
  omega

end

variable {data : List UInt8} {types : List AbiType}

theorem stop_of_static (htypes : ∀ t ∈ types, t.isDynamic = false) {headPos tailPos stop : Nat}
    {values : List AbiValue}
    (h : decodeElems data headPos tailPos (types.map decoder) = .ok (values, stop)) :
    stop = tailPos := by
  induction types generalizing headPos values with
  | nil => exact (ok_pair h).2.symm
  | cons t types ih =>
    obtain ⟨v, n, vs, -, -, hvs, -⟩ :=
      (decodeElems_static_ok (d := decoder t) (htypes t (by simp))).mp h
    exact ih (fun t' ht' => htypes t' (by simp [ht'])) hvs

/-- A static tuple fills the bytes it is given. -/
theorem encodeTuple_of_static {values : List AbiValue} {n : Nat}
    (hstatic : ∀ t ∈ types, t.isDynamic = false) (htypes : ∀ t ∈ types, t.Canonical)
    (hdata : data.length ≤ ISIZE_MAX) (hlength : data.length = headLen types)
    (h : decodeTuple (types.map decoder) data = .ok (values, n)) :
    values.length = types.length ∧ encodeTuple (types.map encoder) values = .ok data := by
  obtain ⟨hvalues, -, henc⟩ := encodeTuple_of_decodeTuple hdata htypes h
  obtain ⟨_, -, h⟩ := bind_eq_ok.mp h
  rw [stop_of_static hstatic h, map_type_decoder, ← hlength, take_length] at henc
  exact ⟨hvalues, henc⟩

/-! ### Words -/

/-- A word in range keeps its bytes when its sign is extended. -/
theorem signExtend_of_checkIntRange {value : Digest} {bits : UInt16}
    (h : checkIntRange value bits = .ok ()) : signExtend value (bits.toNat / 8) = value := by
  obtain ⟨_, -, h⟩ := bind_eq_ok.mp h
  have hfill := guardWith_eq_ok.mp h
  unfold signExtend
  split
  · apply Vector.ext
    intro i hi
    rw [Vector.getElem_ofFn]
    dsimp only
    have hbyte : byteAt value i = value[i] := by
      rw [byteAt, Vector.getElem?_eq_getElem hi]
      rfl
    split
    · rename_i hlow
      refine (hfill _ (mem_take_iff_getElem.mpr ⟨i, ?_, ?_⟩)).symm
      · rw [Vector.length_toList]
        omega
      · rw [Vector.getElem_toList]
    · exact hbyte
  · rfl

theorem boolWord_of_word {word : Digest} (hzero : ∀ b ∈ word.toList.take 31, b = 0)
    (hlast : byteAt word 31 ≤ 1) :
    boolWord (byteAt word 31 == 1) = word.toList := by
  have hhigh : word.toList.take 31 = List.replicate 31 0 :=
    eq_replicate_iff.mpr ⟨by simp, hzero⟩
  have hlow : word.toList.drop 31 = [byteAt word 31] := by
    rw [drop_eq_getElem_cons (by simp), drop_eq_nil_of_le (by simp), Vector.getElem_toList,
      byteAt, Vector.getElem?_eq_getElem]
    rfl
  have hflag : (if (byteAt word 31 == 1) = true then (1 : UInt8) else 0) = byteAt word 31 := by
    generalize byteAt word 31 = b at hlast
    rcases Nat.le_one_iff_eq_zero_or_eq_one.mp (UInt8.le_iff_toNat_le.mp hlast) with hb | hb
    · obtain rfl : b = 0 := UInt8.toNat_inj.mp hb
      rfl
    · obtain rfl : b = 1 := UInt8.toNat_inj.mp hb
      rfl
  rw [boolWord, hflag, ← hhigh, ← hlow, take_append_drop]

/-! ### Every type is canonical -/

namespace AbiType

theorem readWord_of_static {data : List UInt8} {word : Digest} (hlength : data.length = 32)
    (h : readWord data = .ok word) : word.toList = data := by
  rw [(readWord_ok.mp h).2, ← hlength, take_length]

theorem canonicalStatic_uint (bits : UInt16) : (uint bits).CanonicalStatic := by
  intro data v n _ hlength h
  obtain ⟨raw, hread, h⟩ := bind_eq_ok.mp h
  obtain ⟨_, hrange, h⟩ := bind_eq_ok.mp h
  obtain ⟨rfl, -⟩ := ok_pair h
  refine bind_eq_ok.mpr ⟨(), hrange, ?_⟩
  exact congrArg Except.ok (readWord_of_static hlength hread)

theorem canonicalStatic_int (bits : UInt16) : (int bits).CanonicalStatic := by
  intro data v n _ hlength h
  obtain ⟨raw, hread, h⟩ := bind_eq_ok.mp h
  obtain ⟨_, hrange, h⟩ := bind_eq_ok.mp h
  obtain ⟨rfl, -⟩ := ok_pair h
  rw [signExtend_of_checkIntRange (liftAbi_ok.mp hrange)]
  refine bind_eq_ok.mpr ⟨(), hrange, ?_⟩
  exact congrArg Except.ok (readWord_of_static hlength hread)

theorem canonicalStatic_bool : bool.CanonicalStatic := by
  intro data v n _ hlength h
  obtain ⟨word, hread, h⟩ := bind_eq_ok.mp h
  obtain ⟨_, hflag, h⟩ := bind_eq_ok.mp h
  obtain ⟨rfl, -⟩ := ok_pair h
  obtain ⟨hzero, hlast⟩ := guardWith_eq_ok.mp hflag
  rw [encodeStatic, boolWord_of_word hzero hlast, readWord_of_static hlength hread]

theorem canonicalStatic_address : address.CanonicalStatic := by
  intro data v n _ hlength h
  obtain ⟨word, hread, h⟩ := bind_eq_ok.mp h
  obtain ⟨rfl, -⟩ := ok_pair h
  rw [encodeStatic, readWord_of_static hlength hread]

theorem canonicalBody_bytes : bytes.CanonicalBody := by
  intro data v n _ h
  obtain ⟨⟨value, m⟩, hvalue, h⟩ := bind_eq_ok.mp h
  obtain ⟨rfl, rfl⟩ := ok_pair h
  obtain ⟨hlength, hle, -, htake⟩ := decodeBytes_ok.mp hvalue
  exact ⟨hle, encodeBytes_ok.mpr ⟨hlength, htake⟩⟩

theorem canonicalBody_string : string.CanonicalBody := by
  intro data v n _ h
  obtain ⟨⟨value, m⟩, hvalue, h⟩ := bind_eq_ok.mp h
  obtain ⟨s, hs, h⟩ := bind_eq_ok.mp h
  obtain ⟨rfl, rfl⟩ := ok_pair h
  obtain ⟨hlength, hle, -, htake⟩ := decodeBytes_ok.mp hvalue
  obtain rfl : asBytes s = value := by
    cases hutf8 : fromUtf8 value with
    | error e =>
      rw [hutf8] at hs
      cases hs
    | ok s' =>
      rw [hutf8] at hs
      rw [← Except.ok.inj hs]
      exact fromUtf8_ok.mp hutf8
  exact ⟨hle, encodeBytes_ok.mpr ⟨hlength, htake⟩⟩

variable {elem : AbiType}

theorem canonicalBody_array (ih : elem.Canonical) : (array elem).CanonicalBody := by
  intro data v n hdata h
  obtain ⟨⟨values, m⟩, hvalues, h⟩ := bind_eq_ok.mp h
  obtain ⟨rfl, rfl⟩ := ok_pair h
  obtain ⟨count, k, hread, hcount, halloc, hdecode, rfl⟩ := decodeArray_ok.mp hvalues
  obtain ⟨hlong, hword⟩ := readU32_ok.mp hread
  obtain ⟨hlength, hk, hencode⟩ := encodeTuple_of_decodeTuple (by rw [length_drop]; omega)
    (fun t ht => (eq_of_mem_replicate ht).symm ▸ ih) hdecode
  rw [length_replicate] at hlength
  rw [length_drop] at hk
  refine ⟨by omega, encodeArray_ok.mpr
    ⟨hlength ▸ count.toNat_lt, hlength ▸ halloc, _, hlength ▸ hencode, ?_⟩⟩
  have hslice : (data.drop 4).take k = (data.take (4 + k)).drop 4 := by
    rw [drop_take, Nat.add_sub_cancel_left]
  rw [hlength, UInt32.ofNat_toNat, ← hword, hslice]
  exact (take_append_slice (Nat.le_add_right 4 k) (by omega)).symm

/-- Types that are encoded as a tuple of their elements, in the head. -/
theorem canonicalStatic_fixedArray {len : Nat} (hstatic : elem.isDynamic = false)
    (ih : elem.Canonical) : (fixedArray elem len).CanonicalStatic := by
  intro data v n hdata hlength h
  obtain ⟨⟨values, m⟩, hvalues, h⟩ := bind_eq_ok.mp h
  obtain ⟨rfl, -⟩ := ok_pair h
  obtain ⟨halloc, hdecode⟩ := decodeRepeated_ok.mp hvalues
  rw [headSize_fixedArray hstatic] at hlength
  obtain ⟨hcount, hencode⟩ := encodeTuple_of_static
    (fun t ht => (eq_of_mem_replicate ht).symm ▸ hstatic)
    (fun t ht => (eq_of_mem_replicate ht).symm ▸ ih) hdata hlength hdecode
  rw [length_replicate] at hcount
  exact encodeRepeated_ok.mpr ⟨hcount, halloc, hencode⟩

theorem canonicalBody_fixedArray {len : Nat} (ih : elem.Canonical) :
    (fixedArray elem len).CanonicalBody := by
  intro data v n hdata h
  obtain ⟨⟨values, m⟩, hvalues, h⟩ := bind_eq_ok.mp h
  obtain ⟨rfl, rfl⟩ := ok_pair h
  obtain ⟨halloc, hdecode⟩ := decodeRepeated_ok.mp hvalues
  obtain ⟨hcount, hle, hencode⟩ := encodeTuple_of_decodeTuple hdata
    (fun t ht => (eq_of_mem_replicate ht).symm ▸ ih) hdecode
  rw [length_replicate] at hcount
  exact ⟨hle, encodeRepeated_ok.mpr ⟨hcount, halloc, hencode⟩⟩

variable {elems : List AbiType}

theorem canonicalStatic_tuple (hstatic : (tuple elems).isDynamic = false)
    (ih : ∀ elem ∈ elems, elem.Canonical) : (tuple elems).CanonicalStatic := by
  intro data v n hdata hlength h
  obtain ⟨⟨values, m⟩, hvalues, h⟩ := bind_eq_ok.mp h
  obtain ⟨rfl, -⟩ := ok_pair h
  rw [headSize_tuple hstatic] at hlength
  rw [decoders_eq] at hvalues
  rw [encodeStatic, encoders_eq]
  exact (encodeTuple_of_static (fun _ => isDynamic_of_mem hstatic) ih hdata hlength hvalues).2

theorem canonicalBody_tuple (ih : ∀ elem ∈ elems, elem.Canonical) :
    (tuple elems).CanonicalBody := by
  intro data v n hdata h
  obtain ⟨⟨values, m⟩, hvalues, h⟩ := bind_eq_ok.mp h
  obtain ⟨rfl, rfl⟩ := ok_pair h
  rw [decoders_eq] at hvalues
  rw [encodeDynamicBody, encoders_eq]
  exact (encodeTuple_of_decodeTuple hdata ih hvalues).2

theorem canonical (t : AbiType) : t.Canonical := by
  induction t with
  | uint bits => exact ⟨fun _ => canonicalStatic_uint bits, nofun⟩
  | int bits => exact ⟨fun _ => canonicalStatic_int bits, nofun⟩
  | bool => exact ⟨fun _ => canonicalStatic_bool, nofun⟩
  | address => exact ⟨fun _ => canonicalStatic_address, nofun⟩
  | bytes => exact ⟨nofun, fun _ => canonicalBody_bytes⟩
  | string => exact ⟨nofun, fun _ => canonicalBody_string⟩
  | array elem ih => exact ⟨nofun, fun _ => canonicalBody_array ih⟩
  | fixedArray elem len ih =>
    exact ⟨fun hstatic => canonicalStatic_fixedArray hstatic ih, fun _ => canonicalBody_fixedArray ih⟩
  | tuple elems ih =>
    exact ⟨fun hstatic => canonicalStatic_tuple hstatic ih, fun _ => canonicalBody_tuple ih⟩

end AbiType

/-- **Calldata is canonical**: what is accepted is the encoding of its arguments. -/
theorem calldata_canonical {params : List AbiParam} {data : List UInt8}
    (hdata : data.length ≤ ISIZE_MAX) :
    (∀ values, decodeArgs params data = .ok values → encodeArgs params values = .ok data) ∧
    ∀ data' values, data'.length ≤ ISIZE_MAX → decodeArgs params data = .ok values →
      decodeArgs params data' = .ok values → data = data' := by
  have hcanonical : ∀ data values, data.length ≤ ISIZE_MAX → decodeArgs params data = .ok values →
      encodeArgs params values = .ok data := by
    intro data values hdata h
    obtain ⟨⟨vs, n⟩, hdecode, hrest⟩ := bind_eq_ok.mp h
    obtain ⟨_, hall, hvalues⟩ := bind_eq_ok.mp hrest
    obtain rfl : n = data.length := guardWith_eq_ok.mp hall
    obtain rfl := Except.ok.inj hvalues
    rw [decoders_eq] at hdecode
    obtain ⟨hlength, -, hencode⟩ :=
      encodeTuple_of_decodeTuple hdata (fun t _ => t.canonical) hdecode
    rw [take_length] at hencode
    unfold encodeArgs
    rw [encoders_eq]
    refine bind_eq_ok.mpr ⟨(), guardWith_eq_ok.mpr ?_, hencode⟩
    rw [hlength, length_map]
  refine ⟨fun values => hcanonical data values hdata, fun data' values hdata' h h' => ?_⟩
  have hsame := (hcanonical data values hdata h).symm.trans (hcanonical data' values hdata' h')
  exact Except.ok.inj hsame

/-- A byte string and an array of pairs of a flag and a text. -/
def nestedParams : List AbiParam :=
  [⟨"key", .bytes⟩, ⟨"entries", .array (.tuple [.bool, .string])⟩]

def nestedCalldata : List UInt8 :=
  [0, 0, 0, 8, 0, 0, 0, 13, 0, 0, 0, 1, 170, 0, 0, 0, 1, 0, 0, 0, 4, 0, 0, 0, 0, 0, 0, 0,
   0, 0, 0, 0, 0, 0, 0, 0, 0, 0, 0, 0, 0, 0, 0, 0, 0, 0, 0, 0, 0, 0, 0, 0, 1, 0, 0, 0, 36,
   0, 0, 0, 2, 104, 105]

theorem calldata_canonical_nested :
    ∃ values, decodeArgs nestedParams nestedCalldata = .ok values ∧
      encodeArgs nestedParams values = .ok nestedCalldata := by
  obtain ⟨values, hdecode⟩ := isOk_iff.mp
    (show (decodeArgs nestedParams nestedCalldata).isOk = true by decide +kernel)
  exact ⟨values, hdecode, (calldata_canonical (by decide)).1 values hdecode⟩

end Strangecoin
