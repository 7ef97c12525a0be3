import Strangecoin.AbiCanonical

/-! # Calldata is read back

The decoder refuses an array with more elements than there are bytes from its count
to the end of the data.  Elements that take no bytes, such as empty tuples, can be more
than that; every other check passes on what the encoder writes.
-/
namespace Strangecoin
open List
open AbiType

/-! ### Sizes of values -/

namespace AbiValue

mutual
/-- The value is encoded in the tail of its tuple. -/
def isDynamic : AbiValue → Bool
  | .uint _ | .int _ | .bool _ | .address _ => false
  | .bytes _ | .string _ | .array _ => true
  | .fixedArray values | .tuple values => anyDynamic values

def anyDynamic : List AbiValue → Bool
  | [] => false
  | v :: values => v.isDynamic || anyDynamic values
end

mutual
/-- The bytes of a value, the offset to them apart. -/
def size : AbiValue → Nat
  | .uint _ | .int _ | .bool _ | .address _ => 32
  | .bytes value => 4 + value.length
  | .string value => 4 + (asBytes value).length
  | .array values => 4 + sizes values
  | .fixedArray values | .tuple values => sizes values

/-- The bytes of a tuple of values, offsets included. -/
def sizes : List AbiValue → Nat
  | [] => 0
  | v :: values => (if v.isDynamic then 4 else 0) + v.size + sizes values
end

/-- The bytes of the tail of a tuple. -/
def tailSize (values : List AbiValue) : Nat :=
  (values.map fun v => if v.isDynamic then v.size else 0).sum

mutual
/-- With `after` bytes behind the value, every array in it has at most as many elements
as there are bytes from its count to the end. -/
def roomy (after : Nat) : AbiValue → Bool
  | .array values => decide (values.length ≤ 4 + sizes values + after) && allRoomy after values
  | .fixedArray values | .tuple values => allRoomy after values
  | _ => true

def allRoomy (after : Nat) : List AbiValue → Bool
  | [] => true
  | v :: values => v.roomy (tailSize values + after) && allRoomy after values
end

theorem tailSize_cons (v : AbiValue) (values : List AbiValue) :
    tailSize (v :: values) = (if v.isDynamic then v.size else 0) + tailSize values := by
  rw [tailSize, map_cons, sum_cons]
  rfl

theorem anyDynamic_eq (values : List AbiValue) : anyDynamic values = values.any isDynamic := by
  induction values with
  | nil => rfl
  | cons v values ih => rw [anyDynamic, ih, any_cons]

end AbiValue

/-! ### What the encoder writes has the size of the values -/

namespace AbiType

/-- The facts about the encodings of a type that its tuple needs. -/
structure Sized (t : AbiType) : Prop where
  static : t.isDynamic = false → ∀ v bytes, t.encodeStatic v = .ok bytes →
    v.isDynamic = false ∧ bytes.length = t.headSize ∧ bytes.length = v.size ∧
      ∀ after, v.roomy after = true
  body : t.isDynamic = true → ∀ v bytes, t.encodeDynamicBody v = .ok bytes →
    v.isDynamic = true ∧ bytes.length = v.size

end AbiType

/-- The head and the tail grow by the sizes of the values. -/
theorem encodeElems_sized {types : List AbiType} (htypes : ∀ t ∈ types, t.Sized) {headLen : Nat}
    {head tail head' tail' : List UInt8} {values : List AbiValue}
    (hlength : values.length = types.length)
    (h : encodeElems headLen head tail (types.map encoder) values = .ok (head', tail')) :
    values.map AbiValue.isDynamic = types.map isDynamic ∧
    (∃ more, head' = head ++ more ∧ more.length = (types.map headSize).sum) ∧
    (∃ more, tail' = tail ++ more ∧ more.length = AbiValue.tailSize values) ∧
    (types.map headSize).sum + AbiValue.tailSize values = AbiValue.sizes values := by
  induction types generalizing head tail values with
  | nil =>
    obtain rfl := length_eq_zero_iff.mp hlength
    obtain ⟨rfl, rfl⟩ := ok_pair h
    exact ⟨rfl, ⟨[], by simp⟩, ⟨[], by simp [AbiValue.tailSize]⟩, rfl⟩
  | cons t types ih =>
    obtain ⟨v, values, rfl⟩ := exists_cons_of_length_eq_add_one hlength
    have hsized := htypes t (by simp)
    have ih := @ih fun t' ht' => htypes t' (by simp [ht'])
    have hlength : values.length = types.length := by simpa using hlength
    cases hdynamic : t.isDynamic with
    | true =>
      obtain ⟨-, body, hbody, -, -, h⟩ := (encodeElems_dynamic_ok (e := encoder t) hdynamic).mp h
      obtain ⟨hflags, ⟨more, rfl, hmore⟩, ⟨tmore, rfl, htmore⟩, hsum⟩ := ih hlength h
      obtain ⟨hv, hsize⟩ := hsized.body hdynamic v body hbody
      have hhead : t.headSize = 4 := by rw [headSize, hdynamic]; rfl
      refine ⟨by simp [hv, hdynamic, hflags], ⟨_, append_assoc _ _ _, ?_⟩,
        ⟨_, append_assoc _ _ _, ?_⟩, ?_⟩
      · simp [hmore, hhead]
      · rw [AbiValue.tailSize_cons, hv, length_append, hsize, htmore]
        rfl
      · rw [AbiValue.tailSize_cons, AbiValue.sizes, hv, map_cons, sum_cons, hhead]
        simp only [if_true]
        omega
    | false =>
      obtain ⟨bytes, hbytes, -, h⟩ := (encodeElems_static_ok (e := encoder t) hdynamic).mp h
      obtain ⟨hflags, ⟨more, rfl, hmore⟩, htail, hsum⟩ := ih hlength h
      obtain ⟨hv, hhead, hsize, -⟩ := hsized.static hdynamic v bytes hbytes
      have hsame : AbiValue.tailSize (v :: values) = AbiValue.tailSize values := by
        rw [AbiValue.tailSize_cons, hv]
        simp
      refine ⟨by simp [hv, hdynamic, hflags], ⟨_, append_assoc _ _ _, ?_⟩, ?_, ?_⟩
      · simp [hmore, hhead]
      · rw [hsame]
        exact htail
      · rw [hsame, AbiValue.sizes, hv, map_cons, sum_cons, ← hhead, hsize]
        simp only [Bool.false_eq_true, if_false]
        omega

/-- **The parts of an encoded tuple**; no size has wrapped. -/
theorem encodeTuple_sized {types : List AbiType} (htypes : ∀ t ∈ types, t.Sized)
    {values : List AbiValue} {bytes : List UInt8}
    (h : encodeTuple (types.map encoder) values = .ok bytes) :
    values.length = types.length ∧ values.map AbiValue.isDynamic = types.map isDynamic ∧
    bytes.length = AbiValue.sizes values ∧ bytes.length ≤ ISIZE_MAX ∧
    ∃ head tail, bytes = head ++ tail ∧ head.length = headLen types ∧
      headLen types = (types.map headSize).sum ∧ tail.length = AbiValue.tailSize values ∧
      encodeElems (headLen types) [] [] (types.map encoder) values = .ok (head, tail) := by
  obtain ⟨_, hlength, h⟩ := bind_eq_ok.mp h
  obtain ⟨_, -, h⟩ := bind_eq_ok.mp h
  obtain ⟨⟨head, tail⟩, helems, h⟩ := bind_eq_ok.mp h
  rw [map_type_encoder] at helems
  have hlength : values.length = types.length := by
    have := guardWith_eq_ok.mp hlength
    simpa using this.symm
  obtain ⟨halloc, rfl⟩ := allocated_ok.mp h
  obtain ⟨hflags, ⟨hmore, hhead, hheadLen⟩, ⟨tmore, htail, htailLen⟩, hsum⟩ :=
    encodeElems_sized htypes hlength helems
  rw [nil_append] at hhead htail
  subst hhead htail
  rw [Nat.one_mul] at halloc
  have hlen : headLen types = (types.map headSize).sum := by
    rw [headLen_eq, Nat.mod_eq_of_lt]
    rw [length_append] at halloc
    unfold ISIZE_MAX at halloc
    omega
  refine ⟨hlength, hflags, ?_, halloc, head, tail, rfl, ?_, hlen, htailLen, helems⟩
  · rw [length_append, hheadLen, htailLen, hsum]
  · rw [hheadLen, hlen]


/-- Static values have no arrays. -/
theorem allRoomy_of_static {types : List AbiType} (htypes : ∀ t ∈ types, t.Sized)
    (hstatic : ∀ t ∈ types, t.isDynamic = false) {headLen : Nat} {head tail : List UInt8}
    {r : List UInt8 × List UInt8} {values : List AbiValue} (hlength : values.length = types.length)
    (h : encodeElems headLen head tail (types.map encoder) values = .ok r) (after : Nat) :
    AbiValue.allRoomy after values = true := by
  induction types generalizing head values with
  | nil =>
    obtain rfl := length_eq_zero_iff.mp hlength
    rfl
  | cons t types ih =>
    obtain ⟨v, values, rfl⟩ := exists_cons_of_length_eq_add_one hlength
    have ht := hstatic t (by simp)
    obtain ⟨bytes, hbytes, -, h⟩ := (encodeElems_static_ok (e := encoder t) ht).mp h
    obtain ⟨-, -, -, hroomy⟩ := (htypes t (by simp)).static ht v bytes hbytes
    rw [AbiValue.allRoomy, hroomy, Bool.true_and]
    exact ih (fun t' ht' => htypes t' (by simp [ht'])) (fun t' ht' => hstatic t' (by simp [ht']))
      (by simpa using hlength) h

theorem any_isDynamic {types : List AbiType} {values : List AbiValue}
    (h : values.map AbiValue.isDynamic = types.map isDynamic) :
    AbiValue.anyDynamic values = types.any isDynamic := by
  have hany := congrArg (fun flags => flags.any id) h
  simpa [any_map, AbiValue.anyDynamic_eq] using hany

/-- A tuple of static types: the facts about its encoding. -/
theorem sized_of_static {types : List AbiType} (htypes : ∀ t ∈ types, t.Sized)
    (hstatic : ∀ t ∈ types, t.isDynamic = false) {values : List AbiValue} {bytes : List UInt8}
    (h : encodeTuple (types.map encoder) values = .ok bytes) :
    AbiValue.anyDynamic values = false ∧ bytes.length = headLen types ∧
      bytes.length = AbiValue.sizes values ∧ ∀ after, AbiValue.allRoomy after values = true := by
  obtain ⟨hlength, hflags, hsize, -, head, tail, rfl, hhead, -, htail, helems⟩ :=
    encodeTuple_sized htypes h
  have hdynamic : AbiValue.anyDynamic values = false := by
    rw [any_isDynamic hflags, any_eq_false]
    exact fun t ht => by simp [hstatic t ht]
  have hnone : AbiValue.tailSize values = 0 := by
    rw [AbiValue.anyDynamic_eq, any_eq_false] at hdynamic
    rw [AbiValue.tailSize, sum_eq_zero_iff]
    intro n hn
    obtain ⟨v, hv, rfl⟩ := mem_map.mp hn
    rw [if_neg (hdynamic v hv)]
  refine ⟨hdynamic, ?_, hsize, allRoomy_of_static htypes hstatic hlength helems⟩
  rw [length_append, hhead, htail, hnone, Nat.add_zero]

namespace AbiType

theorem sized_fixedArray {elem : AbiType} {len : Nat} (hlen : 0 < len) (ih : elem.Sized) :
    (fixedArray elem len).Sized := by
  have htypes : ∀ t ∈ List.replicate len elem, t.Sized :=
    fun t ht => (eq_of_mem_replicate ht).symm ▸ ih
  refine ⟨fun hstatic v bytes h => ?_, fun hdynamic v bytes h => ?_⟩
  · cases v with
    | fixedArray values =>
      obtain ⟨-, -, h⟩ := encodeRepeated_ok.mp h
      have helem : elem.isDynamic = false := hstatic
      rw [headSize_fixedArray helem]
      exact sized_of_static htypes (fun t ht => (eq_of_mem_replicate ht).symm ▸ helem) h
    | _ => cases h
  · cases v with
    | fixedArray values =>
      obtain ⟨-, -, h⟩ := encodeRepeated_ok.mp h
      obtain ⟨-, hflags, hsize, -⟩ := encodeTuple_sized htypes h
      refine ⟨?_, hsize⟩
      rw [AbiValue.isDynamic, any_isDynamic hflags, any_eq_true]
      exact ⟨elem, mem_replicate.mpr ⟨hlen.ne', rfl⟩, hdynamic⟩
    | _ => cases h

theorem sized_tuple {elems : List AbiType} (ih : ∀ elem ∈ elems, elem.Sized) :
    (tuple elems).Sized := by
  refine ⟨fun hstatic v bytes h => ?_, fun hdynamic v bytes h => ?_⟩
  · cases v with
    | tuple values =>
      rw [encodeStatic, encoders_eq] at h
      rw [headSize_tuple hstatic]
      exact sized_of_static ih (fun _ => isDynamic_of_mem hstatic) h
    | _ => cases h
  · cases v with
    | tuple values =>
      rw [encodeDynamicBody, encoders_eq] at h
      obtain ⟨-, hflags, hsize, -⟩ := encodeTuple_sized ih h
      rw [isDynamic, anyDynamic_eq] at hdynamic
      exact ⟨by rw [AbiValue.isDynamic, any_isDynamic hflags, hdynamic], hsize⟩
    | _ => cases h

theorem sized {t : AbiType} (ht : t.Valid) : t.Sized := by
  induction t with
  | uint bits =>
    refine ⟨fun _ v bytes h => ?_, nofun⟩
    cases v with
    | uint value =>
      obtain ⟨_, -, h⟩ := bind_eq_ok.mp h
      rw [← Except.ok.inj h, Vector.length_toList]
      exact ⟨rfl, rfl, rfl, fun _ => rfl⟩
    | _ => cases h
  | int bits =>
    refine ⟨fun _ v bytes h => ?_, nofun⟩
    cases v with
    | int value =>
      obtain ⟨_, -, h⟩ := bind_eq_ok.mp h
      rw [← Except.ok.inj h, Vector.length_toList]
      exact ⟨rfl, rfl, rfl, fun _ => rfl⟩
    | _ => cases h
  | bool =>
    refine ⟨fun _ v bytes h => ?_, nofun⟩
    cases v with
    | bool value =>
      rw [← Except.ok.inj h]
      exact ⟨rfl, rfl, rfl, fun _ => rfl⟩
    | _ => cases h
  | address =>
    refine ⟨fun _ v bytes h => ?_, nofun⟩
    cases v with
    | address value =>
      rw [← Except.ok.inj h, Vector.length_toList]
      exact ⟨rfl, rfl, rfl, fun _ => rfl⟩
    | _ => cases h
  | bytes =>
    refine ⟨nofun, fun _ v bytes h => ?_⟩
    cases v with
    | bytes value =>
      obtain ⟨-, rfl⟩ := encodeBytes_ok.mp h
      exact ⟨rfl, by simp [AbiValue.size]⟩
    | _ => cases h
  | string =>
    refine ⟨nofun, fun _ v bytes h => ?_⟩
    cases v with
    | string value =>
      obtain ⟨-, rfl⟩ := encodeBytes_ok.mp h
      exact ⟨rfl, by simp [AbiValue.size]⟩
    | _ => cases h
  | array elem ih =>
    refine ⟨nofun, fun _ v bytes h => ?_⟩
    cases v with
    | array values =>
      obtain ⟨-, -, elems, helems, rfl⟩ := encodeArray_ok.mp h
      obtain ⟨-, -, hsize, -⟩ := encodeTuple_sized
        (fun t ht' => (eq_of_mem_replicate ht').symm ▸ ih ht) helems
      exact ⟨rfl, by simp [AbiValue.size, hsize]⟩
    | _ => cases h
  | fixedArray elem len ih => exact sized_fixedArray ht.2.1 (ih ht.1)
  | tuple elems ih => exact sized_tuple fun elem helem => ih elem helem (valid_tuple.mp ht elem helem)

end AbiType

/-! ### What the encoder writes is read back -/

namespace AbiType

/-- What the decoder makes of an encoding. -/
structure RoundTrips (t : AbiType) : Prop where
  static : t.isDynamic = false → ∀ v bytes, t.encodeStatic v = .ok bytes →
    ∃ n, t.decodeStatic bytes = .ok (v, n)
  body : t.isDynamic = true → ∀ v bytes rest, t.encodeDynamicBody v = .ok bytes →
    (bytes ++ rest).length ≤ ISIZE_MAX →
    (t.decodeDynamicBody (bytes ++ rest) = .ok (v, bytes.length) ↔ v.roomy rest.length = true)

end AbiType

theorem slice_middle {α : Type} (xs ys zs : List α) {n : Nat} (hn : ys.length = n) :
    ((xs ++ (ys ++ zs)).take (xs.length + n)).drop xs.length = ys := by
  rw [← hn, drop_take, drop_left, Nat.add_sub_cancel_left, take_left]

/-- The number of bytes that a decoder consumes is that of the encoding. -/
theorem consumed_eq {t : AbiType} (hdynamic : t.isDynamic = true) {v : AbiValue} {n : Nat}
    {bytes rest : List UInt8} (hmax : (bytes ++ rest).length ≤ ISIZE_MAX)
    (henc : t.encodeDynamicBody v = .ok bytes)
    (h : t.decodeDynamicBody (bytes ++ rest) = .ok (v, n)) : n = bytes.length := by
  obtain ⟨hle, hsame⟩ := t.canonical.body hdynamic _ v n hmax h
  rw [henc] at hsame
  have hlength := congrArg List.length (Except.ok.inj hsame)
  rw [length_take, min_eq_left hle] at hlength
  exact hlength.symm

/-- **The loops in step**: on what the encoder has written and `rest`, the decoder
returns the values exactly if their arrays are roomy. -/
theorem decodeElems_encoded {types : List AbiType} (hsized : ∀ t ∈ types, t.Sized)
    (htypes : ∀ t ∈ types, t.RoundTrips) {headLen : Nat} {head tail head' tail' rest : List UInt8}
    {values : List AbiValue} (hlength : values.length = types.length)
    (h : encodeElems headLen head tail (types.map encoder) values = .ok (head', tail'))
    (hhead : head'.length = headLen) (hmax : (head' ++ (tail' ++ rest)).length ≤ ISIZE_MAX) :
    decodeElems (head' ++ (tail' ++ rest)) head.length (headLen + tail.length)
        (types.map decoder) = .ok (values, headLen + tail'.length) ↔
      AbiValue.allRoomy rest.length values = true := by
  induction types generalizing head tail values with
  | nil =>
    obtain rfl := length_eq_zero_iff.mp hlength
    obtain ⟨rfl, rfl⟩ := ok_pair h
    exact ⟨fun _ => rfl, fun _ => rfl⟩
  | cons t types ih =>
    obtain ⟨v, values, rfl⟩ := exists_cons_of_length_eq_add_one hlength
    have hlength : values.length = types.length := by simpa using hlength
    have hsized' : ∀ t' ∈ types, t'.Sized := fun t' ht' => hsized t' (by simp [ht'])
    have ih := @ih hsized' fun t' ht' => htypes t' (by simp [ht'])
    cases hdynamic : t.isDynamic with
    | true =>
      obtain ⟨hoffset, body, hbody, -, -, h⟩ :=
        (encodeElems_dynamic_ok (e := encoder t) hdynamic).mp h
      obtain ⟨-, ⟨more, hmore, -⟩, ⟨tmore, htmore, htailSize⟩, -⟩ :=
        encodeElems_sized hsized' hlength h
      have hstep := ih hlength h
      rw [length_append, length_append, length_toBeBytes32, ← Nat.add_assoc] at hstep
      -- the data, seen from the position in the head and from that in the tail
      have hread : readU32 (head' ++ (tail' ++ rest)) head.length =
          .ok (UInt32.ofNat (headLen + tail.length)) := by
        rw [readU32_ok, hmore, append_assoc, append_assoc,
          slice_middle _ _ _ (length_toBeBytes32 _)]
        refine ⟨?_, rfl⟩
        simp only [length_append, length_toBeBytes32]
        omega
      have hdrop : (head' ++ (tail' ++ rest)).drop (headLen + tail.length) =
          body ++ (tmore ++ rest) := by
        rw [← hhead, ← drop_drop, drop_left, htmore, append_assoc, append_assoc,
          drop_left]
      have hroom : (body ++ (tmore ++ rest)).length ≤ ISIZE_MAX := by
        rw [← hdrop, length_drop]
        omega
      have htrip := (htypes t (by simp)).body hdynamic v body (tmore ++ rest) hbody hroom
      rw [length_append, htailSize] at htrip
      rw [AbiValue.allRoomy, Bool.and_eq_true, ← htrip, ← hstep, map_cons,
        decodeElems_dynamic_ok (d := decoder t) hdynamic, hdrop]
      constructor
      · rintro ⟨offset, v', n, vs, -, -, -, hv, hvs, hvalues⟩
        obtain ⟨rfl, rfl⟩ := List.cons.inj hvalues
        obtain rfl := consumed_eq hdynamic hroom hbody hv
        exact ⟨hv, hvs⟩
      · rintro ⟨hv, hvs⟩
        refine ⟨_, v, body.length, values, hread, UInt32.toNat_ofNat_of_lt' hoffset, ?_, hv, hvs, rfl⟩
        rw [length_append, length_append, htmore, length_append, length_append]
        omega
    | false =>
      obtain ⟨bytes, hbytes, -, h⟩ := (encodeElems_static_ok (e := encoder t) hdynamic).mp h
      obtain ⟨-, ⟨more, hmore, -⟩, -, -⟩ := encodeElems_sized hsized' hlength h
      obtain ⟨-, hsize, -, hroomy⟩ := (hsized t (by simp)).static hdynamic v bytes hbytes
      obtain ⟨n, hv⟩ := (htypes t (by simp)).static hdynamic v bytes hbytes
      have hstep := ih hlength h
      rw [length_append, hsize] at hstep
      have hslice : ((head' ++ (tail' ++ rest)).take (head.length + t.headSize)).drop head.length =
          bytes := by
        rw [hmore, append_assoc, append_assoc, slice_middle _ _ _ hsize]
      rw [AbiValue.allRoomy, hroomy, Bool.true_and, ← hstep, map_cons,
        decodeElems_static_ok (d := decoder t) hdynamic]
      constructor
      · rintro ⟨v', m, vs, -, -, hvs, hvalues⟩
        obtain ⟨-, rfl⟩ := List.cons.inj hvalues
        exact hvs
      · intro hvs
        refine ⟨v, n, values, ?_, by rw [show (decoder t).type = t from rfl, hslice]; exact hv, hvs, rfl⟩
        rw [hmore]
        simp only [length_append, hsize]
        exact Nat.le_trans (Nat.le_add_right _ _) (Nat.le_add_right _ _)

/-- **A tuple is read back** exactly if its arrays are roomy. -/
theorem decodeTuple_encoded {types : List AbiType} (hsized : ∀ t ∈ types, t.Sized)
    (htypes : ∀ t ∈ types, t.RoundTrips) {values : List AbiValue} {bytes : List UInt8}
    (h : encodeTuple (types.map encoder) values = .ok bytes) (rest : List UInt8)
    (hmax : (bytes ++ rest).length ≤ ISIZE_MAX) :
    decodeTuple (types.map decoder) (bytes ++ rest) = .ok (values, bytes.length) ↔
      AbiValue.allRoomy rest.length values = true := by
  obtain ⟨hlength, -, -, -, head, tail, rfl, hhead, -, -, helems⟩ := encodeTuple_sized hsized h
  rw [append_assoc] at hmax ⊢
  have hloop := decodeElems_encoded hsized htypes hlength helems hhead hmax
  have hstop : (head ++ tail).length = headLen types + tail.length := by
    rw [length_append, hhead]
  rw [← hloop, decodeTuple, bind_eq_ok, map_type_decoder, hstop]
  constructor
  · rintro ⟨_, -, h⟩
    exact h
  · intro h
    refine ⟨(), guardWith_eq_ok.mpr ?_, h⟩
    rw [length_append, hhead]
    omega

namespace AbiType

theorem decodeTuple_encoded_alone {types : List AbiType} (hsized : ∀ t ∈ types, t.Sized)
    (htypes : ∀ t ∈ types, t.RoundTrips) {values : List AbiValue} {bytes : List UInt8}
    (h : encodeTuple (types.map encoder) values = .ok bytes) :
    decodeTuple (types.map decoder) bytes = .ok (values, bytes.length) ↔
      AbiValue.allRoomy 0 values = true := by
  obtain ⟨-, -, -, hmax, -⟩ := encodeTuple_sized hsized h
  have halone := decodeTuple_encoded hsized htypes h [] (by rwa [append_nil])
  rwa [append_nil, length_nil] at halone

theorem readWord_toList (word : Digest) : readWord word.toList = .ok word :=
  readWord_ok.mpr ⟨by simp, by rw [take_of_length_le (by simp)]⟩

theorem roundTrips_uint (bits : UInt16) : (uint bits).RoundTrips := by
  refine ⟨fun _ v bytes h => ?_, nofun⟩
  cases v with
  | uint value =>
    obtain ⟨_, hrange, h⟩ := bind_eq_ok.mp h
    rw [← Except.ok.inj h]
    exact ⟨32, bind_eq_ok.mpr ⟨value, readWord_toList value,
      bind_eq_ok.mpr ⟨(), hrange, rfl⟩⟩⟩
  | _ => cases h

theorem roundTrips_int (bits : UInt16) : (int bits).RoundTrips := by
  refine ⟨fun _ v bytes h => ?_, nofun⟩
  cases v with
  | int value =>
    obtain ⟨_, hrange, h⟩ := bind_eq_ok.mp h
    rw [← Except.ok.inj h]
    refine ⟨32, bind_eq_ok.mpr ⟨value, readWord_toList value,
      bind_eq_ok.mpr ⟨(), hrange, ?_⟩⟩⟩
    rw [signExtend_of_checkIntRange (liftAbi_ok.mp hrange)]
    rfl
  | _ => cases h

theorem roundTrips_bool : bool.RoundTrips := by
  refine ⟨fun _ v bytes h => ?_, nofun⟩
  cases v with
  | bool value =>
    have hword : (digestOfBytes (boolWord value)).toList = boolWord value :=
      toList_digestOfBytes (by cases value <;> rfl)
    rw [← Except.ok.inj h, ← hword]
    refine ⟨32, bind_eq_ok.mpr ⟨_, readWord_toList _,
      bind_eq_ok.mpr ⟨(), guardWith_eq_ok.mpr ?_, ?_⟩⟩⟩
    · cases value <;> decide +kernel
    · cases value <;> rfl
  | _ => cases h

theorem roundTrips_address : address.RoundTrips := by
  refine ⟨fun _ v bytes h => ?_, nofun⟩
  cases v with
  | address value =>
    rw [← Except.ok.inj h]
    exact ⟨32, bind_eq_ok.mpr ⟨value, readWord_toList value, rfl⟩⟩
  | _ => cases h

/-- A byte string behind its length is read, whatever follows it. -/
theorem decodeBytes_encoded {value bytes rest : List UInt8} {tooLong : String}
    (h : encodeBytes value tooLong = .ok bytes) :
    decodeBytes (bytes ++ rest) = .ok (value, bytes.length) := by
  obtain ⟨hlength, rfl⟩ := encodeBytes_ok.mp h
  rw [decodeBytes_ok]
  refine ⟨hlength, by simp, by simp, ?_⟩
  rw [take_left]

theorem roundTrips_bytes : bytes.RoundTrips := by
  refine ⟨nofun, fun _ v bytes rest h _ => ?_⟩
  cases v with
  | bytes value =>
    exact ⟨fun _ => rfl, fun _ => bind_eq_ok.mpr ⟨_, decodeBytes_encoded h, rfl⟩⟩
  | _ => cases h

theorem roundTrips_string : string.RoundTrips := by
  refine ⟨nofun, fun _ v bytes rest h _ => ?_⟩
  cases v with
  | string value =>
    refine ⟨fun _ => rfl, fun _ => bind_eq_ok.mpr ⟨_, decodeBytes_encoded h, ?_⟩⟩
    refine bind_eq_ok.mpr ⟨value, ?_, rfl⟩
    rw [fromUtf8_ok.mpr rfl]
    rfl
  | _ => cases h

theorem roundTrips_array {elem : AbiType} (hsized : elem.Sized) (ih : elem.RoundTrips) :
    (array elem).RoundTrips := by
  refine ⟨nofun, fun _ v bytes rest h hmax => ?_⟩
  cases v with
  | array values =>
    obtain ⟨hcount, halloc, elems, helems, rfl⟩ := encodeArray_ok.mp h
    have hsizes : ∀ t ∈ List.replicate values.length elem, t.Sized :=
      fun t ht => (eq_of_mem_replicate ht).symm ▸ hsized
    obtain ⟨-, -, hsize, -⟩ := encodeTuple_sized hsizes helems
    have hnat := toNat_ofNat_length hcount
    rw [append_assoc] at hmax ⊢
    have htuple := decodeTuple_encoded hsizes
      (fun t ht => (eq_of_mem_replicate ht).symm ▸ ih) helems
      rest (by rw [length_append] at hmax; omega)
    have hread : readU32 (toBeBytes32 (UInt32.ofNat values.length) ++ (elems ++ rest)) 0 =
        .ok (UInt32.ofNat values.length) :=
      readU32_ok.mpr ⟨by simp, slice_middle [] _ _ (length_toBeBytes32 _)⟩
    have hdrop : (toBeBytes32 (UInt32.ofNat values.length) ++ (elems ++ rest)).drop 4 =
        elems ++ rest := drop_left' (length_toBeBytes32 _)
    have hlong : (toBeBytes32 (UInt32.ofNat values.length) ++ (elems ++ rest)).length =
        4 + elems.length + rest.length := by
      rw [length_append, length_append, length_toBeBytes32, Nat.add_assoc]
    have harray : decodeArray (decoder elem)
        (toBeBytes32 (UInt32.ofNat values.length) ++ (elems ++ rest)) =
          .ok (values, 4 + elems.length) ↔
        AbiValue.roomy rest.length (.array values) = true := by
      rw [AbiValue.roomy, Bool.and_eq_true, decide_eq_true_eq, ← htuple, decodeArray_ok, ← hsize,
        hdrop]
      constructor
      · rintro ⟨count, m, hcount', hguard, -, htuple', hm⟩
        obtain rfl := Except.ok.inj (hread.symm.trans hcount')
        obtain rfl : m = elems.length := by omega
        rw [hnat] at hguard htuple'
        rw [hlong] at hguard
        exact ⟨hguard, htuple'⟩
      · rintro ⟨hguard, htuple'⟩
        refine ⟨_, elems.length, hread, ?_, by rw [hnat]; exact halloc, by rw [hnat]; exact htuple', rfl⟩
        rw [hnat, hlong]
        exact hguard
    rw [← harray, length_append, length_toBeBytes32]
    constructor
    · intro hdecode
      obtain ⟨⟨vs, n⟩, hvs, hret⟩ := bind_eq_ok.mp hdecode
      obtain ⟨hvalues, rfl⟩ := ok_pair hret
      obtain rfl := AbiValue.array.inj hvalues
      exact hvs
    · intro hdecode
      exact bind_eq_ok.mpr ⟨_, hdecode, rfl⟩
  | _ => cases h

theorem roundTrips_fixedArray {elem : AbiType} {len : Nat} (hsized : elem.Sized)
    (ih : elem.RoundTrips) : (fixedArray elem len).RoundTrips := by
  have hsizes : ∀ t ∈ List.replicate len elem, t.Sized :=
    fun t ht => (eq_of_mem_replicate ht).symm ▸ hsized
  have htrips : ∀ t ∈ List.replicate len elem, t.RoundTrips :=
    fun t ht => (eq_of_mem_replicate ht).symm ▸ ih
  refine ⟨fun hstatic v bytes h => ?_, fun _ v bytes rest h hmax => ?_⟩
  · cases v with
    | fixedArray values =>
      obtain ⟨-, halloc, htuple⟩ := encodeRepeated_ok.mp h
      obtain ⟨-, -, -, hroomy⟩ := sized_of_static hsizes
        (fun t ht => (eq_of_mem_replicate ht).symm ▸ (show elem.isDynamic = false from hstatic))
        htuple
      have hdecode := (decodeTuple_encoded_alone hsizes htrips htuple).mpr (hroomy _)
      exact ⟨_, bind_eq_ok.mpr ⟨_, decodeRepeated_ok.mpr ⟨halloc, hdecode⟩, rfl⟩⟩
    | _ => cases h
  · cases v with
    | fixedArray values =>
      obtain ⟨-, halloc, htuple⟩ := encodeRepeated_ok.mp h
      have hdecode := decodeTuple_encoded hsizes htrips htuple rest hmax
      rw [AbiValue.roomy, ← hdecode]
      constructor
      · intro h
        obtain ⟨⟨vs, n⟩, hvs, hret⟩ := bind_eq_ok.mp h
        obtain ⟨hvalues, rfl⟩ := ok_pair hret
        rw [← AbiValue.fixedArray.inj hvalues]
        exact (decodeRepeated_ok.mp hvs).2
      · intro h
        exact bind_eq_ok.mpr ⟨_, decodeRepeated_ok.mpr ⟨halloc, h⟩, rfl⟩
    | _ => cases h

theorem roundTrips_tuple {elems : List AbiType} (hsized : ∀ elem ∈ elems, elem.Sized)
    (ih : ∀ elem ∈ elems, elem.RoundTrips) : (tuple elems).RoundTrips := by
  refine ⟨fun hstatic v bytes h => ?_, fun _ v bytes rest h hmax => ?_⟩
  · cases v with
    | tuple values =>
      rw [encodeStatic, encoders_eq] at h
      obtain ⟨-, -, -, hroomy⟩ := sized_of_static hsized (fun _ => isDynamic_of_mem hstatic) h
      have hdecode := (decodeTuple_encoded_alone hsized ih h).mpr (hroomy _)
      rw [← decoders_eq] at hdecode
      exact ⟨_, bind_eq_ok.mpr ⟨_, hdecode, rfl⟩⟩
    | _ => cases h
  · cases v with
    | tuple values =>
      rw [encodeDynamicBody, encoders_eq] at h
      have hdecode := decodeTuple_encoded hsized ih h rest hmax
      rw [AbiValue.roomy, ← hdecode, ← decoders_eq]
      constructor
      · intro h
        obtain ⟨⟨vs, n⟩, hvs, hret⟩ := bind_eq_ok.mp h
        obtain ⟨hvalues, rfl⟩ := ok_pair hret
        rw [← AbiValue.tuple.inj hvalues]
        exact hvs
      · intro h
        exact bind_eq_ok.mpr ⟨_, h, rfl⟩
    | _ => cases h

theorem roundTrips {t : AbiType} (ht : t.Valid) : t.RoundTrips := by
  induction t with
  | uint bits => exact roundTrips_uint bits
  | int bits => exact roundTrips_int bits
  | bool => exact roundTrips_bool
  | address => exact roundTrips_address
  | bytes => exact roundTrips_bytes
  | string => exact roundTrips_string
  | array elem ih => exact roundTrips_array (sized ht) (ih ht)
  | fixedArray elem len ih => exact roundTrips_fixedArray (sized ht.1) (ih ht.1)
  | tuple elems ih =>
    have hvalid := valid_tuple.mp ht
    exact roundTrips_tuple (fun elem helem => sized (hvalid elem helem))
      fun elem helem => ih elem helem (hvalid elem helem)

end AbiType

/-- **Arguments are read back** exactly if every array in them has at most as many
elements as there are bytes of calldata from its count to the end. -/
theorem decode_encoded_args_iff {params : List AbiParam} {values : List AbiValue} {bytes : List UInt8}
    (hvalid : ∀ param ∈ params, param.paramType.Valid)
    (hencode : encodeArgs params values = .ok bytes) :
    decodeArgs params bytes = .ok values ↔ AbiValue.allRoomy 0 values = true := by
  have htypes : ∀ t ∈ params.map AbiParam.paramType, t.Valid := by
    intro t ht
    obtain ⟨param, hparam, rfl⟩ := mem_map.mp ht
    exact hvalid param hparam
  have hsized : ∀ t ∈ params.map AbiParam.paramType, t.Sized := fun t ht => sized (htypes t ht)
  obtain ⟨_, -, htuple⟩ := bind_eq_ok.mp hencode
  rw [encoders_eq] at htuple
  have hdecode := decodeTuple_encoded_alone hsized (fun t ht => roundTrips (htypes t ht)) htuple
  rw [← decoders_eq] at hdecode
  rw [← hdecode, decodeArgs, bind_eq_ok]
  constructor
  · rintro ⟨⟨vs, n⟩, hvs, hret⟩
    obtain ⟨_, hall, hvalues⟩ := bind_eq_ok.mp hret
    obtain rfl : n = bytes.length := guardWith_eq_ok.mp hall
    obtain rfl := Except.ok.inj hvalues
    exact hvs
  · intro h
    exact ⟨_, h, bind_eq_ok.mpr ⟨(), guardWith_eq_ok.mpr rfl, rfl⟩⟩

/-- One array of empty tuples. -/
def emptyTuples : List AbiParam := [⟨"marks", .array (.tuple [])⟩]

theorem decode_four_empty_tuples :
    decodeArgs emptyTuples [0, 0, 0, 4, 0, 0, 0, 4] = .ok [.array (List.replicate 4 (.tuple []))] := by
  have hencode : encodeArgs emptyTuples [.array (List.replicate 4 (.tuple []))] =
      .ok [0, 0, 0, 4, 0, 0, 0, 4] := by decide
  refine (decode_encoded_args_iff ?_ hencode).mpr (by decide)
  simp [emptyTuples, Valid, AllValid]

/-- Five empty tuples are encoded and not read back: their count is larger than the
four bytes it is written in. -/
theorem five_empty_tuples_rejected :
    encodeArgs emptyTuples [.array (List.replicate 5 (.tuple []))] =
      .ok [0, 0, 0, 4, 0, 0, 0, 5] ∧
    decodeArgs emptyTuples [0, 0, 0, 4, 0, 0, 0, 5] = .error (.rejected (.unexpectedEnd 4)) ∧
    ∀ param ∈ emptyTuples, param.paramType.Valid := by
  refine ⟨by decide, by rfl, ?_⟩
  simp [emptyTuples, Valid, AllValid]

end Strangecoin
