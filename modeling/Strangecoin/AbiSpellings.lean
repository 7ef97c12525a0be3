import Strangecoin.AbiNames

/-! # What the parser of type names accepts

`ParsedAs` says what a name that is read looks like, one level at a time.  By
induction on the type: the type is valid, and its canonical name is the name
that was read exactly if no numeral in it was padded.
-/
namespace Strangecoin
open List
variable {s : List Char} {t : AbiType}

namespace AbiType

/-- The names that are read as a type. -/
inductive ParsedAs : List Char → AbiType → Prop
  | bool : ParsedAs "bool".toList .bool
  | address : ParsedAs "address".toList .address
  | bytes : ParsedAs "bytes".toList .bytes
  | string : ParsedAs "string".toList .string
  | uint {s : List Char} {bits : UInt16} (hbits : parseUnsigned (2 ^ 16) s = some bits.toNat)
      (hvalid : validateBits bits = .ok ()) : ParsedAs ("uint".toList ++ s) (.uint bits)
  | int {s : List Char} {bits : UInt16} (hbits : parseUnsigned (2 ^ 16) s = some bits.toNat)
      (hvalid : validateBits bits = .ok ()) : ParsedAs ("int".toList ++ s) (.int bits)
  | array {s : List Char} {elem : AbiType} (h : parseChars s = .ok elem) :
      ParsedAs (s ++ ['[', ']']) (.array elem)
  | fixedArray {s digits : List Char} {elem : AbiType} {len : Nat}
      (hdigits : digits.all Char.isDigit) (hlen : parseUnsigned (2 ^ 64) digits = some len)
      (hpos : 0 < len) (h : parseChars s = .ok elem) :
      ParsedAs (s ++ '[' :: (digits ++ [']'])) (.fixedArray elem len)
  | tuple {parts : List (List Char)} {elems : List AbiType}
      (h : List.Forall₂ (fun part elem => parseChars part = .ok elem) parts elems) :
      ParsedAs ('(' :: ([','].intercalate parts ++ [')'])) (.tuple elems)

section
variable {s : List Char} {t : AbiType}

theorem parsedAs_fixedArray (hlast : s.getLast? = some ']')
    (h : parseFixedArray parseChars s = .ok t) : ParsedAs s t := by
  unfold parseFixedArray at h
  split at h
  · exact absurd h nofun
  · rename_i elem rest hsplit
    obtain rfl := splitLast_some hsplit
    dsimp only at h
    split at h
    · rename_i hdigits
      split at h
      · exact absurd h nofun
      · rename_i len hlen
        split at h
        · exact absurd h nofun
        · rename_i hzero
          obtain ⟨elem', helem, rfl⟩ := map_eq_ok.mp h
          have hrest : rest = rest.dropLast ++ [']'] := by
            have hne : rest ≠ [] := by
              rintro rfl
              exact hdigits.1 rfl
            rw [getLast?_append_of_ne_nil _ (by simp), getLast?_cons_of_ne_nil hne] at hlast
            rw [← dropLast_append_getLast? _ hlast]
            simp
          rw [hrest]
          exact .fixedArray hdigits.2 hlen (by omega) helem
    · exact absurd h nofun

theorem parsedAs_tuple (hhead : s.head? = some '(') (hlast : s.getLast? = some ')')
    (h : parseTuple parseChars s = .ok t) : ParsedAs s t := by
  have hs : s = '(' :: (s.tail.dropLast ++ [')']) := by
    cases s with
    | nil => exact absurd hhead nofun
    | cons c s =>
      obtain rfl := Option.some.inj hhead
      have hne : s ≠ [] := by
        rintro rfl
        exact absurd hlast (by simp)
      rw [getLast?_cons_of_ne_nil hne] at hlast
      rw [tail_cons, dropLast_append_getLast? _ hlast]
  unfold parseTuple at h
  dsimp only at h
  split at h
  · rename_i hinner
    obtain rfl := Except.ok.inj h
    rw [hs, hinner]
    exact .tuple .nil
  · obtain ⟨elems, helems, rfl⟩ := map_eq_ok.mp h
    have hjoin := intercalate_splitParts [] [] 0 s.tail.dropLast
    rw [nil_append, nil_append, intercalate_singleton] at hjoin
    rw [hs, ← hjoin]
    exact .tuple (mapM_ok.mp helems)

theorem parseInteger_ok {make : UInt16 → AbiType} {bits : List Char}
    (h : parseInteger make s bits = .ok t) :
    ∃ n : UInt16, parseUnsigned (2 ^ 16) bits = some n.toNat ∧ validateBits n = .ok () ∧
      t = make n := by
  unfold parseInteger at h
  split at h
  · exact absurd h nofun
  · rename_i n hn
    split at h
    · rename_i hvalid
      refine ⟨UInt16.ofNat n, ?_, hvalid, (Except.ok.inj h).symm⟩
      rw [hn, UInt16.toNat_ofNat_of_lt' (parseUnsigned_eq_some.mp hn).2.2.2]
    · exact absurd h nofun

theorem parsedAs_word (h : parseWord s = .ok t) : ParsedAs s t := by
  unfold parseWord at h
  split at h
  · obtain rfl := Except.ok.inj h
    subst s
    exact .bool
  · split at h
    · obtain rfl := Except.ok.inj h
      subst s
      exact .address
    · split at h
      · obtain rfl := Except.ok.inj h
        subst s
        exact .bytes
      · split at h
        · obtain rfl := Except.ok.inj h
          subst s
          exact .string
        · split at h
          · rename_i bits hdrop
            obtain ⟨word, rfl, hword⟩ := dropPrefix?_eq_some_iff.mp hdrop
            obtain rfl := eq_of_beq hword
            obtain ⟨n, hn, hvalid, rfl⟩ := parseInteger_ok h
            exact .uint hn hvalid
          · split at h
            · rename_i bits hdrop
              obtain ⟨word, rfl, hword⟩ := dropPrefix?_eq_some_iff.mp hdrop
              obtain rfl := eq_of_beq hword
              obtain ⟨n, hn, hvalid, rfl⟩ := parseInteger_ok h
              exact .int hn hvalid
            · exact absurd h nofun

/-- **What a name that is read looks like.** -/
theorem parsedAs (h : parseChars s = .ok t) : ParsedAs s t := by
  rw [parseChars_eq, parseStep] at h
  split at h
  · rename_i inner hdrop
    obtain ⟨suffix, rfl, hsuffix⟩ := dropSuffix?_eq_some_iff.mp hdrop
    obtain rfl := eq_of_beq hsuffix
    obtain ⟨elem, helem, rfl⟩ := map_eq_ok.mp h
    exact .array helem
  · split at h
    · exact parsedAs_fixedArray ‹_› h
    · split at h
      · rename_i htuple
        exact parsedAs_tuple htuple.1 htuple.2 h
      · exact parsedAs_word h

end

/-! ### The types that are read -/

variable {elems : List AbiType} {parts : List (List Char)}

/-- What holds of every element that is read holds along the list. -/
theorem forall₂_parts {R S : List Char → AbiType → Prop} (h : List.Forall₂ R parts elems)
    (hRS : ∀ part ∈ parts, ∀ elem ∈ elems, R part elem → S part elem) :
    List.Forall₂ S parts elems := by
  induction h with
  | nil => exact .nil
  | cons hR _ ih =>
    refine .cons (hRS _ (by simp) _ (by simp) hR) (ih fun part hpart elem helem => ?_)
    exact hRS part (by simp [hpart]) elem (by simp [helem])

theorem valid_of_parseChars (h : parseChars s = .ok t) : t.Valid := by
  induction t generalizing s with
  | uint bits =>
    cases parsedAs h with
    | uint hbits hvalid => exact hvalid
  | int bits =>
    cases parsedAs h with
    | int hbits hvalid => exact hvalid
  | bool => exact trivial
  | address => exact trivial
  | bytes => exact trivial
  | string => exact trivial
  | array elem ih =>
    cases parsedAs h with
    | array h => exact ih h
  | fixedArray elem len ih =>
    cases parsedAs h with
    | fixedArray hdigits hlen hpos h => exact ⟨ih h, hpos, (parseUnsigned_eq_some.mp hlen).2.2.2⟩
  | tuple elems ih =>
    cases parsedAs h with
    | @tuple parts _ h =>
      rw [valid_tuple]
      intro elem helem
      obtain ⟨part, -, hpart⟩ := exists_of_forall₂ h helem
      exact ih elem helem hpart

/-! ### Padded numerals -/

/-- Two characters that may follow each other in a canonical name: no zero and
no plus sign starts a numeral. -/
def Unpadded (a b : Char) : Prop := ¬ (a = 't' ∧ (b = '0' ∨ b = '+')) ∧ ¬ (a = '[' ∧ b = '0')

instance (a b : Char) : Decidable (Unpadded a b) := inferInstanceAs (Decidable (_ ∧ _))

theorem unpadded_left {a b : Char} (ht : a ≠ 't') (ho : a ≠ '[') : Unpadded a b :=
  ⟨fun h => ht h.1, fun h => ho h.1⟩

theorem unpadded_right {a b : Char} (hz : b ≠ '0') (hp : b ≠ '+') : Unpadded a b :=
  ⟨fun h => h.2.elim hz hp, fun h => hz h.2⟩

theorem isChain_of_not_mem (ht : 't' ∉ s) (ho : '[' ∉ s) : s.IsChain Unpadded := by
  induction s with
  | nil => exact .nil
  | cons a s ih =>
    rw [mem_cons, not_or] at ht ho
    refine isChain_cons.mpr ⟨fun b _ => ?_, ih ht.2 ho.2⟩
    exact unpadded_left (Ne.symm ht.1) (Ne.symm ho.1)

theorem isChain_digits (n : Nat) : (Nat.toDigits 10 n).IsChain Unpadded := by
  refine isChain_of_not_mem (fun h => ?_) fun h => ?_
  · exact absurd (isDigit_toDigits h) (by decide)
  · exact absurd (isDigit_toDigits h) (by decide)

theorem isChain_intercalate :
    ([','].intercalate parts).IsChain Unpadded ↔ ∀ part ∈ parts, part.IsChain Unpadded := by
  induction parts with
  | nil => simp
  | cons p parts ih =>
    cases parts with
    | nil => simp [List.intercalate]
    | cons q parts =>
      rw [intercalate_cons_cons, append_assoc, isChain_append, singleton_append,
        isChain_cons, ih, forall_mem_cons (a := p)]
      constructor
      · rintro ⟨hp, ⟨-, hrest⟩, -⟩
        exact ⟨hp, hrest⟩
      · rintro ⟨hp, hrest⟩
        refine ⟨hp, ⟨fun y _ => unpadded_left (by decide) (by decide), hrest⟩, fun x _ y hy => ?_⟩
        obtain rfl : ',' = y := by simpa using hy
        exact unpadded_right (by decide) (by decide)

variable {n : Nat} {w : List Char}

/-- A numeral in brackets or at the end of a name. -/
theorem isChain_numeral (hw : w.IsChain Unpadded) (hn : 0 < n) :
    (w ++ Nat.toDigits 10 n).IsChain Unpadded := by
  refine isChain_append.mpr ⟨hw, isChain_digits n, fun x _ y hy => unpadded_right ?_ ?_⟩
  · rintro rfl
    exact head?_toDigits_ne hn hy
  · rintro rfl
    exact absurd (isDigit_toDigits (mem_of_head? hy)) (by decide)

theorem isChain_concat {c : Char} (hw : w.IsChain Unpadded) (hz : c ≠ '0') (hp : c ≠ '+') :
    (w ++ [c]).IsChain Unpadded := by
  refine isChain_append.mpr ⟨hw, .singleton c, fun x _ y hy => ?_⟩
  obtain rfl : c = y := by simpa using hy
  exact unpadded_right hz hp

theorem pos_of_validateBits {bits : UInt16} (h : validateBits bits = .ok ()) : 0 < bits.toNat := by
  unfold validateBits at h
  split at h
  · rename_i hbits
    have := UInt16.le_iff_toNat_le.mp hbits.1
    exact lt_of_lt_of_le (by decide) this
  · exact absurd h nofun

/-- **Canonical names have no padded numeral.** -/
theorem isChain_name (h : t.Valid) : t.name.IsChain Unpadded := by
  induction t with
  | uint bits =>
    rw [name_uint]
    exact isChain_numeral (by simp; decide) (pos_of_validateBits h)
  | int bits =>
    rw [name_int]
    exact isChain_numeral (by simp; decide) (pos_of_validateBits h)
  | bool => exact isChain_of_not_mem (s := "bool".toList) (by simp) (by simp)
  | address => exact isChain_of_not_mem (s := "address".toList) (by simp) (by simp)
  | bytes =>
    change "bytes".toList.IsChain Unpadded
    simp; decide
  | string =>
    change "string".toList.IsChain Unpadded
    simp; decide
  | array elem ih =>
    rw [name_array, ← singleton_append, ← append_assoc]
    exact isChain_concat (isChain_concat (ih h) (by decide) (by decide)) (by decide) (by decide)
  | fixedArray elem len ih =>
    rw [name_fixedArray, ← singleton_append, ← append_assoc, ← append_assoc]
    exact isChain_concat (isChain_numeral (isChain_concat (ih h.1) (by decide) (by decide)) h.2.1)
      (by decide) (by decide)
  | tuple elems ih =>
    rw [valid_tuple] at h
    rw [name_tuple]
    refine isChain_cons.mpr ⟨fun y _ => unpadded_left (by decide) (by decide), ?_⟩
    refine isChain_concat (isChain_intercalate.mpr fun part hpart => ?_) (by decide) (by decide)
    obtain ⟨elem, helem, rfl⟩ := mem_map.mp hpart
    exact ih elem helem (h elem helem)

/-- A numeral that is not padded is printed as it was read. -/
theorem toDigits_of_unpadded {bound : Nat} (h : parseUnsigned bound s = some n)
    (hz : s.head? ≠ some '0') (hp : s.head? ≠ some '+') : Nat.toDigits 10 n = s := by
  obtain ⟨hne, hdigits, rfl, -⟩ := parseUnsigned_eq_some.mp h
  have hs : unsignedDigits s = s := by
    rcases unsignedDigits_eq s with hs | hs
    · exact hs.symm
    · exact absurd (congrArg List.head? hs) hp
  rw [hs] at hne hdigits ⊢
  exact (toDigits_ofDigitChars hdigits hz hne).2

theorem toDigits_of_isChain {bound : Nat} (h : parseUnsigned bound s = some n)
    (hw : w.getLast? = some 't') (hchain : (w ++ s).IsChain Unpadded) : Nat.toDigits 10 n = s := by
  obtain ⟨-, -, hjoin⟩ := isChain_append.mp hchain
  refine toDigits_of_unpadded h (fun hz => ?_) fun hp => ?_
  · exact (hjoin _ hw _ hz).1 ⟨rfl, .inl rfl⟩
  · exact (hjoin _ hw _ hp).1 ⟨rfl, .inr rfl⟩

/-- **A name without padded numerals is canonical.** -/
theorem name_of_isChain (h : parseChars s = .ok t) (hchain : s.IsChain Unpadded) : t.name = s := by
  induction t generalizing s with
  | uint bits =>
    cases parsedAs h with
    | uint hbits hvalid => rw [name_uint, toDigits_of_isChain hbits (by simp) hchain]
  | int bits =>
    cases parsedAs h with
    | int hbits hvalid => rw [name_int, toDigits_of_isChain hbits (by simp) hchain]
  | bool =>
    cases parsedAs h
    rfl
  | address =>
    cases parsedAs h
    rfl
  | bytes =>
    cases parsedAs h
    rfl
  | string =>
    cases parsedAs h
    rfl
  | array elem ih =>
    cases parsedAs h with
    | array h => rw [name_array, ih h (isChain_append.mp hchain).1]
  | fixedArray elem len ih =>
    cases parsedAs h with
    | @fixedArray s digits _ _ hdigits hlen hpos h =>
      obtain ⟨hs, hrest, -⟩ := isChain_append.mp hchain
      have hlen : Nat.toDigits 10 len = digits := by
        refine toDigits_of_unpadded hlen (fun hz => ?_) fun hp => ?_
        · have hopen := (isChain_cons.mp hrest).1 '0' (by simp [hz])
          exact hopen.2 ⟨rfl, rfl⟩
        · exact absurd (all_eq_true.mp hdigits _ (mem_of_head? hp)) (by decide)
      rw [name_fixedArray, ih h hs, hlen]
  | tuple elems ih =>
    cases parsedAs h with
    | @tuple parts _ h =>
      have hinner := (isChain_append.mp (isChain_cons.mp hchain).2).1
      have hparts := forall₂_parts h (S := fun part elem => part = elem.name)
        fun part hmem elem helem hpart =>
          (ih elem helem hpart (isChain_intercalate.mp hinner part hmem)).symm
      rw [← forall₂_map_right_iff (R := Eq), forall₂_eq_eq_eq] at hparts
      rw [name_tuple, ← hparts]

/-- **What is read is canonical exactly if no numeral is padded.** -/
theorem parse_canonical_iff (s : String) (t : AbiType) (h : parse s = .ok t) :
    (t.canonicalName = s ↔ s.toList.IsChain Unpadded) ∧
    (s.toList.IsChain Unpadded → ∀ s' : String, s'.toList.IsChain Unpadded → parse s' = .ok t →
      s' = s) := by
  have hname : ∀ s : String, parse s = .ok t → s.toList.IsChain Unpadded → t.canonicalName = s :=
    fun s h hchain => String.toList_inj.mp (name_of_isChain h hchain)
  refine ⟨⟨fun hcanonical => ?_, hname s h⟩, fun hchain s' hchain' h' => ?_⟩
  · rw [← hcanonical]
    exact isChain_name (valid_of_parseChars h)
  · rw [← hname s' h' hchain', hname s h hchain]

theorem parse_canonical_uint8 : (AbiType.uint 8).canonicalName = "uint8" :=
  (parse_canonical_iff "uint8" (.uint 8) rfl).1.mpr (by simp; decide)

/-- **Counterexample to the parser reading canonical names only.** -/
theorem padded_width_parses : ¬ ∀ (s : String) (t : AbiType), parse s = .ok t →
    t.canonicalName = s := fun h =>
  absurd (h "uint08" (.uint 8) rfl) (by decide)

/-! ### Commas -/

mutual
/-- A type without tuples of two or more elements. -/
def Narrow : AbiType → Prop
  | .array elem | .fixedArray elem _ => elem.Narrow
  | .tuple elems => elems.length ≤ 1 ∧ AllNarrow elems
  | .uint _ | .int _ | .bool | .address | .bytes | .string => True

def AllNarrow : List AbiType → Prop
  | [] => True
  | elem :: elems => elem.Narrow ∧ AllNarrow elems
end

theorem allNarrow_iff : AllNarrow elems ↔ ∀ elem ∈ elems, elem.Narrow := by
  induction elems with
  | nil => simp [AllNarrow]
  | cons elem elems ih => simp [AllNarrow, ih]

theorem comma_mem_intercalate :
    ',' ∉ [','].intercalate parts ↔ parts.length ≤ 1 ∧ ∀ part ∈ parts, ',' ∉ part := by
  match parts with
  | [] => simp
  | [p] => simp [List.intercalate]
  | p :: q :: parts => simp [intercalate_cons_cons]

/-- **The commas of a name are those of its tuples.** -/
theorem narrow_iff : t.Narrow ↔ ',' ∉ t.name := by
  have hdigits : ∀ n, ',' ∉ Nat.toDigits 10 n := fun n h => digits_plain h (by simp)
  induction t with
  | uint bits => simp [Narrow, name_uint, hdigits]
  | int bits => simp [Narrow, name_int, hdigits]
  | bool => simp [Narrow, show name .bool = "bool".toList from rfl]
  | address => simp [Narrow, show name .address = "address".toList from rfl]
  | bytes => simp [Narrow, show name .bytes = "bytes".toList from rfl]
  | string => simp [Narrow, show name .string = "string".toList from rfl]
  | array elem ih => simp [Narrow, name_array, ih]
  | fixedArray elem len ih => simp [Narrow, name_fixedArray, ih, hdigits]
  | tuple elems ih =>
    rw [Narrow, allNarrow_iff, name_tuple]
    have hinner := @comma_mem_intercalate (elems.map name)
    rw [length_map, forall_mem_map] at hinner
    simp only [mem_cons, mem_append, hinner, not_mem_nil, or_false, not_or,
      Char.reduceEq, not_false_eq_true, true_and]
    refine and_congr_right fun _ => ?_
    exact forall₂_congr fun elem helem => ih elem helem

/-- A name without commas is read as a type without wide tuples. -/
theorem narrow_of_parseChars (h : parseChars s = .ok t) (hcomma : ',' ∉ s) : t.Narrow := by
  induction t generalizing s with
  | array elem ih =>
    cases parsedAs h with
    | array h => exact ih h fun hmem => hcomma (mem_append_left _ hmem)
  | fixedArray elem len ih =>
    cases parsedAs h with
    | fixedArray _ _ _ h => exact ih h fun hmem => hcomma (mem_append_left _ hmem)
  | tuple elems ih =>
    cases parsedAs h with
    | @tuple parts _ h =>
      have hinner : ',' ∉ [','].intercalate parts := fun hmem =>
        hcomma (mem_cons_of_mem _ (mem_append_left _ hmem))
      obtain ⟨hlength, hparts⟩ := comma_mem_intercalate.mp hinner
      refine ⟨h.length_eq ▸ hlength, allNarrow_iff.mpr fun elem helem => ?_⟩
      obtain ⟨part, hmem, hpart⟩ := exists_of_forall₂ h helem
      exact ih elem helem hpart (hparts part hmem)
  | uint bits => exact trivial
  | int bits => exact trivial
  | bool => exact trivial
  | address => exact trivial
  | bytes => exact trivial
  | string => exact trivial

end AbiType

end Strangecoin
