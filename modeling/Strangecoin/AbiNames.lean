import Strangecoin.AbiTypes

/-! # Reading and writing the names of ABI types

The parser reads every canonical name as the type it names.  It also reads names
that are not canonical: a width or an array length may have leading zeros, and a
width a plus sign (`Unpadded`).
-/
namespace Strangecoin
open List
namespace AbiType

/-! ### Types -/

/-- Induction on types: a tuple type after its elements. -/
@[elab_as_elim, induction_eliminator]
theorem induct {P : AbiType → Prop} (uint : ∀ bits, P (.uint bits)) (int : ∀ bits, P (.int bits))
    (bool : P .bool) (address : P .address) (bytes : P .bytes) (string : P .string)
    (array : ∀ elem, P elem → P (.array elem))
    (fixedArray : ∀ elem len, P elem → P (.fixedArray elem len))
    (tuple : ∀ elems, (∀ elem ∈ elems, P elem) → P (.tuple elems)) (t : AbiType) : P t :=
  match t with
  | .uint bits => uint bits
  | .int bits => int bits
  | .bool => bool
  | .address => address
  | .bytes => bytes
  | .string => string
  | .array elem =>
    array elem (induct uint int bool address bytes string array fixedArray tuple elem)
  | .fixedArray elem len =>
    fixedArray elem len (induct uint int bool address bytes string array fixedArray tuple elem)
  | .tuple elems =>
    tuple elems fun elem _ =>
      induct uint int bool address bytes string array fixedArray tuple elem
termination_by sizeOf t

mutual
/-- A type whose integer widths and array lengths are allowed. -/
def Valid : AbiType → Prop
  | .uint bits | .int bits => validateBits bits = .ok ()
  | .array elem => elem.Valid
  | .fixedArray elem len => elem.Valid ∧ 0 < len ∧ len < 2 ^ 64
  | .tuple elems => AllValid elems
  | .bool | .address | .bytes | .string => True

def AllValid : List AbiType → Prop
  | [] => True
  | elem :: elems => elem.Valid ∧ AllValid elems
end

variable {elems : List AbiType}

theorem allValid_iff : AllValid elems ↔ ∀ elem ∈ elems, elem.Valid := by
  induction elems with
  | nil => simp [AllValid]
  | cons elem elems ih => simp [AllValid, ih]

@[simp] theorem valid_tuple : (tuple elems).Valid ↔ ∀ elem ∈ elems, elem.Valid := by
  rw [Valid, allValid_iff]

/-! ### Names as characters -/

/-- The characters of the canonical name. -/
def name (t : AbiType) : List Char := t.canonicalName.toList

theorem canonicalNames_eq (elems : List AbiType) :
    canonicalNames elems = elems.map canonicalName := by
  induction elems with
  | nil => rfl
  | cons elem elems ih => rw [canonicalNames, ih, map_cons]

section
variable (bits : UInt16) (elem : AbiType) (len : Nat) (elems : List AbiType)

theorem name_uint : (uint bits).name = "uint".toList ++ Nat.toDigits 10 bits.toNat := by
  rw [name, canonicalName, String.toList_append]
  exact congrArg _ Nat.toList_repr

theorem name_int : (int bits).name = "int".toList ++ Nat.toDigits 10 bits.toNat := by
  rw [name, canonicalName, String.toList_append]
  exact congrArg _ Nat.toList_repr

theorem name_array : (array elem).name = elem.name ++ ['[', ']'] := by
  rw [name, canonicalName, String.toList_append]
  rfl

theorem name_fixedArray :
    (fixedArray elem len).name = elem.name ++ '[' :: (Nat.toDigits 10 len ++ [']']) := by
  have hlen : (toString len).toList = Nat.toDigits 10 len := Nat.toList_repr
  rw [name, canonicalName, String.toList_append, String.toList_append, String.toList_append, hlen]
  simp [name]

theorem name_tuple :
    (tuple elems).name = '(' :: ([','].intercalate (elems.map name) ++ [')']) := by
  rw [name, canonicalName, String.toList_append, String.toList_append, canonicalNames_eq,
    String.toList_intercalate, map_map]
  rfl

end

theorem name_ne_nil (t : AbiType) : t.name ≠ [] := by
  cases t with
  | uint bits => simp [name_uint]
  | int bits => simp [name_int]
  | array elem => simp [name_array]
  | fixedArray elem len => simp [name_fixedArray]
  | tuple elems => simp [name_tuple]
  | bool => decide
  | address => decide
  | bytes => decide
  | string => decide

variable {n : Nat}

theorem digits_plain {c : Char} (h : c ∈ Nat.toDigits 10 n) : c ∉ ['(', ')', '[', ']', ','] := by
  have hdigit := isDigit_toDigits h
  intro hc
  simp only [mem_cons, not_mem_nil, or_false] at hc
  rcases hc with rfl | rfl | rfl | rfl | rfl <;> exact absurd hdigit (by decide)

/-- A name is kept whole in a list of names. -/
theorem whole_name (t : AbiType) : Whole t.name := by
  have hdigits : ∀ n, Whole (Nat.toDigits 10 n) := fun n => whole_of_plain fun c => digits_plain
  induction t with
  | uint bits => exact name_uint bits ▸ (whole_of_plain (by simp)).append (hdigits _)
  | int bits => exact name_int bits ▸ (whole_of_plain (by simp)).append (hdigits _)
  | bool => exact whole_of_plain (w := "bool".toList) (by simp)
  | address => exact whole_of_plain (w := "address".toList) (by simp)
  | bytes => exact whole_of_plain (w := "bytes".toList) (by simp)
  | string => exact whole_of_plain (w := "string".toList) (by simp)
  | array elem ih =>
    rw [name_array]
    have hnil : WholeInside [] := fun _ _ _ _ => by simp
    exact ih.append (hnil.bracket (.inr rfl) (.inr rfl))
  | fixedArray elem len ih =>
    rw [name_fixedArray]
    exact ih.append ((hdigits len).inside.bracket (.inr rfl) (.inr rfl))
  | tuple elems ih =>
    rw [name_tuple]
    refine (wholeInside_intercalate ?_).bracket (.inl rfl) (.inl rfl)
    intro n hn
    obtain ⟨elem, helem, rfl⟩ := mem_map.mp hn
    exact ih elem helem

/-! ### The depth does not matter -/

section
variable {f g : List Char → Except AbiError AbiType} {s : List Char}

section
variable (h : ∀ u : List Char, u.length < s.length → f u = g u)
include h

theorem parseFixedArray_congr :
    parseFixedArray f s = parseFixedArray g s := by
  unfold parseFixedArray
  cases hs : splitLast '[' s with
  | none => rfl
  | some p =>
    have hlength := congrArg List.length (@splitLast_some p.2 _ _ p.1 hs)
    rw [length_append, length_cons] at hlength
    dsimp only
    rw [h p.1 (by omega)]

theorem parseTuple_congr :
    parseTuple f s = parseTuple g s := by
  unfold parseTuple
  dsimp only
  by_cases hinner : s.tail.dropLast = []
  · rw [if_pos hinner, if_pos hinner]
  · rw [if_neg hinner, if_neg hinner]
    refine congrArg _ (mapM_congr fun part hpart => h part ?_)
    have hlength := length_of_mem_splitParts hpart
    have hpos := length_pos_iff.mpr hinner
    simp only [not_mem_nil, length_nil, length_dropLast, length_tail,
      false_or] at hlength hpos
    omega

/-- A level of the parser asks only for shorter names. -/
theorem parseStep_congr :
    parseStep f s = parseStep g s := by
  unfold parseStep
  rw [parseFixedArray_congr h, parseTuple_congr h]
  cases hs : s.dropSuffix? ['[', ']'] with
  | none => rfl
  | some inner =>
    obtain ⟨suffix, rfl, hsuffix⟩ := dropSuffix?_eq_some_iff.mp hs
    obtain rfl := eq_of_beq hsuffix
    dsimp only
    rw [h inner (by simp)]

end

end

theorem parseDepth_eq {m : Nat} {s : List Char} (hn : s.length < n) (hm : s.length < m) :
    parseDepth n s = parseDepth m s := by
  induction n generalizing m s with
  | zero => omega
  | succ n ih =>
    cases m with
    | zero => omega
    | succ m => exact parseStep_congr fun u hu => ih (by omega) (by omega)

theorem parseChars_eq (s : List Char) : parseChars s = parseStep parseChars s :=
  parseStep_congr fun _ hu => parseDepth_eq hu (Nat.lt_succ_self _)

/-! ### Canonical names are read -/

theorem dropSuffix?_none {s : List Char} (h : s.getLast? ≠ some ']') :
    s.dropSuffix? ['[', ']'] = none := by
  rw [Option.eq_none_iff_forall_ne_some]
  intro inner hs
  obtain ⟨suffix, rfl, hsuffix⟩ := dropSuffix?_eq_some_iff.mp hs
  obtain rfl := eq_of_beq hsuffix
  exact h (by simp)

theorem parseChars_word {s : List Char} (hlast : s.getLast? ≠ some ']')
    (hhead : s.head? ≠ some '(') : parseChars s = parseWord s := by
  rw [parseChars_eq, parseStep, dropSuffix?_none hlast]
  dsimp only
  rw [if_neg hlast, if_neg fun h => hhead h.1]

variable {bits : UInt16}

theorem parseInteger_toDigits {make : UInt16 → AbiType} (s : List Char)
    (h : validateBits bits = .ok ()) :
    parseInteger make s (Nat.toDigits 10 bits.toNat) = .ok (make bits) := by
  unfold parseInteger
  rw [parseUnsigned_toDigits bits.toNat_lt]
  dsimp only
  rw [UInt16.ofNat_toNat, h]

theorem parseChars_array (elem : AbiType) (h : parseChars elem.name = .ok elem) :
    parseChars (array elem).name = .ok (.array elem) := by
  have hdrop : (array elem).name.dropSuffix? ['[', ']'] = some elem.name :=
    dropSuffix?_eq_some_iff.mpr ⟨_, name_array elem, by simp⟩
  rw [parseChars_eq, parseStep, hdrop]
  dsimp only
  rw [h]
  rfl

variable {w : List Char}

theorem dropSuffix?_bracket {w : List Char} {d : Char} (h : d ≠ '[') :
    (w ++ [d, ']']).dropSuffix? ['[', ']'] = none := by
  rw [Option.eq_none_iff_forall_ne_some]
  intro inner hs
  obtain ⟨suffix, heq, hsuffix⟩ := dropSuffix?_eq_some_iff.mp hs
  obtain rfl := eq_of_beq hsuffix
  have hends := (append_inj' heq rfl).2
  exact h (by simpa using hends)

theorem parseChars_fixedArray {elem : AbiType} {len : Nat} (h : parseChars elem.name = .ok elem)
    (hpos : 0 < len) (hlt : len < 2 ^ 64) :
    parseChars (fixedArray elem len).name = .ok (.fixedArray elem len) := by
  have hdrop : (fixedArray elem len).name.dropSuffix? ['[', ']'] = none := by
    -- before the last bracket stands a digit
    obtain hnil | ⟨digits, d, hdigits⟩ := eq_nil_or_concat (Nat.toDigits 10 len)
    · exact absurd hnil Nat.toDigits_ne_nil
    · have hd : d.isDigit = true := isDigit_toDigits (n := len) (by simp [hdigits])
      have hname : (fixedArray elem len).name = (elem.name ++ '[' :: digits) ++ [d, ']'] := by
        rw [name_fixedArray, hdigits]
        simp
      rw [hname]
      refine dropSuffix?_bracket ?_
      rintro rfl
      exact absurd hd (by decide)
  have hlast : (fixedArray elem len).name.getLast? = some ']' := by
    rw [name_fixedArray, ← cons_append, ← append_assoc, getLast?_concat]
  have hsplit : splitLast '[' (fixedArray elem len).name =
      some (elem.name, Nat.toDigits 10 len ++ [']']) := by
    rw [name_fixedArray]
    refine splitLast_append _ fun hmem => ?_
    rw [mem_append, mem_singleton] at hmem
    exact hmem.elim (fun hc => digits_plain hc (by simp)) (by decide)
  have hall : (Nat.toDigits 10 len).all Char.isDigit :=
    all_eq_true.mpr fun _ hc => isDigit_toDigits hc
  rw [parseChars_eq, parseStep, hdrop]
  dsimp only
  rw [if_pos hlast, parseFixedArray, hsplit]
  dsimp only
  rw [dropLast_concat, if_pos ⟨Nat.toDigits_ne_nil, hall⟩, parseUnsigned_toDigits hlt]
  dsimp only
  rw [if_neg (by omega), h]
  rfl

theorem mapM_parseChars (h : ∀ elem ∈ elems, parseChars elem.name = .ok elem) :
    (elems.map name).mapM parseChars = .ok elems := by
  rw [mapM_ok, forall₂_map_left_iff, forall₂_same]
  exact h

theorem parseChars_tuple (h : ∀ elem ∈ elems, parseChars elem.name = .ok elem) :
    parseChars (tuple elems).name = .ok (.tuple elems) := by
  have hlast : (tuple elems).name.getLast? = some ')' := by
    rw [name_tuple, ← cons_append, getLast?_concat]
  have hhead : (tuple elems).name.head? = some '(' := by
    rw [name_tuple, head?_cons]
  have hinner : (tuple elems).name.tail.dropLast = [','].intercalate (elems.map name) := by
    rw [name_tuple, tail_cons, dropLast_concat]
  rw [parseChars_eq, parseStep, dropSuffix?_none (by simp [hlast])]
  dsimp only
  rw [if_neg (by simp [hlast]), if_pos ⟨hhead, hlast⟩, parseTuple, hinner]
  by_cases hnil : elems = []
  · subst hnil
    rfl
  · have hne : [','].intercalate (elems.map name) ≠ [] := by
      obtain ⟨elem, rest, rfl⟩ := exists_cons_of_ne_nil hnil
      cases rest with
      | nil => simpa [List.intercalate] using name_ne_nil elem
      | cons elem' rest => simp [intercalate_cons_cons, name_ne_nil]
    have hwhole : ∀ n ∈ elems.map name, Whole n := by
      intro n hn
      obtain ⟨elem, -, rfl⟩ := mem_map.mp hn
      exact whole_name elem
    rw [if_neg hne, splitParts_intercalate hwhole (by simpa using hnil), nil_append,
      mapM_parseChars h]
    rfl

theorem getLast?_append_digits : (w ++ Nat.toDigits 10 n).getLast? ≠ some ']' := by
  intro h
  have hne : Nat.toDigits 10 n ≠ [] := Nat.toDigits_ne_nil
  rw [getLast?_append_of_ne_nil _ hne] at h
  exact digits_plain (mem_of_getLast? h) (by simp)

theorem parseChars_uint (h : validateBits bits = .ok ()) :
    parseChars (uint bits).name = .ok (.uint bits) := by
  rw [name_uint, parseChars_word getLast?_append_digits (by simp)]
  have hdrop : ("uint".toList ++ Nat.toDigits 10 bits.toNat).dropPrefix? "uint".toList =
      some (Nat.toDigits 10 bits.toNat) := dropPrefix?_eq_some_iff.mpr ⟨_, rfl, by simp⟩
  unfold parseWord
  rw [if_neg (by simp), if_neg (by simp), if_neg (by simp), if_neg (by simp), hdrop]
  exact parseInteger_toDigits _ h

theorem parseChars_int (h : validateBits bits = .ok ()) :
    parseChars (int bits).name = .ok (.int bits) := by
  rw [name_int, parseChars_word getLast?_append_digits (by simp)]
  have hdrop : ("int".toList ++ Nat.toDigits 10 bits.toNat).dropPrefix? "int".toList =
      some (Nat.toDigits 10 bits.toNat) := dropPrefix?_eq_some_iff.mpr ⟨_, rfl, by simp⟩
  have huint : ("int".toList ++ Nat.toDigits 10 bits.toNat).dropPrefix? "uint".toList = none := by
    simp [List.dropPrefix?]
  unfold parseWord
  rw [if_neg (by simp), if_neg (by simp), if_neg (by simp), if_neg (by simp), huint]
  dsimp only
  rw [hdrop]
  exact parseInteger_toDigits _ h

/-- **A canonical name is read as the type it names.** -/
theorem parseChars_name {t : AbiType} (h : t.Valid) : parseChars t.name = .ok t := by
  have hword : ∀ {s : String}, s ∈ ["bool", "address", "bytes", "string"] →
      parseChars s.toList = parseWord s.toList := by
    intro s hs
    simp only [mem_cons, not_mem_nil, or_false] at hs
    rcases hs with rfl | rfl | rfl | rfl <;> exact parseChars_word (by simp) (by simp)
  induction t with
  | uint bits => exact parseChars_uint h
  | int bits => exact parseChars_int h
  | bool => exact hword (s := "bool") (by simp)
  | address => exact (hword (s := "address") (by simp)).trans (by simp [parseWord])
  | bytes => exact (hword (s := "bytes") (by simp)).trans (by simp [parseWord])
  | string => exact (hword (s := "string") (by simp)).trans (by simp [parseWord])
  | array elem ih => exact parseChars_array elem (ih h)
  | fixedArray elem len ih => exact parseChars_fixedArray (ih h.1) h.2.1 h.2.2
  | tuple elems ih =>
    rw [valid_tuple] at h
    exact parseChars_tuple fun elem helem => ih elem helem (h elem helem)

/-! ### Signatures -/

/-- One character of a scan from the right, with the number of parentheses to be opened. -/
def openedBy (c : Char) (closed : Option Nat) : Option Nat :=
  if c = ')' then closed.map (· + 1)
  else if c = '(' then closed.bind fun n => if n = 0 then none else some (n - 1)
  else closed

/-- A text that opens the parentheses it closes. -/
def Balanced (w : List Char) : Prop := ∀ n, w.foldr openedBy (some n) = some n

theorem Balanced.append {v : List Char} (hv : Balanced v) (hw : Balanced w) :
    Balanced (v ++ w) := by
  intro n
  rw [foldr_append, hw, hv]

theorem balanced_of_plain (h : ∀ c ∈ w, c ≠ '(' ∧ c ≠ ')') : Balanced w := by
  intro n
  induction w with
  | nil => rfl
  | cons c w ih =>
    obtain ⟨⟨hopen, hclose⟩, hw⟩ := forall_mem_cons.mp h
    rw [foldr_cons, ih hw, openedBy, if_neg hclose, if_neg hopen]

theorem balanced_intercalate {names : List (List Char)} (h : ∀ w ∈ names, Balanced w) :
    Balanced ([','].intercalate names) := by
  match names with
  | [] => exact fun _ => rfl
  | [w] => simpa [intercalate] using h
  | w :: w' :: names =>
    rw [intercalate_cons_cons]
    have hw := h w mem_cons_self
    exact (hw.append (balanced_of_plain (by simp))).append
      (balanced_intercalate fun v hv => h v (mem_cons_of_mem _ hv))

theorem balanced_name (t : AbiType) : Balanced t.name := by
  have hdigits : ∀ n, Balanced (Nat.toDigits 10 n) := fun n => balanced_of_plain fun c hc =>
    ⟨fun h => digits_plain hc (by simp [h]), fun h => digits_plain hc (by simp [h])⟩
  induction t with
  | uint bits => exact name_uint bits ▸ (balanced_of_plain (by simp)).append (hdigits _)
  | int bits => exact name_int bits ▸ (balanced_of_plain (by simp)).append (hdigits _)
  | bool => exact balanced_of_plain (w := "bool".toList) (by simp)
  | address => exact balanced_of_plain (w := "address".toList) (by simp)
  | bytes => exact balanced_of_plain (w := "bytes".toList) (by simp)
  | string => exact balanced_of_plain (w := "string".toList) (by simp)
  | array elem ih => exact name_array elem ▸ ih.append (balanced_of_plain (by simp))
  | fixedArray elem len ih =>
    rw [name_fixedArray, ← singleton_append]
    exact ih.append ((balanced_of_plain (by simp)).append
      ((hdigits len).append (balanced_of_plain (by simp))))
  | tuple elems ih =>
    intro n
    have hinner := balanced_intercalate (forall_mem_map.mpr ih) (n + 1)
    rw [name_tuple, foldr_cons, foldr_append]
    change openedBy '(' (foldr openedBy (some (n + 1)) _) = some n
    rw [hinner]
    rfl

/-- Of a parameter only the type is in the signature. -/
def methodSignature (name : String) (params : List AbiType) : String :=
  name ++ "(" ++ ",".intercalate (params.map canonicalName) ++ ")"

theorem toList_methodSignature (f : String) (params : List AbiType) :
    (methodSignature f params).toList = f.toList ++ (tuple params).name := by
  rw [methodSignature, name_tuple]
  simp [String.toList_intercalate, Function.comp_def]
  rfl

/-- The last parenthesis that is not closed before the end starts the parameters. -/
theorem params_start {u v inner inner' : List Char} (h : Balanced inner)
    (heq : u ++ '(' :: inner = v ++ '(' :: inner') (h' : Balanced inner') : u = v := by
  have hno : ∀ {a w w' : List Char}, Balanced w → Balanced w' → w ≠ a ++ '(' :: w' := by
    rintro a w w' hw hw' rfl
    have hnone : ∀ a : List Char, foldr openedBy none a = none := by
      intro a
      induction a with
      | nil => rfl
      | cons c a ih =>
        rw [foldr_cons, ih, openedBy]
        split <;> [rfl; split <;> rfl]
    have h0 := hw 0
    rw [foldr_append, foldr_cons, hw' 0] at h0
    exact absurd ((hnone a).symm.trans h0) nofun
  rcases append_eq_append_iff.mp heq with ⟨a, rfl, ha⟩ | ⟨a, rfl, ha⟩
  · cases a with
    | nil => simp
    | cons c a => exact absurd (cons.inj ha).2 (hno h h')
  · cases a with
    | nil => simp
    | cons c a => exact absurd (cons.inj ha).2 (hno h' h)

/-- **Canonical names are read back**, so types and signatures are told apart by them. -/
theorem type_names_parse_back :
    (∀ t : AbiType, t.Valid → parse t.canonicalName = .ok t) ∧
    (∀ t u : AbiType, t.Valid → u.Valid → t.canonicalName = u.canonicalName → t = u) ∧
    ∀ (f g : String) (ts us : List AbiType), (∀ t ∈ ts, t.Valid) → (∀ u ∈ us, u.Valid) →
      methodSignature f ts = methodSignature g us → f = g ∧ ts = us := by
  have hinj : ∀ t u : AbiType, t.Valid → u.Valid → t.name = u.name → t = u := by
    intro t u ht hu h
    have hparsed := parseChars_name ht
    rw [h, parseChars_name hu] at hparsed
    exact (Except.ok.inj hparsed).symm
  refine ⟨fun t => parseChars_name, fun t u ht hu h => hinj t u ht hu (congrArg String.toList h),
    fun f g ts us hts hus h => ?_⟩
  have hinner : ∀ params : List AbiType, Balanced ([','].intercalate (params.map name)) :=
    fun params => balanced_intercalate (forall_mem_map.mpr fun t _ => balanced_name t)
  have hchars := congrArg String.toList h
  rw [toList_methodSignature, toList_methodSignature] at hchars
  have hname : f.toList = g.toList := by
    rw [name_tuple, name_tuple, ← cons_append, ← cons_append, ← append_assoc, ← append_assoc]
      at hchars
    exact params_start (hinner ts) (append_cancel_right hchars) (hinner us)
  rw [hname] at hchars
  have htuple := hinj _ _ (valid_tuple.mpr hts) (valid_tuple.mpr hus) (append_cancel_left hchars)
  exact ⟨String.toList_inj.mp hname, tuple.inj htuple⟩

theorem type_names_parse_back_nested :
    parse "(uint8[2],())[]" = .ok (.array (.tuple [.fixedArray (.uint 8) 2, .tuple []])) :=
  type_names_parse_back.1 (.array (.tuple [.fixedArray (.uint 8) 2, .tuple []]))
    (by simp [Valid, AllValid]; decide)

end AbiType

end Strangecoin
