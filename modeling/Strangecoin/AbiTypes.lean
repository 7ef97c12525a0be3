import Strangecoin.Decimals
import Strangecoin.Serialize

/-! # ABI types and their names

`AbiType::parse` reads the name that `canonical_name` writes.  Names nest: an
array type ends in its brackets, a tuple type lists its element names between
parentheses, and the commas between them are told from those of nested tuples
by counting brackets.
-/
namespace Strangecoin
open List

/-- The errors of the ABI codec. -/
inductive AbiError where
  | arityMismatch (expected got : Nat)
  | typeMismatch (expected got : String)
  | invalidBits (bits : UInt16)
  | invalidValue (reason : String)
  | unexpectedEnd (at_ : Nat)
  | trailingData (at_ remaining : Nat)
  | invalidOffset (offset : UInt32) (bound : Nat)
  | nonCanonicalOffset (expected got : UInt32)
  | invalidUtf8
  | invalidType (found : String)
deriving DecidableEq, Repr

/-- An integer width: 8 to 256, a multiple of 8. -/
def validateBits (bits : UInt16) : Except AbiError Unit :=
  if 8 ≤ bits ∧ bits ≤ 256 ∧ bits % 8 = 0 then .ok () else .error (.invalidBits bits)

namespace AbiType

/-! ### Parsing -/

def invalid (s : List Char) : AbiError := .invalidType (String.ofList s)

/-- The text before and after the last occurrence of a character (`rfind`). -/
def splitLast (ch : Char) : List Char → Option (List Char × List Char)
  | [] => none
  | c :: s =>
    match splitLast ch s with
    | some (before, after) => some (c :: before, after)
    | none => if c = ch then some ([], s) else none

/-- The bracket depth after a character. -/
def depthAfter (depth : Nat) (ch : Char) : Nat :=
  if ch = '(' ∨ ch = '[' then depth + 1
  else if ch = ')' ∨ ch = ']' then depth - 1
  else depth

/-- The loop over the characters between the parentheses of a tuple: the parts
found so far, the part at hand and the depth. -/
def splitParts (parts : List (List Char)) (part : List Char) (depth : Nat) :
    List Char → List (List Char)
  | [] => parts ++ [part]
  | ch :: s =>
    if ch = ',' ∧ depth = 0 then splitParts (parts ++ [part]) [] depth s
    else splitParts parts (part ++ [ch]) (depthAfter depth ch) s

section
variable (parse : List Char → Except AbiError AbiType)

/-- A name that ends in a bracket, other than `[]`. -/
def parseFixedArray (s : List Char) : Except AbiError AbiType :=
  match splitLast '[' s with
  | none => .error (invalid s)
  | some (elem, rest) =>
    let digits := rest.dropLast
    if digits ≠ [] ∧ digits.all Char.isDigit then
      match parseUnsigned (2 ^ 64) digits with
      | none => .error (invalid s)
      | some len =>
        if len = 0 then .error (invalid s) else (parse elem).map fun elem => .fixedArray elem len
    else .error (invalid s)

/-- A name between parentheses. -/
def parseTuple (s : List Char) : Except AbiError AbiType :=
  let inner := s.tail.dropLast
  if inner = [] then .ok (.tuple [])
  else ((splitParts [] [] 0 inner).mapM parse).map .tuple

/-- The width after `uint` or `int`. -/
def parseInteger (make : UInt16 → AbiType) (s bits : List Char) : Except AbiError AbiType :=
  match parseUnsigned (2 ^ 16) bits with
  | none => .error (invalid s)
  | some n =>
    match validateBits (UInt16.ofNat n) with
    | .ok _ => .ok (make (UInt16.ofNat n))
    | .error _ => .error (invalid s)

/-- A name without brackets. -/
def parseWord (s : List Char) : Except AbiError AbiType :=
  if s = "bool".toList then .ok .bool
  else if s = "address".toList then .ok .address
  else if s = "bytes".toList then .ok .bytes
  else if s = "string".toList then .ok .string
  else
    match s.dropPrefix? "uint".toList with
    | some bits => parseInteger .uint s bits
    | none =>
      match s.dropPrefix? "int".toList with
      | some bits => parseInteger .int s bits
      | none => .error (invalid s)

/-- One level of `AbiType::parse`, with the parser of the names inside. -/
def parseStep (s : List Char) : Except AbiError AbiType :=
  match s.dropSuffix? ['[', ']'] with
  | some inner => (parse inner).map .array
  | none =>
    if s.getLast? = some ']' then parseFixedArray parse s
    else if s.head? = some '(' ∧ s.getLast? = some ')' then parseTuple parse s
    else parseWord s

end

/-- The parser to a nesting depth. -/
def parseDepth : Nat → List Char → Except AbiError AbiType
  | 0, s => .error (invalid s)
  | depth + 1, s => parseStep (parseDepth depth) s

/-- The parser on characters: a name is longer than the names inside it. -/
def parseChars (s : List Char) : Except AbiError AbiType := parseDepth (s.length + 1) s

def parse (s : String) : Except AbiError AbiType := parseChars s.toList

/-! ### The loops -/

variable {after s : List Char} {ch : Char}

theorem splitLast_some {before : List Char} (h : splitLast ch s = some (before, after)) :
    s = before ++ ch :: after := by
  induction s generalizing before with
  | nil => exact absurd h nofun
  | cons c s ih =>
    unfold splitLast at h
    split at h
    · rename_i before' after' hs
      obtain ⟨rfl, rfl⟩ := Prod.mk.inj (Option.some.inj h)
      rw [ih hs]
      rfl
    · split at h
      · rename_i hc
        obtain ⟨rfl, rfl⟩ := Prod.mk.inj (Option.some.inj h)
        rw [hc]
        rfl
      · exact absurd h nofun

theorem splitLast_none (h : ch ∉ s) : splitLast ch s = none := by
  induction s with
  | nil => rfl
  | cons c s ih =>
    rw [mem_cons, not_or] at h
    rw [splitLast, ih h.2, if_neg (Ne.symm h.1)]

theorem splitLast_append (before : List Char) (h : ch ∉ after) :
    splitLast ch (before ++ ch :: after) = some (before, after) := by
  induction before with
  | nil => simp [splitLast, splitLast_none h]
  | cons c before ih => simp [splitLast, ih]

theorem intercalate_merge (parts : List (List Char)) (a b : List Char) :
    [','].intercalate (parts ++ [a, b]) = [','].intercalate (parts ++ [a ++ ',' :: b]) := by
  induction parts with
  | nil => simp [List.intercalate]
  | cons p parts ih =>
    cases parts with
    | nil => simp [List.intercalate]
    | cons q parts =>
      rw [cons_append, cons_append, intercalate_cons_cons, ← cons_append, ih,
        cons_append, cons_append, cons_append, intercalate_cons_cons]

theorem intercalate_splitParts (parts : List (List Char)) (part : List Char) (depth : Nat)
    (s : List Char) :
    [','].intercalate (splitParts parts part depth s) = [','].intercalate (parts ++ [part ++ s]) := by
  induction s generalizing parts part depth with
  | nil => rw [splitParts, append_nil]
  | cons ch s ih =>
    rw [splitParts]
    split
    · rename_i hcomma
      rw [ih, append_assoc, singleton_append, nil_append, intercalate_merge, hcomma.1]
    · rw [ih, append_assoc, singleton_append]

theorem length_of_mem_splitParts {parts : List (List Char)} {part : List Char} {depth : Nat}
    {p : List Char} (h : p ∈ splitParts parts part depth s) :
    p ∈ parts ∨ p.length ≤ part.length + s.length := by
  induction s generalizing parts part depth with
  | nil =>
    rw [splitParts, mem_append, mem_singleton] at h
    exact h.imp_right fun hp => by simp [hp]
  | cons ch s ih =>
    rw [splitParts] at h
    split at h
    · rcases ih h with hp | hp
      · rw [mem_append, mem_singleton] at hp
        exact hp.imp_right fun hp => by simp [hp]
      · rw [length_nil] at hp
        rw [length_cons]
        exact .inr (by omega)
    · refine (ih h).imp_right fun hp => ?_
      rw [length_append, length_singleton] at hp
      rw [length_cons]
      omega

/-- A text the split keeps whole. -/
def Whole (w : List Char) : Prop :=
  ∀ parts part depth s,
    splitParts parts part depth (w ++ s) = splitParts parts (part ++ w) depth s

/-- A text the split keeps whole between brackets. -/
def WholeInside (w : List Char) : Prop :=
  ∀ parts part depth s,
    splitParts parts part (depth + 1) (w ++ s) = splitParts parts (part ++ w) (depth + 1) s

variable {w : List Char}

theorem Whole.inside (h : Whole w) : WholeInside w :=
  fun parts part depth s => h parts part (depth + 1) s

theorem Whole.append {v : List Char} (hv : Whole v) (hw : Whole w) : Whole (v ++ w) := by
  intro parts part depth s
  rw [append_assoc, hv, hw, append_assoc]

theorem WholeInside.append {v : List Char} (hv : WholeInside v) (hw : WholeInside w) :
    WholeInside (v ++ w) := by
  intro parts part depth s
  rw [append_assoc, hv, hw, append_assoc]

theorem whole_of_plain (h : ∀ c ∈ w, c ∉ ['(', ')', '[', ']', ',']) : Whole w := by
  induction w with
  | nil => exact fun _ _ _ _ => by simp
  | cons c w ih =>
    intro parts part depth s
    have hc := h c (by simp)
    simp only [mem_cons, not_mem_nil, or_false, not_or] at hc
    obtain ⟨hopen, hclose, hopen', hclose', hcomma⟩ := hc
    rw [cons_append, splitParts, if_neg (fun h => hcomma h.1),
      ih (fun c' hc' => h c' (by simp [hc'])), append_assoc, singleton_append]
    congr 1
    simp [depthAfter, hopen, hclose, hopen', hclose']

theorem wholeInside_comma : WholeInside [','] := by
  intro parts part depth s
  rw [singleton_append, splitParts, if_neg (by omega)]
  rfl

theorem WholeInside.bracket {o c : Char}
    (ho : o = '(' ∨ o = '[')
    (hc : c = ')' ∨ c = ']') (h : WholeInside w) : Whole (o :: (w ++ [c])) := by
  intro parts part depth s
  have hopen : depthAfter depth o = depth + 1 := if_pos ho
  have hclose : depthAfter (depth + 1) c = depth := by
    rcases hc with rfl | rfl <;> rfl
  have hne : o ≠ ',' ∧ c ≠ ',' := by
    rcases ho with rfl | rfl <;> rcases hc with rfl | rfl <;> decide
  rw [cons_append, splitParts, if_neg (fun hcomma => hne.1 hcomma.1), hopen,
    append_assoc, h, singleton_append, splitParts, if_neg (fun hcomma => hne.2 hcomma.1),
    hclose]
  simp

variable {names : List (List Char)}

theorem wholeInside_intercalate (h : ∀ n ∈ names, Whole n) :
    WholeInside ([','].intercalate names) := by
  induction names with
  | nil => exact fun _ _ _ _ => by simp
  | cons n names ih =>
    cases names with
    | nil => simpa [List.intercalate] using (h n (by simp)).inside
    | cons n' names =>
      rw [intercalate_cons_cons]
      exact ((h n (by simp)).inside.append wholeInside_comma).append
        (ih fun m hm => h m (by simp [hm]))

/-- Names that are kept whole are the parts of their list. -/
theorem splitParts_intercalate (h : ∀ n ∈ names, Whole n) (hne : names ≠ [])
    (parts : List (List Char)) :
    splitParts parts [] 0 ([','].intercalate names) = parts ++ names := by
  induction names generalizing parts with
  | nil => exact absurd rfl hne
  | cons n names ih =>
    have hn := h n (by simp)
    cases names with
    | nil =>
      have hlast := hn parts [] 0 []
      simpa [List.intercalate, splitParts] using hlast
    | cons n' names =>
      rw [intercalate_cons_cons, append_assoc, hn, nil_append, singleton_append,
        splitParts, if_pos ⟨rfl, rfl⟩, ih (fun m hm => h m (by simp [hm])) (by simp)]
      simp

end AbiType

end Strangecoin
