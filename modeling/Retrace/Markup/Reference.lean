import Retrace.Text

/-!
# Characters and references of markup

The characters that may stand in a markup document, in its names and between its tags.

Text and attribute values may name characters by references: by number, in decimal or hexadecimal
digits, or by one of five names. The ends of lines are made uniform, but a carriage return that a
reference names stays one.
-/
namespace Retrace.Markup

/-! ## Character classes -/

/-- Whether a character separates the parts of a tag. -/
def isSpace (char : Char) : Bool :=
  char == ' ' || char == '\t' || char == '\n' || char == '\r'

/-- Whether a character may stand in a document at all. -/
def isLegal (char : Char) : Bool :=
  if char.toNat < 0x20 then isSpace char else char.toNat != 0xFFFE && char.toNat != 0xFFFF

/-- Ranges of code points that can start a name, in ascending order. -/
def nameStartRanges : List (Nat × Nat) :=
  [(0x3A, 0x3A), (0x41, 0x5A), (0x5F, 0x5F), (0x61, 0x7A), (0xC0, 0xD6), (0xD8, 0xF6),
    (0xF8, 0x2FF), (0x370, 0x37D), (0x37F, 0x1FFF), (0x200C, 0x200D), (0x2070, 0x218F),
    (0x2C00, 0x2FEF), (0x3001, 0xD7FF), (0xF900, 0xFDCF), (0xFDF0, 0xFFFD), (0x10000, 0xEFFFF)]

/-- Ranges of code points that can stand in a name but not start one, in ascending order. -/
def nameRestRanges : List (Nat × Nat) :=
  [(0x2D, 0x2E), (0x30, 0x39), (0xB7, 0xB7), (0x300, 0x36F), (0x203F, 0x2040)]

/-- Whether the code point of a character lies in one of the ranges. -/
def inRanges (ranges : List (Nat × Nat)) (char : Char) : Bool :=
  ranges.any fun (low, high) => decide (low ≤ char.toNat) && decide (char.toNat ≤ high)

/-- Whether a character can start a name. -/
def isNameStart (char : Char) : Bool := inRanges nameStartRanges char

/-- Whether a character can stand in a name. -/
def isNamePart (char : Char) : Bool := isNameStart char || inRanges nameRestRanges char

/-! ## References -/

/-- The characters that have a name. -/
def namedChars : List (String × Char) :=
  [("quot", '"'), ("amp", '&'), ("apos", '\''), ("lt", '<'), ("gt", '>')]

/-- Value of a hexadecimal digit, if it is one. -/
def hexValue? (char : Char) : Option Nat :=
  if char.isDigit then some (char.toNat - '0'.toNat)
  else if 'a' ≤ char ∧ char ≤ 'f' then some (char.toNat - 'a'.toNat + 10)
  else if 'A' ≤ char ∧ char ≤ 'F' then some (char.toNat - 'A'.toNat + 10)
  else none

/-- Value of a decimal digit, if it is one. -/
def decimalValue? (char : Char) : Option Nat :=
  if char.isDigit then some (char.toNat - '0'.toNat) else none

/-- The character with a number. A number of 32 bits that is no character stands for U+FFFD, and
a character that may not stand in a document has no reference. -/
def charOf? (code : Nat) : Option Char :=
  if code ≤ 0xFFFFFFFF then
    let char := if code.isValidChar then Char.ofNat code else '\uFFFD'
    if isLegal char then some char else none
  else none

/-- A number in digits and the semicolon after it, and the text after that. -/
def numberReference? (base : Nat) (value? : Char → Option Nat) (text : List Char) :
    Option (Char × List Char) :=
  let digits := text.takeWhile fun char => (value? char).isSome
  match text.dropWhile fun char => (value? char).isSome with
  | ';' :: rest =>
    if digits.isEmpty then none
    else
      let code := digits.foldl (fun code digit => base * code + (value? digit).getD 0) 0
      (charOf? code).map (·, rest)
  | _ => none

/-- A name and the semicolon after it, and the text after that. -/
def nameReference? (text : List Char) : Option (Char × List Char) :=
  match text.dropWhile isNamePart with
  | ';' :: rest => (namedChars.lookup (String.ofList (text.takeWhile isNamePart))).map (·, rest)
  | _ => none

/-- The character that a reference stands for, and the text after the reference. The ampersand is
not part of `text`. -/
def reference? : List Char → Option (Char × List Char)
  | '#' :: 'x' :: text => numberReference? 16 hexValue? text
  | '#' :: text => numberReference? 10 decimalValue? text
  | text => nameReference? text

/-- What follows a number is shorter than the text with it. -/
theorem length_numberReference?_lt {base : Nat} {value? : Char → Option Nat} {text : List Char}
    {answer : Char × List Char} (h : numberReference? base value? text = some answer) :
    answer.2.length < text.length := by
  simp only [numberReference?] at h
  split at h
  · rename_i rest found
    have shorter := found ▸ Text.length_dropWhile_le (fun char => (value? char).isSome) text
    simp only [List.length_cons] at shorter
    split at h
    · simp at h
    · obtain ⟨char, -, rfl⟩ := Option.map_eq_some_iff.1 h
      exact shorter
  · simp at h

/-- What follows a name is shorter than the text with it. -/
theorem length_nameReference?_lt {text : List Char} {answer : Char × List Char}
    (h : nameReference? text = some answer) : answer.2.length < text.length := by
  simp only [nameReference?] at h
  split at h
  · rename_i rest found
    have shorter := found ▸ Text.length_dropWhile_le isNamePart text
    simp only [List.length_cons] at shorter
    obtain ⟨char, -, rfl⟩ := Option.map_eq_some_iff.1 h
    exact shorter
  · simp at h

/-- What follows a reference is shorter than the text with it. -/
theorem length_reference?_lt {text : List Char} {answer : Char × List Char}
    (h : reference? text = some answer) : answer.2.length < text.length := by
  unfold reference? at h
  split at h
  · have := length_numberReference?_lt h
    simp only [List.length_cons]
    omega
  · have := length_numberReference?_lt h
    simp only [List.length_cons]
    omega
  · exact length_nameReference?_lt h

/-- A text with every reference replaced by its character; nothing when a reference is
malformed. -/
def expand : List Char → Option (List Char)
  | [] => some []
  | char :: text =>
    if char = '&' then
      match _found : reference? text with
      | none => none
      | some (meant, rest) => (expand rest).map (meant :: ·)
    else (expand text).map (char :: ·)
termination_by text => text.length
decreasing_by
  · have := length_reference?_lt _found
    simp only [List.length_cons] at this ⊢
    omega
  · simp

/-- A text whose lines all end in a line feed: a carriage return becomes one, together with a
line feed right after it. -/
def uniformLines : List Char → List Char
  | [] => []
  | '\r' :: '\n' :: text => '\n' :: uniformLines text
  | char :: text => (if char = '\r' then '\n' else char) :: uniformLines text

/-- The characters that a piece of text stands for; `afterReference` tells whether a reference
stands right before it. The end of a line becomes a line feed. A carriage return right before a
reference is no end of a line, nor is one that stands alone between a reference and the end of the
text. -/
def textFrom (afterReference : Bool) : List Char → Option (List Char)
  | [] => some []
  | ['\r'] => some [if afterReference then '\r' else '\n']
  | '\r' :: '\n' :: text => (textFrom false text).map ('\n' :: ·)
  | char :: text =>
    if char = '&' then
      match _found : reference? text with
      | none => none
      | some (meant, rest) => (textFrom true rest).map (meant :: ·)
    else
      let shown := if char = '\r' ∧ text.head? ≠ some '&' then '\n' else char
      (textFrom false text).map (shown :: ·)
termination_by text => text.length
decreasing_by
  · simp only [List.length_cons]
    omega
  · have := length_reference?_lt _found
    simp only [List.length_cons] at this ⊢
    omega
  · simp

/-- The characters that a piece of text stands for. -/
def textValue? (raw : List Char) : Option (List Char) := textFrom false raw

/-- The characters that an attribute value stands for: the end of a line and a tab become
spaces. -/
def attributeValue? (raw : List Char) : Option (List Char) :=
  expand ((uniformLines raw).map fun char => if char = '\n' ∨ char = '\t' then ' ' else char)

end Retrace.Markup
