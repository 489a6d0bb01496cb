/-!
# Texts

What the readers of traces need of texts: which characters are blank and how a text is trimmed,
decimal numbers, fragments and separators, and the position of every character.

The characters with the Unicode property White_Space are blank; the byte order mark (U+FEFF) and the
zero width space (U+200B) lack the property. Numbers are words of 64 bits written with ASCII digits.
Lines and columns count from one, and a column counts characters: a line feed starts the next line,
every other character advances the column by one.
-/
namespace Retrace

namespace Text

/-! ## Blanks -/

/-- Code points with the property White_Space, in ascending order. -/
def blankCodes : List Nat :=
  [0x09, 0x0A, 0x0B, 0x0C, 0x0D, 0x20, 0x85, 0xA0, 0x1680, 0x2000, 0x2001, 0x2002, 0x2003,
    0x2004, 0x2005, 0x2006, 0x2007, 0x2008, 0x2009, 0x200A, 0x2028, 0x2029, 0x202F, 0x205F,
    0x3000]

/-- Whether a character has the property White_Space. -/
def isBlank (char : Char) : Bool := blankCodes.contains char.toNat

/-- A text without its leading blanks. -/
def trimStart (chars : List Char) : List Char := chars.dropWhile isBlank

/-- A text without the blanks at both ends. -/
def trim (chars : List Char) : List Char := (trimStart (trimStart chars).reverse).reverse

/-! ## Decimal numbers -/

/-- Largest number that a word of 64 bits holds. -/
def maxWord : Nat := 0xFFFFFFFFFFFFFFFF

/-- Value of an ASCII digit. -/
def digitValue (char : Char) : Nat := char.toNat - '0'.toNat

/-- Value of decimal digits, the most significant first. -/
def digitsValue (digits : List Char) : Nat :=
  digits.foldl (fun value digit => 10 * value + digitValue digit) 0

/-- A number that a word can hold, or nothing. -/
def word? (value : Nat) : Option Nat := if value ≤ maxWord then some value else none

/-- A non-empty run of digits whose value fits a word. -/
def digits? (digits : List Char) : Option Nat :=
  if digits.isEmpty || !digits.all Char.isDigit then none else word? (digitsValue digits)

/-- Digits with an optional plus sign before them whose value fits a word. -/
def signed? : List Char → Option Nat
  | '+' :: digits => digits? digits
  | digits => digits? digits

/-! ## Fragments and separators -/

/-- Whether the fragment is a run of adjacent characters of the text; the empty fragment always
is. -/
def occursIn (fragment : List Char) : List Char → Bool
  | [] => fragment.isEmpty
  | char :: chars => fragment.isPrefixOf (char :: chars) || occursIn fragment chars

/-- Whether `fragment` occurs in `text`. -/
def contains (text fragment : String) : Bool := occursIn fragment.toList text.toList

/-- The text before and after the last `separator`, or nothing when there is none. -/
def splitLast (separator : Char) : List Char → Option (List Char × List Char)
  | [] => none
  | char :: chars =>
    match splitLast separator chars with
    | some (before, after) => some (char :: before, after)
    | none => if char = separator then some ([], chars) else none

/-- Dropping leaves no more than there was. -/
theorem length_dropWhile_le {α : Type} (p : α → Bool) (list : List α) :
    (list.dropWhile p).length ≤ list.length :=
  (List.dropWhile_sublist p).length_le

end Text

/-! ## Positions -/

/-- Line and column of a character, both counted from one. -/
structure Position where
  /-- One more than the line feeds before the character. -/
  line : Nat
  /-- One more than the characters since the last line feed. -/
  column : Nat
  deriving DecidableEq, Repr

namespace Position

/-- Position of the first character of a text. -/
def start : Position := ⟨1, 1⟩

/-- Position after one more character. -/
def next (position : Position) (char : Char) : Position :=
  if char = '\n' then ⟨position.line + 1, 1⟩ else ⟨position.line, position.column + 1⟩

/-- Position after more characters. -/
def after (position : Position) (chars : List Char) : Position := chars.foldl next position

/-- A position as error messages name it. -/
def text (position : Position) : String :=
  "line " ++ toString position.line ++ ", column " ++ toString position.column

/-- No characters move no position. -/
@[simp] theorem after_nil (position : Position) : position.after [] = position := rfl

/-- The first character moves the position before the others do. -/
@[simp] theorem after_cons (position : Position) (char : Char) (chars : List Char) :
    position.after (char :: chars) = (position.next char).after chars := rfl

/-- Text after text moves the position twice. -/
theorem after_append (position : Position) (left right : List Char) :
    position.after (left ++ right) = (position.after left).after right := by
  simp [after, List.foldl_append]

end Position

/-- A value with the position at which it was read. -/
structure Placed (α : Type) where
  /-- What was read. -/
  value : α
  /-- Where it starts. -/
  position : Position
  deriving DecidableEq, Repr

/-- A character of a text with its position. -/
abbrev Glyph := Placed Char

/-- The characters of a text, each with its position; the first stands at `position`. -/
def locate (position : Position) : List Char → List Glyph
  | [] => []
  | char :: chars => ⟨char, position⟩ :: locate (position.next char) chars

/-- The glyphs of a text that starts at the first position. -/
def glyphs (text : String) : List Glyph := locate .start text.toList

/-- Locating keeps the characters. -/
@[simp] theorem map_value_locate (position : Position) (chars : List Char) :
    (locate position chars).map (·.value) = chars := by
  induction chars generalizing position with
  | nil => rfl
  | cons char chars ih => simp [locate, ih]

/-- Text after text is located from the position at which the first ends. -/
theorem locate_append (position : Position) (left right : List Char) :
    locate position (left ++ right) =
      locate position left ++ locate (position.after left) right := by
  induction left generalizing position with
  | nil => rfl
  | cons char chars ih => simp [locate, ih]

end Retrace
