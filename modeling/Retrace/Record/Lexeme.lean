import Retrace.TraceError

/-!
# Lexemes of the record format

A text of records falls into tokens with gaps between them. A gap is made of spaces, tabs and
carriage returns, and a comment that runs from `#` to the end of its line. Words and numbers are
as long as they can be, and a number may not run into a word. A string stands between quotes on
one line, with a backslash before a quote, a backslash, an `n` for a line feed or a `t` for a tab.

`lexemes` reads a whole text; the last lexeme is the end of the text.
-/
namespace Retrace

/-- A token with the position of its first character. -/
abbrev Lexeme := Placed Token

namespace Lexeme

/-- Whether a character separates tokens on a line. -/
def isGap (char : Char) : Bool := char == ' ' || char == '\t' || char == '\r'

/-- Whether a character can start a word. -/
def isWordStart (char : Char) : Bool := char.isAlpha || char == '_'

/-- Whether a character can stand in a word. -/
def isWordPart (char : Char) : Bool := char.isAlphanum || char == '_'

/-- The text without the gap at its front. -/
def skipGap (text : List Glyph) : List Glyph :=
  match text.dropWhile fun glyph => isGap glyph.value with
  | [] => []
  | glyph :: rest =>
    if glyph.value = '#' then rest.dropWhile fun glyph => glyph.value != '\n' else glyph :: rest

/-- The character that a backslash and `char` stand for. -/
def escaped? (char : Char) : Option Char :=
  if char = 'n' then some '\n'
  else if char = 't' then some '\t'
  else if char = '\\' then some '\\'
  else if char = '"' then some '"'
  else none

/-- Characters of a string after its opening quote, which stands at `start`, and the text after
its closing quote. -/
def readString (start : Position) :
    List Glyph → Except TraceError (List Char × List Glyph)
  | [] => .error (.malformed .unterminatedString start)
  | glyph :: rest =>
    if glyph.value = '"' then .ok ([], rest)
    else if glyph.value = '\n' then .error (.malformed .unterminatedString start)
    else if glyph.value = '\\' then
      match rest with
      | [] => .error (.malformed .unterminatedString start)
      | mark :: rest =>
        match escaped? mark.value with
        | none => .error (.malformed (.unknownEscape mark.value) mark.position)
        | some char => (readString start rest).map fun (chars, rest) => (char :: chars, rest)
    else (readString start rest).map fun (chars, rest) => (glyph.value :: chars, rest)

/-- A number whose first digit is `first`, and the text after it. -/
def readInteger (first : Glyph) (rest : List Glyph) : Except TraceError (Token × List Glyph) :=
  let digits := first.value :: (rest.takeWhile fun glyph => glyph.value.isDigit).map (·.value)
  let rest := rest.dropWhile fun glyph => glyph.value.isDigit
  if rest.head?.any fun glyph => isWordStart glyph.value then
    .error (.malformed (.malformedNumber (String.ofList digits)) first.position)
  else
    match Text.word? (Text.digitsValue digits) with
    | none => .error (.malformed (.integerTooLarge (String.ofList digits)) first.position)
    | some value => .ok (.integer value, rest)

/-- A word whose first character is `first`, and the text after it. -/
def readWord (first : Glyph) (rest : List Glyph) : Token × List Glyph :=
  (.word (String.ofList
      (first.value :: (rest.takeWhile fun glyph => isWordPart glyph.value).map (·.value))),
    rest.dropWhile fun glyph => isWordPart glyph.value)

/-- The token that starts with `first`, and the text after it. -/
def readToken (first : Glyph) (rest : List Glyph) : Except TraceError (Token × List Glyph) :=
  if first.value = '\n' then .ok (.newline, rest)
  else if first.value = '"' then
    (readString first.position rest).map fun (chars, rest) => (.quoted (String.ofList chars), rest)
  else if first.value = '-' then .ok (.dash, rest)
  else if first.value.isDigit then readInteger first rest
  else if isWordStart first.value then .ok (readWord first rest)
  else .error (.malformed (.unexpectedCharacter first.value) first.position)

/-! ## Reading shortens the text -/

/-- A gap takes nothing but itself away. -/
theorem length_skipGap_le (text : List Glyph) : (skipGap text).length ≤ text.length := by
  have gap := Text.length_dropWhile_le (fun glyph : Glyph => isGap glyph.value) text
  unfold skipGap
  split
  · simp
  · rename_i glyph rest found
    rw [found, List.length_cons] at gap
    split
    · have := Text.length_dropWhile_le (fun glyph : Glyph => glyph.value != '\n') rest
      omega
    · simpa using gap

/-- A mapped answer is good exactly when it comes from a good answer. -/
theorem map_eq_ok {ε α β : Type} {f : α → β} {answer : Except ε α} {value : β} :
    answer.map f = .ok value ↔ ∃ found, answer = .ok found ∧ f found = value := by
  cases answer <;> simp [Except.map]

/-- What follows a string is no longer than the string with it. -/
theorem length_readString_le {start : Position} {text : List Glyph}
    {answer : List Char × List Glyph} (h : readString start text = .ok answer) :
    answer.2.length ≤ text.length := by
  fun_induction readString start text generalizing answer with
  | case1 | case3 | case4 | case5 => simp at h
  | case2 glyph tail =>
    obtain rfl := Except.ok.inj h
    simp
  | case6 glyph _ _ _ mark tail char found ih =>
    obtain ⟨inner, read, rfl⟩ := map_eq_ok.1 h
    have := ih read
    simp only [List.length_cons]
    omega
  | case7 glyph tail _ _ _ ih =>
    obtain ⟨inner, read, rfl⟩ := map_eq_ok.1 h
    have := ih read
    simp only [List.length_cons]
    omega

/-- What follows a number is no longer than what follows its first digit. -/
theorem length_readInteger_le {first : Glyph} {text : List Glyph} {answer : Token × List Glyph}
    (h : readInteger first text = .ok answer) : answer.2.length ≤ text.length := by
  simp only [readInteger] at h
  split at h
  · simp at h
  · split at h
    · simp at h
    · obtain rfl := Except.ok.inj h
      exact Text.length_dropWhile_le _ _

/-- What follows a token is no longer than what follows its first character. -/
theorem length_readToken_le {first : Glyph} {text : List Glyph} {answer : Token × List Glyph}
    (h : readToken first text = .ok answer) : answer.2.length ≤ text.length := by
  unfold readToken at h
  split at h
  · obtain rfl := Except.ok.inj h
    exact Nat.le_refl _
  split at h
  · obtain ⟨inner, read, rfl⟩ := map_eq_ok.1 h
    exact length_readString_le read
  split at h
  · obtain rfl := Except.ok.inj h
    exact Nat.le_refl _
  split at h
  · exact length_readInteger_le h
  split at h
  · obtain rfl := Except.ok.inj h
    exact Text.length_dropWhile_le _ _
  · simp at h

/-! ## Whole texts -/

/-- The lexemes of a text that ends at `stop`; the last one is the end of the text. -/
def readAll (stop : Position) (text : List Glyph) : Except TraceError (List Lexeme) :=
  match _gap : skipGap text with
  | [] => .ok [⟨.endOfText, stop⟩]
  | first :: tail =>
    match _found : readToken first tail with
    | .error fault => .error fault
    | .ok (token, rest) => (readAll stop rest).map (⟨token, first.position⟩ :: ·)
termination_by text.length
decreasing_by
  have shorter := _gap ▸ length_skipGap_le text
  have after := length_readToken_le _found
  simp only [List.length_cons] at shorter after
  omega

end Lexeme

/-- The lexemes of a text. -/
def lexemes (text : String) : Except TraceError (List Lexeme) :=
  Lexeme.readAll (Position.start.after text.toList) (glyphs text)

end Retrace
