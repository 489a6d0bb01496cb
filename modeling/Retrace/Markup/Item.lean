import Retrace.Markup.Reference

/-!
# Items of markup

A markup document is read in two passes. This one cuts its text into items: opening and closing
tags, runs of text, sections of literal characters, and notes, which are comments and processing
instructions. An element without content gives an opening and a closing tag. The other pass nests
the items.

A document may start with a byte order mark and a declaration. There is one way only to be wrong,
so readers answer nothing for text that is malformed.
-/
namespace Retrace.Markup

/-- A name with the qualifier before its colon, which is empty when there is none. -/
structure Name where
  /-- The part before the colon. -/
  qualifier : String
  /-- The part after the colon. -/
  label : String
  deriving DecidableEq, Repr

/-- An attribute of a tag as it is written. -/
structure Attribute where
  /-- Name of the attribute. -/
  name : Name
  /-- Characters between the quotes. -/
  raw : List Char
  deriving DecidableEq, Repr

/-- A piece of a document. -/
inductive Item where
  /-- Text between tags, as it is written. -/
  | text (raw : List Char)
  /-- Characters in which nothing is marked up. -/
  | literal (raw : List Char)
  /-- A comment or a processing instruction. -/
  | note
  /-- The tag that opens an element, with the position of its angle bracket. -/
  | opening (name : Name) (attributes : List Attribute) (position : Position)
  /-- The tag that closes an element. -/
  | closing (name : Name)
  deriving DecidableEq, Repr

/-! ## Reading parts of a tag -/

/-- The text after a literal at its front. -/
def dropLiteral : List Char → List Glyph → Option (List Glyph)
  | [], text => some text
  | _ :: _, [] => none
  | char :: chars, glyph :: text => if glyph.value = char then dropLiteral chars text else none

/-- The text after spaces. -/
def skipSpaces (text : List Glyph) : List Glyph := text.dropWhile fun glyph => isSpace glyph.value

/-- The characters before a mark, all of them legal, and the text after the mark. -/
def readUntil (mark : List Char) : List Glyph → Option (List Char × List Glyph)
  | [] => none
  | glyph :: text =>
    match dropLiteral mark (glyph :: text) with
    | some rest => some ([], rest)
    | none =>
      if isLegal glyph.value then
        (readUntil mark text).map fun (chars, rest) => (glyph.value :: chars, rest)
      else none

/-- Whether characters form a name without a colon, or with colons as part of it. -/
def isName (chars : List Char) : Bool := chars.head?.any isNameStart

/-- The name that characters form: at most one colon, a label, and a start character at the front
of both parts. -/
def name? (chars : List Char) : Option Name :=
  match chars.span (· != ':') with
  | (label, []) => if isName label then some ⟨"", String.ofList label⟩ else none
  | (qualifier, _ :: label) =>
    if !label.contains ':' && isName label && (qualifier.isEmpty || isName qualifier) then
      some ⟨String.ofList qualifier, String.ofList label⟩
    else none

/-- The name at the front of a text, and the text after it. -/
def readName (text : List Glyph) : Option (Name × List Glyph) :=
  (name? ((text.takeWhile fun glyph => isNamePart glyph.value).map (·.value))).map
    (·, text.dropWhile fun glyph => isNamePart glyph.value)

/-- A value in quotes, without an angle bracket, and the text after it. -/
def readValue : List Glyph → Option (List Char × List Glyph)
  | [] => none
  | glyph :: text =>
    if glyph.value = '"' ∨ glyph.value = '\'' then
      match readUntil [glyph.value] text with
      | some (raw, rest) => if raw.contains '<' then none else some (raw, rest)
      | none => none
    else none

/-- An attribute: a name, an equals sign and a value. -/
def readAttribute (text : List Glyph) : Option (Attribute × List Glyph) := do
  let (name, rest) ← readName text
  let rest ← dropLiteral ['='] (skipSpaces rest)
  let (raw, rest) ← readValue (skipSpaces rest)
  some (⟨name, raw⟩, rest)

/-! ## Reading shortens the text -/

/-- Skipping spaces leaves no more than there was. -/
theorem length_skipSpaces_le (text : List Glyph) : (skipSpaces text).length ≤ text.length :=
  Text.length_dropWhile_le _ text

/-- A literal is as long as what it takes away. -/
theorem length_dropLiteral {chars : List Char} {text rest : List Glyph}
    (h : dropLiteral chars text = some rest) : text.length = chars.length + rest.length := by
  fun_induction dropLiteral chars text with
  | case1 => simp_all
  | case2 => simp at h
  | case3 chars glyph text ih =>
    have := ih h
    simp only [List.length_cons]
    omega
  | case4 => simp at h

/-- What follows a mark is no longer than the text. -/
theorem length_readUntil_le {mark : List Char} {text : List Glyph}
    {answer : List Char × List Glyph} (h : readUntil mark text = some answer) :
    answer.2.length ≤ text.length := by
  fun_induction readUntil mark text generalizing answer with
  | case1 => simp at h
  | case2 glyph text rest found =>
    obtain rfl := Option.some.inj h
    have := length_dropLiteral found
    simp only [List.length_cons] at this ⊢
    omega
  | case3 glyph text _ _ ih =>
    obtain ⟨inner, read, rfl⟩ := Option.map_eq_some_iff.1 h
    have := ih read
    simp only [List.length_cons]
    omega
  | case4 => simp at h

/-- What follows a name is no longer than the text. -/
theorem length_readName_le {text : List Glyph} {answer : Name × List Glyph}
    (h : readName text = some answer) : answer.2.length ≤ text.length := by
  obtain ⟨name, -, rfl⟩ := Option.map_eq_some_iff.1 h
  exact Text.length_dropWhile_le _ _

/-- What follows a value is no longer than the text. -/
theorem length_readValue_le {text : List Glyph} {answer : List Char × List Glyph}
    (h : readValue text = some answer) : answer.2.length ≤ text.length := by
  unfold readValue at h
  split at h
  · simp at h
  · split at h
    · split at h
      · rename_i read
        have := length_readUntil_le read
        split at h
        · simp at h
        · obtain rfl := Option.some.inj h
          simp only [List.length_cons] at this ⊢
          omega
      · simp at h
    · simp at h

/-- What follows an attribute is shorter than the text with it. -/
theorem length_readAttribute_lt {text : List Glyph} {answer : Attribute × List Glyph}
    (h : readAttribute text = some answer) : answer.2.length < text.length := by
  simp only [readAttribute, Option.bind_eq_bind, Option.bind_eq_some_iff] at h
  obtain ⟨⟨name, afterName⟩, readN, afterSign, sign, ⟨raw, rest⟩, readV, made⟩ := h
  obtain rfl := Option.some.inj made
  have nameLe := length_readName_le readN
  have signEq := length_dropLiteral sign
  have valueLe := length_readValue_le readV
  have spaceLe := length_skipSpaces_le afterName
  have gapLe := length_skipSpaces_le afterSign
  simp only [List.length_cons, List.length_nil] at *
  omega

/-! ## Reading tags and notes -/

/-- The attributes of an opening tag, whether the tag closes its element too, and the text after
the tag. A space stands before each attribute. -/
def readAttributes (text : List Glyph) : Option (List Attribute × Bool × List Glyph) :=
  match _spaces : skipSpaces text with
  | [] => none
  | glyph :: rest =>
    if glyph.value = '>' then some ([], false, rest)
    else if glyph.value = '/' then (dropLiteral ['>'] rest).map ([], true, ·)
    else if !text.head?.any fun glyph => isSpace glyph.value then none
    else
      match _read : readAttribute (glyph :: rest) with
      | none => none
      | some (first, rest) =>
        (readAttributes rest).map fun (others, answer) => (first :: others, answer)
termination_by text.length
decreasing_by
  have gap := _spaces ▸ length_skipSpaces_le text
  have after := length_readAttribute_lt _read
  simp only [List.length_cons] at gap after
  omega

/-- An opening tag whose angle bracket stands at `position` before the text. -/
def readOpening (position : Position) (text : List Glyph) : Option (List Item × List Glyph) := do
  let (name, rest) ← readName text
  let (attributes, closed, rest) ← readAttributes rest
  some (.opening name attributes position :: if closed then [.closing name] else [], rest)

/-- A closing tag after its angle bracket and slash. -/
def readClosing (text : List Glyph) : Option (List Item × List Glyph) := do
  let (name, rest) ← readName text
  let rest ← dropLiteral ['>'] (skipSpaces rest)
  some ([.closing name], rest)

/-- A comment after its opening mark. Two hyphens do not stand together in a comment, nor one at
its end. -/
def readComment (text : List Glyph) : Option (List Item × List Glyph) := do
  let (chars, rest) ← readUntil ['-', '-', '>'] text
  if Text.occursIn ['-', '-'] chars || chars.getLast? == some '-' then none
  else some ([.note], rest)

/-- A section of literal characters after its opening mark. -/
def readLiteral (text : List Glyph) : Option (List Item × List Glyph) := do
  let (chars, rest) ← readUntil [']', ']', '>'] text
  some ([.literal chars], rest)

/-- A processing instruction after its opening mark: a name and characters up to the closing
mark. -/
def readInstruction (text : List Glyph) : Option (List Item × List Glyph) := do
  let target := (text.takeWhile fun glyph => isNamePart glyph.value).map (·.value)
  if isName target then
    let (_, rest) ← readUntil ['?', '>'] (text.dropWhile fun glyph => isNamePart glyph.value)
    some ([.note], rest)
  else none

/-- The mark of a declaration, after its angle bracket. -/
def declarationMark : List Char := ['?', 'x', 'm', 'l', ' ']

/-- A tag or a note whose angle bracket stands at `position` before the text. A declaration in
the middle of a document is malformed. -/
def readMarkup (position : Position) (text : List Glyph) : Option (List Item × List Glyph) :=
  if let some rest := dropLiteral ['!', '-', '-'] text then readComment rest
  else if let some rest := dropLiteral ['!', '[', 'C', 'D', 'A', 'T', 'A', '['] text then
    readLiteral rest
  else if (dropLiteral declarationMark text).isSome then none
  else if let some rest := dropLiteral ['?'] text then readInstruction rest
  else if let some rest := dropLiteral ['/'] text then readClosing rest
  else readOpening position text

/-- What follows the attributes of a tag is no longer than the text. -/
theorem length_readAttributes_le {text : List Glyph}
    {answer : List Attribute × Bool × List Glyph} (h : readAttributes text = some answer) :
    answer.2.2.length ≤ text.length := by
  fun_induction readAttributes text generalizing answer with
  | case1 => simp at h
  | case2 text glyph rest spaces =>
    obtain rfl := Option.some.inj h
    have := spaces ▸ length_skipSpaces_le text
    simp only [List.length_cons] at this ⊢
    omega
  | case3 text glyph rest spaces =>
    obtain ⟨last, read, rfl⟩ := Option.map_eq_some_iff.1 h
    have := spaces ▸ length_skipSpaces_le text
    have := length_dropLiteral read
    simp only [List.length_cons, List.length_nil] at *
    omega
  | case4 => simp at h
  | case5 => simp at h
  | case6 text glyph rest spaces _ _ _ first last read ih =>
    obtain ⟨inner, found, rfl⟩ := Option.map_eq_some_iff.1 h
    have := spaces ▸ length_skipSpaces_le text
    have := length_readAttribute_lt read
    have := ih found
    simp only [List.length_cons] at *
    omega

/-- What follows a tag or a note is no longer than the text after its angle bracket. -/
theorem length_readMarkup_le {position : Position} {text : List Glyph}
    {answer : List Item × List Glyph} (h : readMarkup position text = some answer) :
    answer.2.length ≤ text.length := by
  unfold readMarkup at h
  split at h
  · rename_i rest mark
    have markEq := length_dropLiteral mark
    simp only [readComment, Option.bind_eq_bind, Option.bind_eq_some_iff] at h
    obtain ⟨⟨chars, last⟩, read, made⟩ := h
    have readLe := length_readUntil_le read
    split at made
    · simp at made
    · obtain rfl := Option.some.inj made
      simp only at readLe ⊢
      omega
  split at h
  · rename_i rest mark
    have markEq := length_dropLiteral mark
    simp only [readLiteral, Option.bind_eq_bind, Option.bind_eq_some_iff] at h
    obtain ⟨⟨chars, last⟩, read, made⟩ := h
    have readLe := length_readUntil_le read
    obtain rfl := Option.some.inj made
    simp only at readLe ⊢
    omega
  split at h
  · simp at h
  split at h
  · rename_i rest mark
    have markEq := length_dropLiteral mark
    simp only [readInstruction] at h
    split at h
    · simp only [Option.bind_eq_bind, Option.bind_eq_some_iff] at h
      obtain ⟨⟨chars, last⟩, read, made⟩ := h
      have readLe := length_readUntil_le read
      have nameLe := Text.length_dropWhile_le (fun glyph => isNamePart glyph.value) rest
      obtain rfl := Option.some.inj made
      simp only at readLe ⊢
      omega
    · simp at h
  split at h
  · rename_i rest mark
    have markEq := length_dropLiteral mark
    simp only [readClosing, Option.bind_eq_bind, Option.bind_eq_some_iff] at h
    obtain ⟨⟨name, afterName⟩, readN, last, bracket, made⟩ := h
    have nameLe := length_readName_le readN
    have bracketEq := length_dropLiteral bracket
    have spaceLe := length_skipSpaces_le afterName
    obtain rfl := Option.some.inj made
    simp only [List.length_cons] at *
    omega
  · simp only [readOpening, Option.bind_eq_bind, Option.bind_eq_some_iff] at h
    obtain ⟨⟨name, afterName⟩, readN, ⟨attributes, closed, last⟩, read, made⟩ := h
    have nameLe := length_readName_le readN
    have readLe := length_readAttributes_le read
    obtain rfl := Option.some.inj made
    simp only at *
    omega

/-! ## Whole documents -/

/-- The items of a text. Text between tags holds legal characters and not the closing mark of a
literal section. -/
def readItems : List Glyph → Option (List Item)
  | [] => some []
  | glyph :: text =>
    if glyph.value = '<' then
      match _read : readMarkup glyph.position text with
      | none => none
      | some (items, rest) => (readItems rest).map (items ++ ·)
    else
      let raw := glyph.value :: (text.takeWhile fun glyph => glyph.value != '<').map (·.value)
      if raw.all isLegal && !Text.occursIn [']', ']', '>'] raw then
        (readItems (text.dropWhile fun glyph => glyph.value != '<')).map (.text raw :: ·)
      else none
termination_by text => text.length
decreasing_by
  · have := length_readMarkup_le _read
    simp only [List.length_cons] at this ⊢
    omega
  · have := Text.length_dropWhile_le (fun glyph => glyph.value != '<') text
    simp only [List.length_cons]
    omega

/-- The text after a gap; at the closing mark of a declaration there need be none. -/
def skipGap? (text : List Glyph) : Option (List Glyph) :=
  if text.head?.any fun glyph => isSpace glyph.value then some (skipSpaces text)
  else if (dropLiteral ['?', '>'] text).isSome then some text
  else none

/-- The text after an attribute whose name starts with `word`, if such an attribute stands at its
front, and after the gap that follows. -/
def skipAttribute? (word : List Char) (text : List Glyph) : Option (List Glyph) :=
  if (dropLiteral word text).isSome then do
    let (_, rest) ← readAttribute text
    skipGap? rest
  else some text

/-- The text after a declaration, which names a version, then possibly an encoding, then possibly
whether the document stands alone. -/
def readDeclaration (text : List Glyph) : Option (List Glyph) := do
  let rest := skipSpaces text
  let _ ← dropLiteral ['v', 'e', 'r', 's', 'i', 'o', 'n'] rest
  let rest ← skipAttribute? ['v', 'e', 'r', 's', 'i', 'o', 'n'] rest
  let rest ← skipAttribute? ['e', 'n', 'c', 'o', 'd', 'i', 'n', 'g'] rest
  let rest ← skipAttribute? ['s', 't', 'a', 'n', 'd', 'a', 'l', 'o', 'n', 'e'] rest
  dropLiteral ['?', '>'] rest

/-- A text without a byte order mark at its front. -/
def skipByteOrderMark : List Glyph → List Glyph
  | [] => []
  | glyph :: text => if glyph.value = '\uFEFF' then text else glyph :: text

/-- The items of a document, after its byte order mark and its declaration. -/
def documentItems (text : String) : Option (List Item) :=
  let body := skipByteOrderMark (glyphs text)
  match dropLiteral ('<' :: declarationMark) body with
  | none => readItems body
  | some rest => (readDeclaration rest).bind readItems

end Retrace.Markup
