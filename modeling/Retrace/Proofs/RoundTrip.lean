import Mathlib.Data.List.Basic
import Retrace.Proofs.Spelling
import Retrace.Record.Layout
import Retrace.Record.Reader

/-!
# Reading what was written

Every layout of records is read as these records, each at the line and the column of its keyword
(`Record.Layout.readRecords_text`). What a layout writes for a token spells the token, so a line
falls into the lexemes of its record and a gap at its end, and these lexemes are the fields that the
reader takes. The lines are read one by one, by induction on them.
-/
namespace Retrace

/-! ## Positions on a line -/

/-- Text without a line feed stays on its line. -/
theorem Position.after_of_notMem (position : Position) {chars : List Char} (inLine : '\n' ∉ chars) :
    position.after chars = ⟨position.line, position.column + chars.length⟩ := by
  induction chars generalizing position with
  | nil => rfl
  | cons char chars ih =>
    obtain ⟨other, inLine⟩ := List.ne_and_not_mem_of_not_mem_cons inLine
    rw [Position.after_cons, Position.next, if_neg other.symm, ih _ inLine]
    simp only [List.length_cons, Position.mk.injEq, true_and]
    omega

/-- A placed character is one of the text. -/
theorem value_mem_of_mem_locate {position : Position} {chars : List Char} {glyph : Glyph}
    (inside : glyph ∈ locate position chars) : glyph.value ∈ chars := by
  rw [← map_value_locate position chars]
  exact List.mem_map_of_mem inside

/-- The first placed character is the first of the text. -/
theorem head?_of_head?_locate {position : Position} {chars : List Char} {glyph : Glyph}
    (first : glyph ∈ (locate position chars).head?) : glyph.value ∈ chars.head? := by
  cases chars with
  | nil => simp [locate] at first
  | cons char chars =>
    obtain rfl := Option.mem_some_iff.mp first
    exact rfl

/-! ## Spellings that are written -/

/-- An escaped character goes before an encoded text. -/
theorem Encodes.escape (char : Char) {chars text : List Char} (encodes : Encodes chars text) :
    Encodes (Token.escape char ++ chars) (char :: text) := by
  unfold Token.escape
  split_ifs with quote backslash feed tab
  · exact .escaped (by simp [quote, Lexeme.escaped?]) encodes
  · exact .escaped (by simp [backslash, Lexeme.escaped?]) encodes
  · exact .escaped (by simp [feed, Lexeme.escaped?]) encodes
  · exact .escaped (by simp [tab, Lexeme.escaped?]) encodes
  · exact .plain quote backslash feed encodes

/-- Escaped characters encode the text. -/
theorem Encodes.flatMap_escape (text : List Char) : Encodes (text.flatMap Token.escape) text := by
  induction text with
  | nil => exact .nil
  | cons char text ih => exact ih.escape char

/-- What stands between quotes stays on its line. -/
theorem Encodes.notMem_newline {chars text : List Char} (encodes : Encodes chars text) :
    '\n' ∉ chars := by
  induction encodes with
  | nil => exact List.not_mem_nil
  | plain _ _ feed _ ih => exact List.not_mem_cons_of_ne_of_not_mem feed.symm ih
  | @escaped mark _ _ _ escape _ ih =>
    refine List.not_mem_cons_of_ne_of_not_mem (by decide)
      (List.not_mem_cons_of_ne_of_not_mem ?_ ih)
    rintro rfl
    contradiction

/-- Only the spelling of a line feed holds one. -/
theorem Token.SpelledBy.notMem_newline {token : Token} {chars : List Char}
    (spelled : token.SpelledBy chars) (stays : token.endsLine = false) : '\n' ∉ chars := by
  cases spelled with
  | newline => contradiction
  | dash => decide
  | word start parts =>
    refine List.not_mem_cons_of_ne_of_not_mem ?_ fun inside => ?_
    · rintro rfl
      contradiction
    · exact absurd (parts _ inside) (by decide)
  | integer _ digits => exact fun inside => absurd (digits _ inside) (by decide)
  | quoted encodes =>
    have closing : '\n' ∉ ['"'] := by decide
    refine List.not_mem_cons_of_ne_of_not_mem (by decide) fun inside => ?_
    exact (List.mem_append.mp inside).elim encodes.notMem_newline closing

/-- The digits of a number have its value. -/
theorem Text.digitsValue_toDigits (value : Nat) : digitsValue (Nat.toDigits 10 value) = value :=
  Nat.ofDigitChars_ten_toDigits

namespace Token

/-- A number of 64 bits is spelled by its digits. -/
theorem spelledBy_integer {value : Nat} (fits : value ≤ Text.maxWord) :
    (integer value).SpelledBy (integer value).spelling := by
  have digits := Text.digitsValue_toDigits value
  have spelled : (integer (Text.digitsValue (Nat.toDigits 10 value))).SpelledBy
      (Nat.toDigits 10 value) := by
    refine .integer Nat.toDigits_ne_nil (fun char digit => ?_) ?_
    · exact Nat.isDigit_of_mem_toDigits (by decide) (by decide) digit
    · rwa [digits]
  rwa [digits] at spelled

/-- Every text is spelled by its escaped characters between quotes. -/
theorem spelledBy_quoted (text : String) : (quoted text).SpelledBy (quoted text).spelling := by
  have spelled := SpelledBy.quoted (Encodes.flatMap_escape text.toList)
  rwa [String.ofList_toList] at spelled

/-- A text that starts as a word and goes on as one is spelled by its characters. -/
theorem spelledBy_word {text : String} {first : Char} {more : List Char}
    (split : text.toList = first :: more) (start : Lexeme.isWordStart first = true)
    (parts : more.all Lexeme.isWordPart = true) :
    (word text).SpelledBy (word text).spelling := by
  have spelled := SpelledBy.word start (List.all_eq_true.mp parts)
  rwa [← split, String.ofList_toList] at spelled

/-- The name of a kind is spelled as a word. -/
theorem spelledBy_kindName (kind : Kind) :
    (word kind.name).SpelledBy (word kind.name).spelling := by
  cases kind <;> exact spelledBy_word rfl (by decide) (by decide)

end Token

open Lexeme (isGap Gap Lexes)

/-- What may follow a token on a line: a blank, a comment, or the end of the line. -/
def Stops (rest : List Char) : Prop :=
  ∀ char ∈ rest.head?, isGap char = true ∨ char = '#' ∨ char = '\n'

/-- Every token can end there. -/
theorem Token.endsBefore_of_stops (token : Token) {rest : List Char} (stops : Stops rest)
    (position : Position) : token.EndsBefore (locate position rest) := by
  have other : ∀ char : Char, isGap char = true ∨ char = '#' ∨ char = '\n' →
      Lexeme.isWordPart char = false ∧ char.isDigit = false ∧ Lexeme.isWordStart char = false := by
    intro char stop
    simp only [isGap, Bool.or_eq_true, beq_iff_eq] at stop
    rcases stop with ((rfl | rfl) | rfl) | rfl | rfl <;> decide
  cases token with
  | word => exact fun glyph first => (other _ (stops _ (head?_of_head?_locate first))).1
  | integer => exact fun glyph first => (other _ (stops _ (head?_of_head?_locate first))).2
  | quoted | dash | newline | endOfText => trivial

/-- A word starts at a position of the characters that start at another. -/
def StandsAt (start : Position) (chars : List Char) (word : String) (position : Position) : Prop :=
  ∃ before after, chars = before ++ (word.toList ++ after) ∧ start.after before = position

/-- What starts in the later part of a text starts in the whole. -/
theorem StandsAt.append {start position : Position} {front chars : List Char} {word : String}
    (stands : StandsAt (start.after front) chars word position) :
    StandsAt start (front ++ chars) word position := by
  obtain ⟨before, after, rfl, there⟩ := stands
  exact ⟨front ++ before, after, List.append_assoc .. |>.symm, by rw [Position.after_append, there]⟩

namespace Record

/-! ## Records on a line -/

/-- A keyword is spelled as a word. -/
theorem spelledBy_keyword (record : Record) :
    (Token.word record.keyword).SpelledBy (Token.word record.keyword).spelling := by
  cases record <;> rw [keyword] <;> exact Token.spelledBy_word rfl (by decide) (by decide)

/-- No field ends the line. -/
theorem endsLine_of_mem_fields {record : Record} {field : Token} (listed : field ∈ record.fields) :
    field.endsLine = false := by
  cases field with
  | word | integer | quoted | dash => rfl
  | newline | endOfText =>
    cases record with
    | entity | result => simp [fields] at listed
    | instantiation _ _ _ location => cases location <;> simp [fields, locationFields] at listed

/-- What is written for a field spells it. -/
theorem spelledBy_field {record : Record} (fits : record.Fits) {field : Token}
    (listed : field ∈ record.fields) : field.SpelledBy field.spelling := by
  cases field with
  | integer value => exact Token.spelledBy_integer (fits value listed)
  | quoted text => exact Token.spelledBy_quoted text
  | dash => exact .dash
  | newline | endOfText => exact absurd (endsLine_of_mem_fields listed) (by decide)
  | word text =>
    have name : ∃ kind : Kind, text = kind.name := by
      cases record with
      | entity => simp [fields] at listed
      | result => simp [fields] at listed
      | instantiation _ _ kind location =>
        cases location <;> exact ⟨kind, by simpa [fields, locationFields] using listed⟩
    obtain ⟨kind, rfl⟩ := name
    exact Token.spelledBy_kindName kind

/-- The reader takes the fields of a point of instantiation. -/
theorem takeLocation_fields (location : Option Location) (stop : Lexeme) {found : List Lexeme}
    (fields : found.map (·.value) = locationFields location) :
    RecordLine.takeLocation stop found = .ok (location, []) := by
  cases location with
  | none =>
    simp only [locationFields, List.map_eq_cons_iff, List.map_eq_nil_iff] at fields
    obtain ⟨⟨_, _⟩, _, rfl, rfl, rfl⟩ := fields
    rfl
  | some location =>
    simp only [locationFields, List.map_eq_cons_iff, List.map_eq_nil_iff] at fields
    obtain ⟨⟨_, _⟩, _, rfl, rfl, ⟨_, _⟩, _, rfl, rfl, ⟨_, _⟩, _, rfl, rfl, rfl⟩ := fields
    rfl

/-- The reader takes the fields of a record, whatever their positions are. -/
theorem takeRecord_fields (record : Record) (stop : Lexeme) (position : Position)
    {found : List Lexeme} (values : found.map (·.value) = record.fields) :
    RecordLine.takeRecord stop record.keyword position found = .ok (record, []) := by
  cases record with
  | entity id name =>
    simp only [fields, List.map_eq_cons_iff, List.map_eq_nil_iff] at values
    obtain ⟨⟨_, _⟩, _, rfl, rfl, ⟨_, _⟩, _, rfl, rfl, rfl⟩ := values
    rfl
  | instantiation source target kind location =>
    simp only [fields, List.map_eq_cons_iff] at values
    obtain ⟨⟨_, _⟩, _, rfl, rfl, ⟨_, _⟩, _, rfl, rfl, ⟨_, _⟩, rest, rfl, rfl, place⟩ := values
    have named (position : Position) :
        RecordLine.takeKind stop (⟨.word kind.name, position⟩ :: rest) = .ok (kind, rest) := by
      rw [RecordLine.takeKind, Kind.ofName?_name]
    have placed := takeLocation_fields location stop place
    simp [RecordLine.takeRecord, keyword, RecordLine.takeInteger, named, placed, bind, Except.bind]
  | result text =>
    simp only [fields, List.map_eq_cons_iff, List.map_eq_nil_iff] at values
    obtain ⟨⟨_, _⟩, _, rfl, rfl, rfl⟩ := values
    rfl

/-- Blanks lie in a gap. -/
theorem Blanks.isGap (blanks : Blanks) {char : Char} (inside : char ∈ blanks.chars) :
    Lexeme.isGap char = true := by
  have kinds := blanks.blank inside
  simp only [List.mem_cons, List.not_mem_nil, or_false] at kinds
  rcases kinds with rfl | rfl | rfl <;> decide

/-- Blanks do not end a line. -/
theorem Blanks.notMem_newline (blanks : Blanks) : '\n' ∉ blanks.chars := by
  intro inside
  exact absurd (blanks.isGap inside) (by decide)

/-- A separator ends the token before it. -/
theorem Separator.stops (separator : Separator) (rest : List Char) :
    Stops (separator.chars ++ rest) := by
  obtain ⟨char, chars, split⟩ := List.exists_cons_of_ne_nil separator.nonempty
  intro first found
  rw [split] at found
  obtain rfl := Option.mem_some_iff.mp found
  exact .inl (separator.isGap (split ▸ List.mem_cons_self))

/-- Spaced fields begin with the first separator and the first token. -/
theorem spaced_cons (separator : Separator) (token : Token) (fields : List (Separator × Token)) :
    spaced ((separator, token) :: fields) =
      separator.chars ++ (token.spelling ++ spaced fields) := by
  rw [spaced, List.flatMap_cons, List.append_assoc, spaced]

/-- Fields stop a token, if what follows them does. -/
theorem stops_spaced (fields : List (Separator × Token)) {rest : List Char} (stops : Stops rest) :
    Stops (spaced fields ++ rest) := by
  cases fields with
  | nil => exact stops
  | cons field fields =>
    rw [spaced_cons, List.append_assoc]
    exact field.1.stops _

/-- A token after blanks is a lexeme. The blanks are all of the gap before it, since no spelling
starts with a blank or a number sign. -/
theorem lexes_token (blanks : Blanks) {token : Token} {chars rest : List Char}
    (spelled : token.SpelledBy chars) (stops : Stops rest) (position : Position) :
    Lexes (locate position (blanks.chars ++ (chars ++ rest))) [⟨token, position.after blanks.chars⟩]
      (locate ((position.after blanks.chars).after chars) rest) := by
  rw [locate_append, locate_append]
  refine .single spelled (.blanks (fun glyph inside => ?_) fun glyph first => ?_)
    (token.endsBefore_of_stops stops _)
  · exact blanks.isGap (value_mem_of_mem_locate inside)
  · obtain ⟨start, more, rfl, blank, sign⟩ := Lexeme.head_of_spelledBy spelled
    obtain rfl := Option.mem_some_iff.mp first
    exact ⟨blank, sign⟩

/-- Fields after separators are lexemes, in order. -/
theorem lexes_spaced (fields : List (Separator × Token))
    (spelled : ∀ field ∈ fields, field.2.SpelledBy field.2.spelling) {rest : List Char}
    (stops : Stops rest) (position : Position) :
    ∃ found : List Lexeme, found.map (·.value) = fields.map Prod.snd ∧
      Lexes (locate position (spaced fields ++ rest)) found
        (locate (position.after (spaced fields)) rest) := by
  induction fields generalizing position with
  | nil => exact ⟨[], rfl, .nil⟩
  | cons field fields ih =>
    obtain ⟨first, others⟩ := List.forall_mem_cons.mp spelled
    obtain ⟨separator, token⟩ := field
    have here := lexes_token separator.toBlanks first (stops_spaced fields stops) position
    obtain ⟨found, values, there⟩ := ih others
      ((position.after separator.chars).after token.spelling)
    refine ⟨[⟨token, position.after separator.chars⟩] ++ found, ?_, ?_⟩
    · rw [List.map_append, values]
      rfl
    · rw [spaced_cons, Position.after_append, Position.after_append, List.append_assoc,
        List.append_assoc]
      exact here.append there

/-- The tokens of a statement are the fields of its record. -/
theorem Statement.map_snd_fields (statement : Statement) :
    statement.fields.map Prod.snd = statement.record.fields :=
  List.map_snd_zip (Nat.le_of_eq statement.length_eq.symm)

/-- What is written for the fields of a statement spells them. -/
theorem Statement.spelledBy (statement : Statement) (fits : statement.record.Fits) :
    ∀ field ∈ statement.fields, field.2.SpelledBy field.2.spelling ∧ field.2.endsLine = false := by
  intro field listed
  have known : field.2 ∈ statement.record.fields := by
    rw [← statement.map_snd_fields]
    exact List.mem_map_of_mem listed
  exact ⟨spelledBy_field fits known, endsLine_of_mem_fields known⟩

/-- A statement stays on its line. -/
theorem Statement.notMem_newline (statement : Statement) (fits : statement.record.Fits) :
    '\n' ∉ statement.text := by
  have fields : '\n' ∉ spaced statement.fields := by
    intro inside
    obtain ⟨field, listed, there⟩ := List.mem_flatMap.mp inside
    obtain ⟨spelled, stays⟩ := statement.spelledBy fits field listed
    rcases List.mem_append.mp there with blank | written
    · exact field.1.notMem_newline blank
    · exact spelled.notMem_newline stays written
  intro inside
  rcases List.mem_append.mp inside with first | more
  · exact (spelledBy_keyword statement.record).notMem_newline rfl first
  · exact fields more

/-- A statement falls into the lexemes of its record; the keyword is the first. -/
theorem Statement.lexes (statement : Statement) (fits : statement.record.Fits) (lead : Blanks)
    {rest : List Char} (stops : Stops rest) (position : Position) :
    ∃ found : List Lexeme, found.map (·.value) = statement.record.fields ∧
      Lexes (locate position (lead.chars ++ (statement.text ++ rest)))
        (⟨.word statement.record.keyword, position.after lead.chars⟩ :: found)
        (locate ((position.after lead.chars).after statement.text) rest) := by
  have spelled := fun field listed => (statement.spelledBy fits field listed).1
  have keyword := lexes_token lead (spelledBy_keyword statement.record)
    (stops_spaced statement.fields stops) position
  obtain ⟨found, values, fields⟩ := lexes_spaced statement.fields spelled stops
    ((position.after lead.chars).after statement.record.keyword.toList)
  refine ⟨found, values.trans statement.map_snd_fields, ?_⟩
  rw [Statement.text, Position.after_append, List.append_assoc]
  exact keyword.append fields

/-! ## Lines -/

namespace WrittenLine

/-- What ends a line stops a token. -/
theorem stops_tail (line : WrittenLine) {rest : List Char}
    (ends : ∀ char ∈ rest.head?, char = '\n') : Stops (line.tail ++ rest) := by
  intro char first
  rw [tail, List.append_assoc] at first
  cases trail : line.trail.chars with
  | cons blank blanks =>
    rw [trail] at first
    obtain rfl := Option.mem_some_iff.mp first
    exact .inl (line.trail.isGap (trail ▸ List.mem_cons_self))
  | nil =>
    cases note : line.comment with
    | none =>
      rw [trail, note] at first
      exact .inr (.inr (ends char first))
    | some comment =>
      rw [trail, note] at first
      exact .inr (.inl (Option.mem_some_iff.mp first).symm)

/-- Blanks and what ends a line are a gap. -/
theorem gap_tail (line : WrittenLine) {front : List Char}
    (blank : ∀ char ∈ front, isGap char = true) (position : Position) {rest : List Glyph}
    (ends : ∀ glyph ∈ rest.head?, glyph.value = '\n') :
    Gap (locate position (front ++ line.tail)) rest := by
  have blanks : ∀ glyph ∈ locate position (front ++ line.trail.chars),
      isGap glyph.value = true := by
    intro glyph inside
    rcases List.mem_append.mp (value_mem_of_mem_locate inside) with early | late
    · exact blank _ early
    · exact line.trail.isGap late
  rw [tail, ← List.append_assoc]
  cases line.comment with
  | none =>
    rw [Option.elim_none, List.append_nil]
    refine .blanks blanks fun glyph first => ?_
    rw [ends glyph first]
    decide
  | some comment =>
    rw [Option.elim_some, Comment.text, locate_append]
    refine .comment blanks rfl (fun glyph inside => ?_) ends
    exact ne_of_mem_of_not_mem (value_mem_of_mem_locate inside) comment.oneLine

/-- Whether words of 64 bits hold the numbers of a line. -/
def Fits (line : WrittenLine) : Prop := ∀ statement ∈ line.statement, statement.record.Fits

/-- A line has no line feed in it. -/
theorem notMem_newline_text (line : WrittenLine) (fits : line.Fits) : '\n' ∉ line.text := by
  have written : '\n' ∉ line.statement.elim [] Statement.text := by
    cases own : line.statement with
    | none => exact List.not_mem_nil
    | some statement => exact statement.notMem_newline (fits statement own)
  have note : '\n' ∉ line.comment.elim [] Comment.text := by
    cases line.comment with
    | none => exact List.not_mem_nil
    | some comment => exact List.not_mem_cons_of_ne_of_not_mem (by decide) comment.oneLine
  simp only [text, tail, List.mem_append, not_or]
  exact ⟨line.lead.notMem_newline, written, line.trail.notMem_newline, note⟩

/-- The next line starts after the line feed that ends a line. -/
theorem next_after_text (line : WrittenLine) (fits : line.Fits) (number : Nat) :
    (Position.after ⟨number, 1⟩ line.text).next '\n' = ⟨number + 1, 1⟩ := by
  rw [Position.after_of_notMem _ (line.notMem_newline_text fits)]
  rfl

/-- The blanks at the front of a line give its keyword its column. -/
theorem after_lead (line : WrittenLine) (number : Nat) :
    Position.after ⟨number, 1⟩ line.lead.chars = ⟨number, line.lead.chars.length + 1⟩ := by
  rw [Position.after_of_notMem _ line.lead.notMem_newline, Nat.add_comm]

/-- The lexemes of a line are read as its record. -/
structure Reads (line : WrittenLine) (number : Nat) (found : List Lexeme) : Prop where
  /-- They stand on one line. -/
  endsLine_eq : ∀ lexeme ∈ found, lexeme.value.endsLine = false
  /-- Their record is that of the line. -/
  record?_eq : ∀ stop, RecordLine.record? ⟨found, stop⟩ = .ok (line.placed number)

/-- A line without a statement is read as no record. -/
theorem reads_none {line : WrittenLine} (own : line.statement = none) (number : Nat) :
    line.Reads number [] := by
  refine ⟨fun lexeme listed => absurd listed List.not_mem_nil, fun stop => ?_⟩
  rw [placed, own]
  rfl

/-- The lexemes of a statement are its keyword, after the blanks at the front, and its fields. -/
theorem reads_some {line : WrittenLine} {statement : Statement}
    (own : line.statement = some statement) (number : Nat) {found : List Lexeme}
    (values : found.map (·.value) = statement.record.fields) :
    line.Reads number
      (⟨.word statement.record.keyword, Position.after ⟨number, 1⟩ line.lead.chars⟩ :: found) := by
  refine ⟨List.forall_mem_cons.mpr ⟨rfl, fun lexeme listed => ?_⟩, fun stop => ?_⟩
  · have known : lexeme.value ∈ statement.record.fields := by
      rw [← values]
      exact List.mem_map_of_mem listed
    exact endsLine_of_mem_fields known
  · simp only [RecordLine.record?, takeRecord_fields _ stop _ values, placed, own, Option.map_some,
      line.after_lead]

/-- A line falls into lexemes that are read as its record, and a gap. -/
theorem lexes (line : WrittenLine) (fits : line.Fits) (number : Nat) {rest : List Char}
    (ends : ∀ char ∈ rest.head?, char = '\n') :
    ∃ found gap, line.Reads number found ∧
      Lexes (locate ⟨number, 1⟩ (line.text ++ rest)) found
        (gap ++ locate (Position.after ⟨number, 1⟩ line.text) rest) ∧
      Gap gap (locate (Position.after ⟨number, 1⟩ line.text) rest) := by
  have ended : ∀ glyph ∈ (locate (Position.after ⟨number, 1⟩ line.text) rest).head?,
      glyph.value = '\n' := fun glyph first => ends _ (head?_of_head?_locate first)
  cases own : line.statement with
  | none =>
    have whole : line.text = line.lead.chars ++ line.tail := by rw [text, own]; rfl
    refine ⟨[], locate ⟨number, 1⟩ line.text, reads_none own number, ?_, ?_⟩
    · rw [locate_append]
      exact .nil
    · rw [whole] at ended ⊢
      exact line.gap_tail (fun char => line.lead.isGap) _ ended
  | some statement =>
    have whole : line.text = line.lead.chars ++ (statement.text ++ line.tail) := by
      rw [text, own]
      rfl
    obtain ⟨found, values, lexed⟩ := statement.lexes (fits statement own) line.lead
      (line.stops_tail ends) ⟨number, 1⟩
    refine ⟨_, locate ((Position.after ⟨number, 1⟩ line.lead.chars).after statement.text) line.tail,
      reads_some own number values, ?_, ?_⟩
    · rw [whole, Position.after_append, Position.after_append, List.append_assoc, List.append_assoc,
        ← locate_append]
      exact lexed
    · exact line.gap_tail (fun char listed => absurd listed List.not_mem_nil) _ ended

/-- A line that a line feed ends falls into its lexemes and the end of the line. -/
theorem lexes_ended (line : WrittenLine) (fits : line.Fits) (number : Nat) (rest : List Char) :
    ∃ found position, line.Reads number found ∧
      Lexes (locate ⟨number, 1⟩ (line.text ++ '\n' :: rest)) (found ++ [⟨.newline, position⟩])
        (locate ⟨number + 1, 1⟩ rest) := by
  have feed : ∀ char ∈ ('\n' :: rest).head?, char = '\n' :=
    fun char first => (Option.mem_some_iff.mp first).symm
  obtain ⟨found, gap, reads, lexed, before⟩ := line.lexes fits number feed
  have next := line.next_after_text fits number
  have ended : Lexes (gap ++ locate (Position.after ⟨number, 1⟩ line.text) ('\n' :: rest))
      [⟨.newline, Position.after ⟨number, 1⟩ line.text⟩] (locate ⟨number + 1, 1⟩ rest) := by
    rw [locate, next] at before ⊢
    exact .single .newline before trivial
  exact ⟨found, _, reads, lexed.append ended⟩

/-- The keyword of a line stands after the blanks at its front. -/
theorem standsAt (line : WrittenLine) {number : Nat} {found : Placed Record}
    (own : found ∈ line.placed number) (rest : List Char) :
    StandsAt ⟨number, 1⟩ (line.text ++ rest) found.value.keyword found.position := by
  obtain ⟨statement, written, rfl⟩ := Option.map_eq_some_iff.mp own
  refine ⟨line.lead.chars, spaced statement.fields ++ (line.tail ++ rest), ?_,
    line.after_lead number⟩
  simp [text, written, Statement.text]

end WrittenLine

/-! ## Texts -/

/-- A line of lexemes ends at the first lexeme that ends lines. -/
theorem ofLexemes_append {found : List Lexeme}
    (stays : ∀ lexeme ∈ found, lexeme.value.endsLine = false) {stop : Lexeme}
    (ends : stop.value.endsLine = true) (rest : List Lexeme) :
    RecordLine.ofLexemes (found ++ stop :: rest) = ⟨found, stop⟩ :: RecordLine.ofLexemes rest := by
  induction found with
  | nil => rw [List.nil_append, RecordLine.ofLexemes, if_pos ends]
  | cons lexeme found ih =>
    obtain ⟨first, others⟩ := List.forall_mem_cons.mp stays
    rw [List.cons_append, RecordLine.ofLexemes, ih others, first]
    rfl

/-- The lexemes of a line and those of further lines are read as their records, in order. -/
theorem WrittenLine.Reads.records_eq {line : WrittenLine} {number : Nat} {found : List Lexeme}
    (reads : line.Reads number found) {stop : Lexeme} (ends : stop.value.endsLine = true)
    {rest : List Lexeme} {records : List (Placed Record)}
    (others : RecordLine.records (RecordLine.ofLexemes rest) = .ok records) :
    RecordLine.records (RecordLine.ofLexemes (found ++ stop :: rest)) =
      .ok ((line.placed number).toList ++ records) := by
  rw [ofLexemes_append reads.endsLine_eq ends, RecordLine.records, reads.record?_eq, others]
  rfl

namespace Layout

/-- Lines are read one by one, from the number of the first. -/
theorem readAll_chars (layout : Layout)
    (fits : ∀ line ∈ layout.allLines, line.Fits)
    (number : Nat) (stop : Position) :
    ∃ lexemes, Lexeme.readAll stop (locate ⟨number, 1⟩ layout.chars) = .ok lexemes ∧
      RecordLine.records (RecordLine.ofLexemes lexemes) =
        .ok (placedFrom number layout.allLines) := by
  obtain ⟨lines, last⟩ := layout
  induction lines generalizing number with
  | nil =>
    cases last with
    | none =>
      have empty : Gap [] [] := .blanks (by simp) (by simp)
      exact ⟨_, empty.readAll_eq stop, rfl⟩
    | some line =>
      have unended : ∀ char ∈ ([] : List Char).head?, char = '\n' := by simp
      obtain ⟨found, gap, reads, lexed, before⟩ :=
        line.lexes (fits line List.mem_cons_self) number unended
      refine ⟨found ++ [⟨.endOfText, stop⟩], ?_, ?_⟩
      · have all := lexed.readAll_eq stop
        rw [locate, List.append_nil, List.append_nil, before.readAll_eq] at all
        exact all
      · exact reads.records_eq rfl rfl
  | cons line lines ih =>
    obtain ⟨own, others⟩ := List.forall_mem_cons.mp fits
    obtain ⟨lexemes, read, records⟩ := ih (number + 1) others
    obtain ⟨found, position, reads, lexed⟩ := line.lexes_ended own number (chars ⟨lines, last⟩)
    refine ⟨found ++ ⟨.newline, position⟩ :: lexemes, ?_, reads.records_eq rfl records⟩
    have all := lexed.readAll_eq stop
    rw [read] at all
    simpa [chars, Except.map] using all

/-- The records placed are those of the lines that have one. -/
theorem map_value_placedFrom (number : Nat) (lines : List WrittenLine) :
    (placedFrom number lines).map (·.value) =
      lines.filterMap fun line => line.statement.map (·.record) := by
  induction lines generalizing number with
  | nil => rfl
  | cons line lines ih =>
    rw [placedFrom, List.map_append, ih, List.filterMap_cons, WrittenLine.placed]
    cases line.statement <;> rfl

/-- The keyword of every record stands where the record is said to start. -/
theorem standsAt_placedFrom (layout : Layout)
    (fits : ∀ line ∈ layout.allLines, line.Fits)
    (number : Nat) {found : Placed Record} (listed : found ∈ placedFrom number layout.allLines) :
    StandsAt ⟨number, 1⟩ layout.chars found.value.keyword found.position := by
  obtain ⟨lines, last⟩ := layout
  induction lines generalizing number with
  | nil =>
    cases last with
    | none => exact absurd listed List.not_mem_nil
    | some line =>
      have own : found ∈ line.placed number := by simpa [allLines, placedFrom] using listed
      have stands := line.standsAt own []
      rwa [List.append_nil] at stands
  | cons line lines ih =>
    obtain ⟨first, others⟩ := List.forall_mem_cons.mp fits
    have split : chars ⟨line :: lines, last⟩ = line.text ++ '\n' :: chars ⟨lines, last⟩ := by
      simp [chars]
    rw [split]
    rcases List.mem_append.mp listed with own | later
    · exact line.standsAt (Option.mem_toList.mp own) _
    · have ended : Position.after ⟨number, 1⟩ (line.text ++ ['\n']) = ⟨number + 1, 1⟩ := by
        rw [Position.after_append]
        exact line.next_after_text first number
      have stands := ih (number + 1) others later
      rw [← ended] at stands
      rw [List.append_cons]
      exact stands.append

/-- However records are laid out, they are read: exactly these, in order, each at the line and the
column of its keyword. -/
theorem readRecords_text (layout : Layout) (fits : ∀ record ∈ layout.records, record.Fits) :
    readRecords layout.text = .ok layout.placed ∧
      layout.placed.map (·.value) = layout.records ∧
      ∀ found ∈ layout.placed,
        StandsAt .start layout.text.toList found.value.keyword found.position := by
  have fit : ∀ line ∈ layout.allLines, line.Fits := by
    intro line listed statement own
    refine fits _ (List.mem_filterMap.mpr ⟨line, listed, ?_⟩)
    rw [Option.mem_def.mp own]
    rfl
  have chars : layout.text.toList = layout.chars := String.toList_ofList
  refine ⟨?_, map_value_placedFrom 1 _, fun found listed => ?_⟩
  · obtain ⟨lexemes, read, records⟩ :=
      layout.readAll_chars fit 1 (Position.start.after layout.chars)
    have lexed : Retrace.lexemes layout.text = .ok lexemes := by
      rw [Retrace.lexemes, glyphs, chars]
      exact read
    rw [readRecords, lexed]
    exact records
  · rw [chars]
    exact layout.standsAt_placedFrom fit 1 listed

/-- Two records, laid out in every way that the format leaves free. -/
def scattered : Layout where
  lines :=
    [⟨⟨[' '], by decide⟩, none, ⟨[], by decide⟩, some ⟨"a \"comment\"".toList, by decide⟩⟩,
      ⟨⟨['\t', ' '], by decide⟩,
        some
          { record := .entity 18446744073709551615 "a\"b\\c\n\t#d\r"
            separators :=
              [⟨⟨[' '], by decide⟩, by decide⟩, ⟨⟨['\t', '\r'], by decide⟩, by decide⟩] },
        ⟨['\r'], by decide⟩, none⟩,
      ⟨⟨[], by decide⟩, none, ⟨[' '], by decide⟩, none⟩]
  last :=
    some
      ⟨⟨[], by decide⟩,
        some
          { record := .instantiation 0 7 .memoization none
            separators := List.replicate 4 ⟨⟨[' '], by decide⟩, by decide⟩ },
        ⟨[], by decide⟩, some ⟨" end".toList, by decide⟩⟩

/-- Both are read, at the second line and the fourth. -/
theorem readRecords_text_scattered :
    scattered.text =
        " #a \"comment\"\n\t entity 18446744073709551615\t\r\"a\\\"b\\\\c\\n\\t#d\r\"\r\n \n" ++
          "instantiation 0 7 Memoization -# end" ∧
      (∀ record ∈ scattered.records, record.Fits) ∧
      readRecords scattered.text =
        .ok [⟨.entity 18446744073709551615 "a\"b\\c\n\t#d\r", ⟨2, 3⟩⟩,
          ⟨.instantiation 0 7 .memoization none, ⟨4, 1⟩⟩] := by
  have fits : ∀ record ∈ scattered.records, record.Fits := by
    simp [scattered, records, allLines, Fits, fields, locationFields, Text.maxWord]
  obtain ⟨read, -, -⟩ := scattered.readRecords_text fits
  exact ⟨by decide, fits, read.trans (congrArg Except.ok (by decide))⟩

end Layout

end Record
end Retrace
