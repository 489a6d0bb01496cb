import Retrace.Proofs.Lexing
import Retrace.Proofs.RoundTrip

/-!
# Texts line by line

A line feed cuts a text of records in two texts that are read apart: the whole is read exactly when
both parts are, and then as the records of the one followed by those of the other
(`readRecords_joined`). No token goes past a line feed, no comment does, and a line that the text
ends is read as one that a line feed ends.

Each reader is compared with itself on a text that stands further down and is followed by what
starts with a line feed, or by nothing. In this form one statement a reader is enough: it takes the
same, and it leaves what it left, further down, and what follows.
-/
namespace Retrace

/-! ## Further down -/

/-- The position in the same column, `count` lines further down. -/
def Position.down (count : Nat) (position : Position) : Position :=
  ⟨position.line + count, position.column⟩

/-- The same value, `count` lines further down. -/
def Placed.down {α : Type} (count : Nat) (placed : Placed α) : Placed α :=
  ⟨placed.value, placed.position.down count⟩

/-- What is moved down stays what it is. -/
@[simp] theorem Placed.value_down {α : Type} (count : Nat) (placed : Placed α) :
    (placed.down count).value = placed.value := rfl

/-- Moved down by no lines, everything stays where it is. -/
@[simp] theorem Placed.map_down_zero {α : Type} (list : List (Placed α)) :
    list.map (Placed.down 0) = list := by
  rw [show Placed.down 0 = (id : Placed α → Placed α) from rfl, List.map_id]

/-- The next position moves down with the position. -/
theorem Position.next_down (count : Nat) (position : Position) (char : Char) :
    (position.down count).next char = (position.next char).down count := by
  unfold next down
  split
  · rw [Nat.add_right_comm]
  · rfl

/-- A text that starts further down has all of its characters further down. -/
theorem locate_down (count : Nat) (position : Position) (chars : List Char) :
    locate (position.down count) chars = (locate position chars).map (Placed.down count) := by
  induction chars generalizing position with
  | nil => rfl
  | cons char chars ih => rw [locate, Position.next_down, ih, locate, List.map_cons, Placed.down]

/-- Every line feed of a text is one line more. -/
theorem Position.line_after (position : Position) (chars : List Char) :
    (position.after chars).line = position.line + chars.count '\n' := by
  induction chars generalizing position with
  | nil => rfl
  | cons char chars ih =>
    rw [after_cons, ih, next]
    by_cases feed : char = '\n'
    · subst feed
      rw [if_pos rfl, List.count_cons_self, Nat.add_assoc, Nat.add_comm 1]
    · rw [if_neg feed, List.count_cons_of_ne feed]

/-! ## Answers that are good -/

/-- A mapped answer has the mapped value, if any. -/
theorem toOption_map {ε α β : Type} (f : α → β) (answer : Except ε α) :
    (answer.map f).toOption = answer.toOption.map f := by
  cases answer <;> rfl

/-- Two answers one after the other have the value of the second, if any. -/
theorem toOption_bind {ε α β : Type} (answer : Except ε α) (next : α → Except ε β) :
    (answer >>= next).toOption = answer.toOption.bind fun value => (next value).toOption := by
  cases answer <;> rfl

/-- An answer has a value when it is no error. -/
theorem toOption_eq_some {ε α : Type} {answer : Except ε α} {value : α} :
    answer.toOption = some value ↔ answer = .ok value := by
  cases answer <;> simp [Except.toOption]

namespace Lexeme

/-! ## Lexemes before a line feed -/

/-- A text that is empty or starts with a line feed. -/
def FeedFirst (text : List Glyph) : Prop := ∀ glyph ∈ text.head?, glyph.value = '\n'

/-- Characters are dropped as before from a text further down, and not on into what follows it. -/
theorem dropWhile_down (p : Char → Bool) (stops : p '\n' = false) (count : Nat) (text : List Glyph)
    {tail : List Glyph} (feed : FeedFirst tail) :
    (text.map (Placed.down count) ++ tail).dropWhile (fun glyph => p glyph.value) =
      (text.dropWhile fun glyph => p glyph.value).map (Placed.down count) ++ tail := by
  induction text with
  | nil =>
    cases tail with
    | nil => rfl
    | cons glyph tail =>
      have stop : p glyph.value = false := by rw [feed glyph rfl, stops]
      simp [stop]
  | cons glyph text ih =>
    cases holds : p glyph.value with
    | true => simpa [holds] using ih
    | false => simp [holds]

/-- The characters taken are the same ones. -/
theorem takeWhile_down (p : Char → Bool) (stops : p '\n' = false) (count : Nat) (text : List Glyph)
    {tail : List Glyph} (feed : FeedFirst tail) :
    ((text.map (Placed.down count) ++ tail).takeWhile fun glyph => p glyph.value).map (·.value) =
      (text.takeWhile fun glyph => p glyph.value).map (·.value) := by
  induction text with
  | nil =>
    cases tail with
    | nil => rfl
    | cons glyph tail =>
      have stop : p glyph.value = false := by rw [feed glyph rfl, stops]
      simp [stop]
  | cons glyph text ih =>
    cases holds : p glyph.value with
    | true => simpa [holds] using ih
    | false => simp [holds]

/-- A gap is skipped the same further down: a line feed after it is no part of it. -/
theorem skipGap_down (count : Nat) (text : List Glyph) {tail : List Glyph} (feed : FeedFirst tail) :
    skipGap (text.map (Placed.down count) ++ tail) =
      (skipGap text).map (Placed.down count) ++ tail := by
  have dropped := dropWhile_down isGap (by decide) count text feed
  rw [skipGap, dropped, skipGap]
  cases text.dropWhile fun glyph => isGap glyph.value with
  | nil =>
    cases tail with
    | nil => rfl
    | cons glyph tail =>
      have plain : glyph.value ≠ '#' := by rw [feed glyph rfl]; decide
      simp [plain]
  | cons glyph rest =>
    have comment := dropWhile_down (· != '\n') (by decide) count rest feed
    by_cases sign : glyph.value = '#'
    · simp [sign, comment]
    · simp [sign]

/-- A token taken from a text further down that something follows. -/
def carry {α : Type} (count : Nat) (tail : List Glyph) (found : α × List Glyph) : α × List Glyph :=
  (found.1, found.2.map (Placed.down count) ++ tail)

/-- A string is closed before a line feed or not at all. -/
theorem readString_down (count : Nat) (start other : Position) (text : List Glyph)
    {tail : List Glyph} (feed : FeedFirst tail) :
    (readString other (text.map (Placed.down count) ++ tail)).toOption =
      (readString start text).toOption.map (carry count tail) := by
  fun_induction readString start text with
  | case1 =>
    cases tail with
    | nil => rfl
    | cons glyph tail =>
      have ended : glyph.value = '\n' := feed glyph rfl
      rw [List.map_nil, List.nil_append, readString.eq_def]
      simp [ended, Except.toOption]
  | case2 glyph rest quote =>
    rw [List.map_cons, List.cons_append, readString.eq_def]
    simp [quote, Except.toOption, carry]
  | case3 glyph rest _ ended =>
    rw [List.map_cons, List.cons_append, readString.eq_def]
    simp [ended, Except.toOption]
  | case4 glyph quote ended backslash =>
    rw [List.map_cons, List.cons_append, readString.eq_def]
    cases tail with
    | nil => simp [backslash, Except.toOption]
    | cons mark tail =>
      have unknown : escaped? mark.value = none := by rw [feed mark rfl]; decide
      simp [backslash, unknown, Except.toOption]
  | case5 glyph quote ended backslash mark rest unknown =>
    rw [List.map_cons, List.cons_append, readString.eq_def]
    simp [backslash, unknown, Except.toOption]
  | case6 glyph quote ended backslash mark rest char found ih =>
    rw [List.map_cons, List.cons_append, readString.eq_def]
    simp only [Placed.value_down, if_neg quote, if_neg ended, if_pos backslash, List.map_cons,
      List.cons_append, found, toOption_map, ih]
    cases (readString start rest).toOption <;> rfl
  | case7 glyph rest quote ended backslash ih =>
    rw [List.map_cons, List.cons_append, readString.eq_def]
    simp only [Placed.value_down, quote, ended, backslash, if_false, toOption_map, ih]
    cases (readString start rest).toOption <;> rfl

/-- A number ends before a line feed, which starts no word either. -/
theorem readInteger_down (count : Nat) (char : Char) (position other : Position)
    (text : List Glyph) {tail : List Glyph} (feed : FeedFirst tail) :
    (readInteger ⟨char, other⟩ (text.map (Placed.down count) ++ tail)).toOption =
      (readInteger ⟨char, position⟩ text).toOption.map (carry count tail) := by
  have digits := takeWhile_down Char.isDigit (by decide) count text feed
  have left := dropWhile_down Char.isDigit (by decide) count text feed
  simp only [readInteger, digits, left]
  generalize char :: (text.takeWhile fun glyph => glyph.value.isDigit).map (·.value) = run
  generalize (text.dropWhile fun glyph => glyph.value.isDigit) = rest
  have stops : ((rest.map (Placed.down count) ++ tail).head?.any fun glyph =>
      isWordStart glyph.value) = rest.head?.any fun glyph => isWordStart glyph.value := by
    cases rest with
    | nil =>
      cases tail with
      | nil => rfl
      | cons glyph tail =>
        have plain : isWordStart glyph.value = false := by rw [feed glyph rfl]; decide
        simp [plain]
    | cons glyph rest => rfl
  rw [stops]
  split
  · rfl
  · cases Text.word? (Text.digitsValue run) <;> rfl

/-- A token ends before a line feed, and a line feed is one. -/
theorem readToken_down (count : Nat) (char : Char) (position other : Position) (text : List Glyph)
    {tail : List Glyph} (feed : FeedFirst tail) :
    (readToken ⟨char, other⟩ (text.map (Placed.down count) ++ tail)).toOption =
      (readToken ⟨char, position⟩ text).toOption.map (carry count tail) := by
  unfold readToken
  split_ifs
  · rfl
  · rw [toOption_map, toOption_map, readString_down count position _ text feed]
    cases (readString position text).toOption <;> rfl
  · rfl
  · exact readInteger_down count char position other text feed
  · have word := takeWhile_down isWordPart (by decide) count text feed
    have left := dropWhile_down isWordPart (by decide) count text feed
    simp only [readWord, word, left]
    rfl
  · rfl

/-! ## Whole texts -/

/-- What is left after a gap ends the text. -/
theorem skipGap_suffix (text : List Glyph) : skipGap text <:+ text := by
  obtain ⟨gap, split, _⟩ := exists_gap text
  exact ⟨gap, split.symm⟩

/-- Only a line feed spells a token that ends a line. -/
theorem eq_newline_of_endsLine {token : Token} {first : Char} {more : List Char}
    (spelled : token.SpelledBy (first :: more)) (ends : token.endsLine = true) : first = '\n' := by
  cases spelled with
  | newline => rfl
  | dash | word | integer | quoted => contradiction

/-- A token leaves an end of what follows its first character, and only a line feed ends a line. -/
theorem readToken_spec {first : Glyph} {text : List Glyph} {answer : Token × List Glyph}
    (read : readToken first text = .ok answer) :
    answer.2 <:+ text ∧ (answer.1.endsLine = true → first.value = '\n') := by
  obtain ⟨more, split, spelled, _⟩ := spelledBy_of_readToken read
  exact ⟨⟨more, split.symm⟩, eq_newline_of_endsLine spelled⟩

/-- The lexemes of a text before its end, if it falls into lexemes: they stay the same, further
down, when something follows that starts with a line feed. -/
structure Fronts (text : List Glyph) (front : Option (List Lexeme)) : Prop where
  /-- They end lines only where the text does. -/
  endsLine_eq : (∀ glyph ∈ text, glyph.value ≠ '\n') → ∀ found ∈ front, ∀ lexeme ∈ found,
    lexeme.value.endsLine = false
  /-- The lexemes of what follows come after them. -/
  readAll_eq : ∀ count last tail, FeedFirst tail →
    (readAll last (text.map (Placed.down count) ++ tail)).toOption =
      front.bind fun found => (readAll last tail).toOption.map (found.map (Placed.down count) ++ ·)

/-- What stands after a gap is read the same without the gap. -/
theorem readAll_skipGap {stop : Position} {text other : List Glyph}
    (same : skipGap text = skipGap other) : readAll stop text = readAll stop other := by
  cases skipped : skipGap other with
  | nil => rw [readAll_gap (same.trans skipped), readAll_gap skipped]
  | cons => rw [readAll_token (same.trans skipped), readAll_token skipped]

/-- A text that is a gap has no lexemes before its end. -/
theorem fronts_gap {text : List Glyph} (gap : skipGap text = []) : Fronts text (some []) := by
  refine ⟨fun _ found same lexeme listed => ?_, fun count last tail feed => ?_⟩
  · obtain rfl := Option.mem_some_iff.mp same
    exact absurd listed List.not_mem_nil
  · have skipped := skipGap_down count text feed
    rw [gap] at skipped
    rw [readAll_skipGap (skipped.trans (skipGap_down count [] feed).symm)]
    simp

/-- The first token of a text is the same further down, and what it leaves is read after it. -/
theorem readAll_token_down {text tail : List Glyph} {first : Glyph}
    (skipped : skipGap text = first :: tail) (count : Nat) (last : Position) {more : List Glyph}
    (feed : FeedFirst more) :
    (readAll last (text.map (Placed.down count) ++ more)).toOption =
      (readToken first tail).toOption.bind fun found =>
        (readAll last (found.2.map (Placed.down count) ++ more)).toOption.map
          (⟨found.1, first.position.down count⟩ :: ·) := by
  have gap := skipGap_down count text feed
  rw [skipped, List.map_cons, List.cons_append] at gap
  have same : (readToken (first.down count) (tail.map (Placed.down count) ++ more)).toOption =
      (readToken first tail).toOption.map (carry count more) :=
    readToken_down count first.value first.position _ tail feed
  rw [readAll_token gap, toOption_bind, same]
  cases readToken first tail with
  | error fault => rfl
  | ok found => exact toOption_map ..

/-- A text that does not go on with a token has no lexemes. -/
theorem fronts_error {text tail : List Glyph} {first : Glyph} {fault : TraceError}
    (skipped : skipGap text = first :: tail) (read : readToken first tail = .error fault) :
    Fronts text none := by
  refine ⟨fun _ found same => by contradiction, fun count last more feed => ?_⟩
  rw [readAll_token_down skipped count last feed, read]
  rfl

/-- The lexemes of a text are its first token and those of the rest. -/
theorem fronts_token {text tail rest : List Glyph} {first : Glyph} {token : Token}
    (skipped : skipGap text = first :: tail) (read : readToken first tail = .ok (token, rest))
    {front : Option (List Lexeme)} (fronts : Fronts rest front) :
    Fronts text (front.map (⟨token, first.position⟩ :: ·)) := by
  obtain ⟨suffix, feeds⟩ := readToken_spec read
  refine ⟨fun plain found same lexeme listed => ?_, fun count last more feed => ?_⟩
  · have whole : first :: tail <:+ text := skipped ▸ skipGap_suffix text
    obtain ⟨found, fronted, rfl⟩ := Option.map_eq_some_iff.mp same
    rcases List.mem_cons.mp listed with rfl | later
    · refine Bool.eq_false_iff.mpr fun ends => ?_
      exact plain first (whole.subset List.mem_cons_self) (feeds ends)
    · refine fronts.endsLine_eq (fun glyph inside => ?_) found fronted lexeme later
      exact plain glyph (whole.subset (List.mem_cons_of_mem _ (suffix.subset inside)))
  · rw [readAll_token_down skipped count last feed, read]
    change (readAll last (rest.map (Placed.down count) ++ more)).toOption.map _ = _
    rw [fronts.readAll_eq count last more feed]
    cases front with
    | none => rfl
    | some found => cases readAll last more <;> rfl

/-- Every text has lexemes before its end, or does not fall into lexemes. -/
theorem exists_fronts (text : List Glyph) : ∃ front, Fronts text front := by
  fun_induction readAll .start text with
  | case1 text skipped => exact ⟨_, fronts_gap skipped⟩
  | case2 text first tail skipped fault read => exact ⟨_, fronts_error skipped read⟩
  | case3 text first tail skipped token rest read ih =>
    obtain ⟨front, fronts⟩ := ih
    exact ⟨_, fronts_token skipped read fronts⟩

/-- At the end of the text the end comes after the lexemes. -/
theorem Fronts.readAll_end {text : List Glyph} {front : Option (List Lexeme)}
    (fronts : Fronts text front) (count : Nat) (last : Position) :
    (readAll last (text.map (Placed.down count))).toOption =
      front.map (·.map (Placed.down count) ++ [⟨.endOfText, last⟩]) := by
  have whole := fronts.readAll_eq count last [] (fun glyph first => by contradiction)
  rw [List.append_nil] at whole
  rw [whole, readAll_gap rfl]
  cases front <;> rfl

/-- Before a line feed the end of the line comes after the lexemes. -/
theorem Fronts.readAll_feed {text : List Glyph} {front : Option (List Lexeme)}
    (fronts : Fronts text front) (last feed : Position) (rest : List Glyph) :
    (readAll last (text ++ ⟨'\n', feed⟩ :: rest)).toOption =
      front.bind fun found =>
        (readAll last rest).toOption.map (found ++ ⟨.newline, feed⟩ :: ·) := by
  have whole := fronts.readAll_eq 0 last (⟨'\n', feed⟩ :: rest) (fun glyph first => by
    rw [← Option.some.inj first])
  have token : skipGap (⟨'\n', feed⟩ :: rest) = ⟨'\n', feed⟩ :: rest := rfl
  rw [Placed.map_down_zero, readAll_token token] at whole
  rw [whole]
  cases front with
  | none => rfl
  | some found =>
    rw [Option.bind_some, Option.bind_some, Placed.map_down_zero]
    change (((readAll last rest).map _).toOption).map _ = _
    cases readAll last rest <;> rfl

end Lexeme

/-! ## Lines of lexemes -/

namespace RecordLine

/-- A reader of fields takes the same from lexemes further down, or fails on both. -/
def Agrees {α : Type} (count : Nat) (answer other : Except TraceError (α × List Lexeme)) : Prop :=
  other.toOption = answer.toOption.map fun (value, rest) => (value, rest.map (Placed.down count))

section Agrees

variable (count : Nat) (stop other : Lexeme)

/-- Readers that agree do so when others that agree come after them. -/
theorem Agrees.bind {α β : Type} {count : Nat}
    {answer answer' : Except TraceError (α × List Lexeme)}
    {next next' : α × List Lexeme → Except TraceError (β × List Lexeme)}
    (agrees : Agrees count answer answer')
    (nexts : ∀ value rest,
      Agrees count (next (value, rest)) (next' (value, rest.map (Placed.down count)))) :
    Agrees count (answer >>= next) (answer' >>= next') := by
  unfold Agrees at agrees ⊢
  rw [toOption_bind, toOption_bind, agrees]
  cases answer with
  | error => rfl
  | ok found => exact nexts found.1 found.2

/-- A number is taken the same further down. -/
theorem agrees_takeInteger (field : Field) (fields : List Lexeme) :
    Agrees count (takeInteger stop field fields)
      (takeInteger other field (fields.map (Placed.down count))) := by
  rcases fields with _ | ⟨⟨token, position⟩, rest⟩
  · rfl
  · cases token <;> rfl

/-- A string is taken the same further down. -/
theorem agrees_takeString (field : Field) (fields : List Lexeme) :
    Agrees count (takeString stop field fields)
      (takeString other field (fields.map (Placed.down count))) := by
  rcases fields with _ | ⟨⟨token, position⟩, rest⟩
  · rfl
  · cases token <;> rfl

/-- A kind is taken the same further down. -/
theorem agrees_takeKind (fields : List Lexeme) :
    Agrees count (takeKind stop fields) (takeKind other (fields.map (Placed.down count))) := by
  rcases fields with _ | ⟨⟨token, position⟩, rest⟩
  · rfl
  · cases token with
    | word name =>
      simp only [takeKind, List.map_cons, Placed.down]
      cases Kind.ofName? name <;> rfl
    | _ => rfl

/-- A point of instantiation is taken the same further down. -/
theorem agrees_takeLocation (fields : List Lexeme) :
    Agrees count (takeLocation stop fields)
      (takeLocation other (fields.map (Placed.down count))) := by
  rcases fields with _ | ⟨⟨token, position⟩, rest⟩
  · rfl
  · cases token with
    | quoted file =>
      refine (agrees_takeInteger count stop other .line rest).bind fun line rest => ?_
      exact (agrees_takeInteger count stop other .column rest).bind fun column rest => rfl
    | _ => rfl

/-- A record is taken the same further down. -/
theorem agrees_takeRecord (keyword : String) (position position' : Position)
    (fields : List Lexeme) :
    Agrees count (takeRecord stop keyword position fields)
      (takeRecord other keyword position' (fields.map (Placed.down count))) := by
  unfold takeRecord
  split_ifs
  · refine (agrees_takeInteger count stop other .entityId fields).bind fun id rest => ?_
    exact (agrees_takeString count stop other .entityName rest).bind fun name rest => rfl
  · refine (agrees_takeInteger count stop other .source fields).bind fun source rest => ?_
    refine (agrees_takeInteger count stop other .target rest).bind fun target rest => ?_
    refine (agrees_takeKind count stop other rest).bind fun kind rest => ?_
    exact (agrees_takeLocation count stop other rest).bind fun location rest => rfl
  · exact (agrees_takeString count stop other .result fields).bind fun text rest => rfl
  · rfl

end Agrees

/-- The same lexemes, further down. The ends of the lines may differ. -/
def Below (count : Nat) (line other : RecordLine) : Prop :=
  other.lexemes = line.lexemes.map (Placed.down count)

/-- A line further down holds the same record further down, or neither holds one. -/
theorem Below.record?_eq {count : Nat} {line other : RecordLine} (below : Below count line other) :
    other.record?.toOption = line.record?.toOption.map (Option.map (Placed.down count)) := by
  obtain ⟨lexemes, stop⟩ := line
  obtain ⟨_, last⟩ := other
  obtain rfl := below
  rcases lexemes with _ | ⟨⟨token, position⟩, fields⟩
  · rfl
  · cases token with
    | word keyword =>
      have agrees := agrees_takeRecord count stop last keyword position
        (position.down count) fields
      unfold Agrees at agrees
      simp only [record?, List.map_cons, Placed.down]
      cases taken : takeRecord stop keyword position fields with
      | error fault =>
        rw [taken] at agrees
        cases other : takeRecord last keyword (position.down count)
            (fields.map (Placed.down count)) with
        | error => rfl
        | ok => rw [other] at agrees; contradiction
      | ok found =>
        rw [taken] at agrees
        rw [toOption_eq_some.mp agrees]
        obtain ⟨record, rest⟩ := found
        cases rest <;> rfl
    | _ => rfl

/-- The records of lines are that of the first line, if it has one, and those of the others. -/
theorem records_cons (line : RecordLine) (lines : List RecordLine) :
    (records (line :: lines)).toOption =
      line.record?.toOption.bind fun record =>
        (records lines).toOption.map (record.toList ++ ·) := by
  rw [records, toOption_bind]
  cases records lines <;> rfl

/-- The records of lines are those of the first ones and those of the others. -/
theorem records_append (front back : List RecordLine) :
    (records (front ++ back)).toOption =
      (records front).toOption.bind fun first => (records back).toOption.map (first ++ ·) := by
  induction front with
  | nil => simp [records, Except.toOption]
  | cons line front ih =>
    rw [List.cons_append, records_cons, records_cons, ih]
    cases line.record?.toOption <;> cases (records front).toOption <;>
      cases (records back).toOption <;> simp

/-- Lines further down hold the same records further down. -/
theorem records_below {count : Nat} {lines others : List RecordLine}
    (below : List.Forall₂ (Below count) lines others) :
    (records others).toOption = (records lines).toOption.map (List.map (Placed.down count)) := by
  induction below with
  | nil => rfl
  | @cons line other lines others first _ ih =>
    rw [records_cons, records_cons, first.record?_eq, ih]
    cases line.record?.toOption with
    | none => rfl
    | some record => cases record <;> cases (records lines).toOption <;> rfl

/-- The lines of lexemes are the same further down, up to the end of the last one, and end where
further ones start. -/
theorem below_ofLexemes (count : Nat) (found : List Lexeme) {stop other : Lexeme}
    (ends : stop.value.endsLine = true) (ends' : other.value.endsLine = true)
    (rest : List Lexeme) :
    ∃ lines : List RecordLine,
      ofLexemes (found.map (Placed.down count) ++ other :: rest) = lines ++ ofLexemes rest ∧
      List.Forall₂ (Below count) (ofLexemes (found ++ [stop])) lines ∧ lines ≠ [] := by
  induction found with
  | nil =>
    refine ⟨[⟨[], other⟩], ?_, ?_, List.cons_ne_nil _ _⟩
    · rw [List.map_nil, List.nil_append, ofLexemes, if_pos ends']
      rfl
    · rw [List.nil_append, ofLexemes, if_pos ends]
      exact .cons rfl .nil
  | cons lexeme found ih =>
    obtain ⟨lines, split, below, some⟩ := ih
    rw [List.map_cons, List.cons_append, List.cons_append, ofLexemes, ofLexemes, split,
      Placed.value_down]
    cases lexeme.value.endsLine with
    | true => exact ⟨⟨[], lexeme.down count⟩ :: lines, rfl, .cons rfl below, List.cons_ne_nil _ _⟩
    | false =>
      generalize ofLexemes (found ++ [stop]) = firsts at below
      cases below with
      | nil => contradiction
      | @cons first other firsts others same below =>
        exact ⟨⟨lexeme.down count :: other.lexemes, other.stop⟩ :: others, rfl,
          .cons (congrArg (lexeme.down count :: ·) same) below, List.cons_ne_nil _ _⟩

/-- Where lexemes end with a line, their records come before those of further lexemes. -/
theorem records_ofLexemes (count : Nat) (found : List Lexeme) (stop other : Lexeme)
    (ends : stop.value.endsLine = true) (ends' : other.value.endsLine = true)
    (rest : List Lexeme) :
    (records (ofLexemes (found.map (Placed.down count) ++ other :: rest))).toOption =
      (records (ofLexemes (found ++ [stop]))).toOption.bind fun first =>
        (records (ofLexemes rest)).toOption.map (first.map (Placed.down count) ++ ·) := by
  obtain ⟨lines, split, below, -⟩ := below_ofLexemes count found ends ends' rest
  rw [split, records_append, records_below below]
  cases (records (ofLexemes (found ++ [stop]))).toOption <;> rfl

/-- A line has one record at most. -/
theorem length_records_single {line : RecordLine} {found : List (Placed Record)}
    (read : records [line] = .ok found) : found.length ≤ 1 := by
  have answer := records_cons line []
  rw [read] at answer
  cases own : line.record? with
  | error fault => rw [own] at answer; contradiction
  | ok record =>
    rw [own] at answer
    obtain rfl : found = record.toList ++ [] := Option.some.inj answer
    cases record <;> simp

end RecordLine

/-! ## Texts -/

/-- The records of a text are those of its lines. -/
theorem toOption_readRecords (text : String) :
    (readRecords text).toOption = (lexemes text).toOption.bind fun found =>
      (RecordLine.records (RecordLine.ofLexemes found)).toOption := by
  rw [readRecords, toOption_bind]

/-- A text that goes on after a line feed starts further down. -/
theorem glyphs_joined (front back : String) :
    glyphs (front ++ "\n" ++ back) =
      glyphs front ++ ⟨'\n', Position.start.after front.toList⟩ ::
        (glyphs back).map (Placed.down (front.toList.count '\n' + 1)) := by
  have below : (Position.start.after front.toList).next '\n' =
      Position.start.down (front.toList.count '\n' + 1) := by
    rw [Position.next, if_pos rfl, Position.line_after, Position.down, Nat.add_assoc]
    rfl
  have chars : (front ++ "\n" ++ back).toList = front.toList ++ '\n' :: back.toList := by simp
  rw [glyphs, chars, locate_append, locate, below, locate_down]
  rfl

/-- The lexemes of a text are those before its end, and the end. -/
theorem toOption_lexemes {text : String} {front : Option (List Lexeme)}
    (fronts : Lexeme.Fronts (glyphs text) front) :
    (lexemes text).toOption =
      front.map (· ++ [⟨.endOfText, Position.start.after text.toList⟩]) := by
  have whole := fronts.readAll_end 0 (Position.start.after text.toList)
  simp only [Placed.map_down_zero] at whole
  exact whole

/-- A text that goes on after a line feed is read as its parts are, the second one further down. -/
theorem toOption_readRecords_joined (front back : String) :
    (readRecords (front ++ "\n" ++ back)).toOption =
      (readRecords front).toOption.bind fun first =>
        (readRecords back).toOption.map fun later =>
          first ++ later.map (Placed.down (front.toList.count '\n' + 1)) := by
  obtain ⟨first, fronts⟩ := Lexeme.exists_fronts (glyphs front)
  obtain ⟨later, backs⟩ := Lexeme.exists_fronts (glyphs back)
  rw [toOption_readRecords, toOption_readRecords front, toOption_readRecords back,
    toOption_lexemes fronts, toOption_lexemes backs, lexemes, glyphs_joined, fronts.readAll_feed,
    backs.readAll_end]
  cases first with
  | none => rfl
  | some first =>
    simp only [Option.map_some, Option.bind_some]
    cases later with
    | none => cases (RecordLine.records _).toOption <;> rfl
    | some later =>
      have cut := RecordLine.records_ofLexemes 0 first
        ⟨.endOfText, Position.start.after front.toList⟩
        ⟨.newline, Position.start.after front.toList⟩ rfl rfl
      have moved := RecordLine.records_ofLexemes (front.toList.count '\n' + 1) later
        ⟨.endOfText, Position.start.after back.toList⟩
        ⟨.endOfText, Position.start.after (front ++ "\n" ++ back).toList⟩ rfl rfl []
      simp only [Placed.map_down_zero] at cut
      simp only [Option.map_some, Option.bind_some, cut, moved]
      cases (RecordLine.records (RecordLine.ofLexemes (first ++ _))).toOption with
      | none => rfl
      | some first =>
        cases (RecordLine.records (RecordLine.ofLexemes (later ++ _))).toOption with
        | none => rfl
        | some later => exact congrArg (fun rest => some (first ++ rest)) (List.append_nil _)

/-- A text without a line feed is one line. -/
theorem length_of_readRecords {text : String} (plain : '\n' ∉ text.toList)
    {records : List (Placed Record)} (read : readRecords text = .ok records) :
    records.length ≤ 1 := by
  obtain ⟨front, fronts⟩ := Lexeme.exists_fronts (glyphs text)
  have good := toOption_eq_some.mpr read
  rw [toOption_readRecords, toOption_lexemes fronts] at good
  cases front with
  | none => contradiction
  | some found =>
    have stays : ∀ lexeme ∈ found, lexeme.value.endsLine = false := by
      refine fronts.endsLine_eq (fun glyph inside => ?_) found rfl
      exact ne_of_mem_of_not_mem (value_mem_of_mem_locate inside) plain
    rw [Option.map_some, Option.bind_some, Record.ofLexemes_append stays rfl] at good
    exact RecordLine.length_records_single (toOption_eq_some.mp good)

/-- Texts are read line by line: a text that goes on after a line feed holds records exactly when
both parts do, and then those of the one and those of the other, further down by the lines that the
first part takes. No line holds more than one record. -/
theorem readRecords_joined :
    (∀ (front back : String) (records : List (Placed Record)),
      readRecords (front ++ "\n" ++ back) = .ok records ↔
        ∃ first later, readRecords front = .ok first ∧ readRecords back = .ok later ∧
          records = first ++ later.map (Placed.down (front.toList.count '\n' + 1))) ∧
    ∀ (text : String) (records : List (Placed Record)), '\n' ∉ text.toList →
      readRecords text = .ok records → records.length ≤ 1 := by
  refine ⟨fun front back records => ?_, fun text records plain read => ?_⟩
  · rw [← toOption_eq_some, toOption_readRecords_joined, Option.bind_eq_some_iff]
    simp only [Option.map_eq_some_iff, toOption_eq_some]
    constructor
    · rintro ⟨first, readFront, later, readBack, rfl⟩
      exact ⟨first, later, readFront, readBack, rfl⟩
    · rintro ⟨first, later, readFront, readBack, rfl⟩
      exact ⟨first, readFront, later, readBack, rfl⟩
  · exact length_of_readRecords plain read

/-- A record before a line feed and one after it, with a comment that the line feed ends. -/
theorem readRecords_joined_commented :
    readRecords ("entity 1 \"a\" # not escaped: \\" ++ "\n" ++ " result \"b\"") =
        .ok [⟨.entity 1 "a", ⟨1, 1⟩⟩, ⟨.result "b", ⟨2, 2⟩⟩] ∧
      '\n' ∉ " result \"b\"".toList ∧ readRecords " result \"b\"" = .ok [⟨.result "b", ⟨1, 2⟩⟩] ∧
      [(⟨.result "b", ⟨1, 2⟩⟩ : Placed Record)].length ≤ 1 := by
  have front : readRecords "entity 1 \"a\" # not escaped: \\" =
      .ok [⟨.entity 1 "a", ⟨1, 1⟩⟩] := by decide +kernel
  have back : readRecords " result \"b\"" = .ok [⟨.result "b", ⟨1, 2⟩⟩] := by decide +kernel
  have plain : '\n' ∉ " result \"b\"".toList := by decide
  refine ⟨(readRecords_joined.1 _ _ _).mpr ⟨_, _, front, back, by decide⟩, plain, back, ?_⟩
  exact readRecords_joined.2 _ _ plain back

end Retrace
