import Mathlib.Data.List.Induction
import Mathlib.Data.List.TakeWhile
import Retrace.Proofs.Spelling

/-!
# Texts that are read

The reading of a text is exactly what its spelling allows. Each reader takes a piece from the front
of the text that has the form it is to have: a gap (`Lexeme.exists_gap`), the body of a string
(`Lexeme.encodes_of_readString`), a token (`Lexeme.spelledBy_of_readToken`). So a text that is read
falls into its lexemes with gaps between them, and since such a text is read as these, the two are
the same (`Lexeme.readAll_eq_ok_iff`). A text that is not read falls into lexemes up to a character
at which no token starts, and there the error is found (`Lexeme.refuses_of_readAll`).

Positions are counted, not carried: that of a character is told by the line feeds before it and the
characters since the last of them (`Position.behind`).
-/
namespace Retrace

/-! ## Positions -/

/-- Position of a character by what stands before it: one more than the line feeds, and one more
than the characters since the last of them. -/
def Position.behind (before : List Char) : Position where
  line := 1 + before.count '\n'
  column := 1 + (before.reverse.takeWhile (· != '\n')).length

/-- One more character moves the position behind a text as it moves any position. -/
theorem Position.behind_concat (before : List Char) (char : Char) :
    behind (before ++ [char]) = (behind before).next char := by
  by_cases feed : char = '\n'
  · simp [behind, next, feed, Nat.add_assoc]
  · simp [behind, next, feed, Nat.add_assoc]

/-- A text moves the first position to the one behind it. -/
theorem Position.after_start (chars : List Char) : start.after chars = behind chars := by
  induction chars using List.reverseRecOn with
  | nil => rfl
  | append_singleton chars char ih =>
    rw [after_append, ih, behind_concat]
    rfl

/-- A located character stands at the position after those before it. -/
theorem getElem?_locate (position : Position) (chars : List Char) (index : Nat) :
    (locate position chars)[index]? =
      chars[index]?.map fun char => ⟨char, position.after (chars.take index)⟩ := by
  induction chars generalizing position index with
  | nil => rfl
  | cons char chars ih =>
    cases index with
    | zero => rfl
    | succ index => exact ih (position.next char) index

namespace Lexeme

/-! ## What is read -/

/-- What a run is made of belongs to it. -/
theorem holds_of_takeWhile (p : Char → Bool) {text : List Glyph} {glyph : Glyph}
    (inside : glyph ∈ text.takeWhile fun glyph => p glyph.value) : p glyph.value = true :=
  List.mem_takeWhile_imp (p := fun glyph : Glyph => p glyph.value) inside

/-- What comes first after a run does not belong to it. -/
theorem stop_of_dropWhile {p : Glyph → Bool} {text : List Glyph} :
    ∀ glyph ∈ (text.dropWhile p).head?, p glyph = false := by
  intro glyph first
  have stops := List.head?_dropWhile_not p text
  rw [Option.mem_def.mp first] at stops
  exact stops

/-- What is skipped is a gap. -/
theorem exists_gap (text : List Glyph) :
    ∃ gap, text = gap ++ skipGap text ∧ Gap gap (skipGap text) := by
  let blanks := text.takeWhile fun glyph => isGap glyph.value
  have blank : ∀ glyph ∈ blanks, isGap glyph.value = true :=
    fun glyph inside => holds_of_takeWhile isGap inside
  have split : blanks ++ text.dropWhile (fun glyph => isGap glyph.value) = text :=
    List.takeWhile_append_dropWhile
  have stop : ∀ glyph ∈ (text.dropWhile fun glyph => isGap glyph.value).head?,
      isGap glyph.value = false := stop_of_dropWhile
  unfold skipGap
  generalize text.dropWhile (fun glyph => isGap glyph.value) = after at split stop
  cases after with
  | nil => exact ⟨blanks, split.symm, .blanks blank fun glyph first => by contradiction⟩
  | cons mark rest =>
    by_cases sign : mark.value = '#'
    · simp only [sign, if_true]
      refine ⟨blanks ++ mark :: rest.takeWhile fun glyph => glyph.value != '\n', ?_,
        .comment blank sign (fun glyph inside => ?_) fun glyph first => ?_⟩
      · rw [List.append_assoc, List.cons_append, List.takeWhile_append_dropWhile]
        exact split.symm
      · simpa using holds_of_takeWhile (· != '\n') inside
      · simpa using stop_of_dropWhile glyph first
    · simp only [sign, if_false]
      refine ⟨blanks, split.symm, .blanks blank fun glyph first => ?_⟩
      obtain rfl := Option.some.inj first
      exact ⟨stop mark rfl, sign⟩

/-- What is read as the characters of a string stands for them, and a quote comes after it. -/
theorem encodes_of_readString {start : Position} {text : List Glyph}
    {answer : List Char × List Glyph} (read : readString start text = .ok answer) :
    ∃ body quote, text = body ++ quote :: answer.2 ∧ quote.value = '"' ∧
      Encodes (body.map (·.value)) answer.1 := by
  fun_induction readString start text generalizing answer with
  | case1 | case3 | case4 | case5 => contradiction
  | case2 glyph rest quote =>
    obtain rfl := Except.ok.inj read
    exact ⟨[], glyph, rfl, quote, .nil⟩
  | case6 glyph _ _ backslash mark rest char escape ih =>
    obtain ⟨inner, inside, rfl⟩ := map_eq_ok.1 read
    obtain ⟨body, quote, rfl, closing, encodes⟩ := ih inside
    refine ⟨glyph :: mark :: body, quote, rfl, closing, ?_⟩
    rw [List.map_cons, List.map_cons, backslash]
    exact .escaped escape encodes
  | case7 glyph rest quote feed backslash ih =>
    obtain ⟨inner, inside, rfl⟩ := map_eq_ok.1 read
    obtain ⟨body, close, rfl, closing, encodes⟩ := ih inside
    exact ⟨glyph :: body, close, rfl, closing, .plain quote backslash feed encodes⟩

/-- What is read as a number is a run of digits that spells it. -/
theorem spelledBy_of_readInteger {first : Glyph} {text : List Glyph} {answer : Token × List Glyph}
    (digit : first.value.isDigit = true) (read : readInteger first text = .ok answer) :
    ∃ more, text = more ++ answer.2 ∧
      answer.1.SpelledBy (first.value :: more.map (·.value)) ∧ answer.1.EndsBefore answer.2 := by
  simp only [readInteger] at read
  split_ifs at read with runs
  split at read
  · contradiction
  · rename_i value fits
    obtain rfl := Except.ok.inj read
    refine ⟨text.takeWhile fun glyph => glyph.value.isDigit, ?_, ?_, fun glyph first => ?_⟩
    · exact List.takeWhile_append_dropWhile.symm
    · rw [Text.word?] at fits
      split_ifs at fits with small
      obtain rfl := Option.some.inj fits
      refine .integer (List.cons_ne_nil _ _)
        (List.forall_mem_cons.mpr ⟨digit, fun char inside => ?_⟩) small
      obtain ⟨glyph, taken, rfl⟩ := List.mem_map.mp inside
      exact holds_of_takeWhile Char.isDigit taken
    · have free := Bool.eq_false_iff.mpr runs
      rw [first, Option.any_some] at free
      exact ⟨stop_of_dropWhile glyph first, free⟩

/-- What is read as a word spells it. -/
theorem spelledBy_readWord {first : Glyph} (start : isWordStart first.value = true)
    (text : List Glyph) : ∃ more, text = more ++ (readWord first text).2 ∧
      (readWord first text).1.SpelledBy (first.value :: more.map (·.value)) ∧
      (readWord first text).1.EndsBefore (readWord first text).2 := by
  refine ⟨text.takeWhile fun glyph => isWordPart glyph.value, ?_, ?_, fun glyph next => ?_⟩
  · exact List.takeWhile_append_dropWhile.symm
  · refine .word start fun char inside => ?_
    obtain ⟨glyph, taken, rfl⟩ := List.mem_map.mp inside
    exact holds_of_takeWhile isWordPart taken
  · exact stop_of_dropWhile glyph next

/-- What is read as a token spells it, up to where it ends. -/
theorem spelledBy_of_readToken {first : Glyph} {text : List Glyph} {answer : Token × List Glyph}
    (read : readToken first text = .ok answer) : ∃ more, text = more ++ answer.2 ∧
      answer.1.SpelledBy (first.value :: more.map (·.value)) ∧ answer.1.EndsBefore answer.2 := by
  unfold readToken at read
  split_ifs at read with feed quote sign digit start
  · obtain rfl := Except.ok.inj read
    exact ⟨[], rfl, feed ▸ .newline, trivial⟩
  · obtain ⟨inner, inside, rfl⟩ := map_eq_ok.1 read
    obtain ⟨body, close, rfl, closing, encodes⟩ := encodes_of_readString inside
    refine ⟨body ++ [close], by simp, ?_, trivial⟩
    rw [List.map_append, List.map_singleton, closing, quote]
    exact .quoted encodes
  · obtain rfl := Except.ok.inj read
    exact ⟨[], rfl, sign ▸ .dash, trivial⟩
  · exact spelledBy_of_readInteger digit read
  · obtain rfl := Except.ok.inj read
    exact spelledBy_readWord start text

/-! ## What is refused -/

/-- Whether a string breaks off where `rest` starts: at the end of the line or of the text, or at a
backslash that ends the text. -/
def BreaksOff (rest : List Glyph) : Prop :=
  rest = [] ∨ (∃ feed more, rest = feed :: more ∧ feed.value = '\n') ∨
    ∃ backslash, rest = [backslash] ∧ backslash.value = '\\'

/-- What is refused at a character and the text after it, and the error that is found there. All
errors are found at the character but one: an escape that stands for nothing is found at the mark
after its backslash. -/
inductive Refuses (first : Glyph) : List Glyph → TraceError → Prop
  /-- No token starts with such a character. -/
  | unexpectedCharacter {tail : List Glyph} : first.value ≠ '\n' → first.value ≠ '"' →
      first.value ≠ '-' → first.value.isDigit = false → isWordStart first.value = false →
      Refuses first tail (.malformed (.unexpectedCharacter first.value) first.position)
  /-- A string breaks off. -/
  | unterminatedString {body rest : List Glyph} {chars : List Char} : first.value = '"' →
      Encodes (body.map (·.value)) chars → BreaksOff rest →
      Refuses first (body ++ rest) (.malformed .unterminatedString first.position)
  /-- A backslash in a string stands before a character that it does not escape. -/
  | unknownEscape {body rest : List Glyph} {chars : List Char} {backslash mark : Glyph} :
      first.value = '"' → Encodes (body.map (·.value)) chars → backslash.value = '\\' →
      escaped? mark.value = none →
      Refuses first (body ++ backslash :: mark :: rest)
        (.malformed (.unknownEscape mark.value) mark.position)
  /-- A number runs into a word. -/
  | malformedNumber {digits rest : List Glyph} {letter : Glyph} :
      (∀ glyph ∈ first :: digits, glyph.value.isDigit = true) → isWordStart letter.value = true →
      Refuses first (digits ++ letter :: rest) (.malformed
        (.malformedNumber (String.ofList ((first :: digits).map (·.value)))) first.position)
  /-- A number does not fit a word of 64 bits. -/
  | integerTooLarge {digits rest : List Glyph} :
      (∀ glyph ∈ first :: digits, glyph.value.isDigit = true) →
      (∀ glyph ∈ rest.head?, glyph.value.isDigit = false ∧ isWordStart glyph.value = false) →
      Text.maxWord < Text.digitsValue ((first :: digits).map (·.value)) →
      Refuses first (digits ++ rest) (.malformed
        (.integerTooLarge (String.ofList ((first :: digits).map (·.value)))) first.position)

/-- No token starts with a character, whatever part of the text after it is taken. -/
def StartsNoToken (first : Glyph) (tail : List Glyph) : Prop :=
  ∀ (token : Token) (more rest : List Glyph), tail = more ++ rest →
    token.SpelledBy (first.value :: more.map (·.value)) → ¬ token.EndsBefore rest

/-- A mapped answer fails as the answer does. -/
theorem map_eq_error {ε α β : Type} {f : α → β} {answer : Except ε α} {fault : ε} :
    answer.map f = .error fault ↔ answer = .error fault := by
  cases answer <;> simp [Except.map]

/-- A string is refused where it breaks off or an escape stands for nothing. What comes before that
place is encoded. -/
theorem refuses_of_readString {first : Glyph} {text : List Glyph} {fault : TraceError}
    (quote : first.value = '"') (read : readString first.position text = .error fault) :
    Refuses first text fault := by
  have grown : ∃ body rest chars, text = body ++ rest ∧ Encodes (body.map (·.value)) chars ∧
      ((BreaksOff rest ∧ fault = .malformed .unterminatedString first.position) ∨
        ∃ backslash mark more, rest = backslash :: mark :: more ∧ backslash.value = '\\' ∧
          escaped? mark.value = none ∧
          fault = .malformed (.unknownEscape mark.value) mark.position) := by
    clear quote
    fun_induction readString first.position text with
    | case1 =>
      obtain rfl := Except.error.inj read
      exact ⟨[], [], [], rfl, .nil, .inl ⟨.inl rfl, rfl⟩⟩
    | case2 => contradiction
    | case3 glyph rest _ feed =>
      obtain rfl := Except.error.inj read
      exact ⟨[], _, [], rfl, .nil, .inl ⟨.inr (.inl ⟨glyph, rest, rfl, feed⟩), rfl⟩⟩
    | case4 glyph _ _ backslash =>
      obtain rfl := Except.error.inj read
      exact ⟨[], _, [], rfl, .nil, .inl ⟨.inr (.inr ⟨glyph, rfl, backslash⟩), rfl⟩⟩
    | case5 glyph _ _ backslash mark rest escape =>
      obtain rfl := Except.error.inj read
      exact ⟨[], _, [], rfl, .nil, .inr ⟨glyph, mark, rest, rfl, backslash, escape, rfl⟩⟩
    | case6 glyph _ _ backslash mark rest char escape ih =>
      obtain ⟨body, left, chars, rfl, encodes, found⟩ := ih (map_eq_error.mp read)
      refine ⟨glyph :: mark :: body, left, char :: chars, rfl, ?_, found⟩
      rw [List.map_cons, List.map_cons, backslash]
      exact .escaped escape encodes
    | case7 glyph rest quote feed backslash ih =>
      obtain ⟨body, left, chars, rfl, encodes, found⟩ := ih (map_eq_error.mp read)
      exact ⟨glyph :: body, left, glyph.value :: chars, rfl, .plain quote backslash feed encodes,
        found⟩
  obtain ⟨body, rest, chars, rfl, encodes,
    ⟨breaks, rfl⟩ | ⟨backslash, mark, more, rfl, slash, escape, rfl⟩⟩ := grown
  · exact .unterminatedString quote encodes breaks
  · exact .unknownEscape quote encodes slash escape

/-- A number is refused that runs into a word or is too large. -/
theorem refuses_of_readInteger {first : Glyph} {text : List Glyph} {fault : TraceError}
    (digit : first.value.isDigit = true) (read : readInteger first text = .error fault) :
    Refuses first text fault := by
  let run := text.takeWhile fun glyph => glyph.value.isDigit
  let rest := text.dropWhile fun glyph => glyph.value.isDigit
  have split : run ++ rest = text := List.takeWhile_append_dropWhile
  have digits : ∀ glyph ∈ first :: run, glyph.value.isDigit = true :=
    List.forall_mem_cons.mpr ⟨digit, fun glyph inside => holds_of_takeWhile Char.isDigit inside⟩
  have stop : ∀ glyph ∈ rest.head?, glyph.value.isDigit = false := stop_of_dropWhile
  suffices refused : Refuses first (run ++ rest) fault from split ▸ refused
  simp only [readInteger] at read
  split_ifs at read with runs
  · obtain rfl := Except.error.inj read
    obtain ⟨letter, next, start⟩ := Option.any_eq_true _ _ |>.mp runs
    obtain ⟨more, whole⟩ := List.head?_eq_some_iff.mp next
    rw [show rest = letter :: more from whole]
    exact .malformedNumber digits start
  · split at read
    · rename_i large
      obtain rfl := Except.error.inj read
      rw [Text.word?] at large
      split_ifs at large with small
      refine .integerTooLarge digits (fun glyph next => ⟨stop glyph next, ?_⟩)
        (Nat.lt_of_not_le small)
      have free := Bool.eq_false_iff.mpr runs
      rw [show text.dropWhile _ = rest from rfl, next, Option.any_some] at free
      exact free
    · contradiction

/-- What is not read as a token is refused. -/
theorem refuses_of_readToken {first : Glyph} {text : List Glyph} {fault : TraceError}
    (read : readToken first text = .error fault) : Refuses first text fault := by
  unfold readToken at read
  split_ifs at read with feed quote sign digit start
  · exact refuses_of_readString quote (map_eq_error.mp read)
  · exact refuses_of_readInteger digit read
  · obtain rfl := Except.error.inj read
    exact .unexpectedCharacter feed quote sign (Bool.eq_false_iff.mpr digit)
      (Bool.eq_false_iff.mpr start)

/-- No token starts where one is not read. -/
theorem startsNoToken_of_readToken {first : Glyph} {text : List Glyph} {fault : TraceError}
    (read : readToken first text = .error fault) : StartsNoToken first text := by
  rintro token more rest rfl spelled ends
  rw [readToken_of_spelledBy spelled ends] at read
  contradiction

/-! ## Whole texts -/

/-- A text is read as some lexemes exactly when it falls into them, a gap and its end. -/
theorem readAll_eq_ok_iff {stop : Position} {text : List Glyph} {answer : List Lexeme} :
    readAll stop text = .ok answer ↔ ∃ found gap, Lexes text found gap ∧ Gap gap [] ∧
      answer = found ++ [⟨.endOfText, stop⟩] := by
  constructor
  · intro read
    fun_induction readAll stop text generalizing answer with
    | case1 text skipped =>
      obtain rfl := Except.ok.inj read
      obtain ⟨gap, split, before⟩ := exists_gap text
      rw [skipped] at split before
      rw [List.append_nil] at split
      exact ⟨[], text, .nil, split ▸ before, rfl⟩
    | case2 => contradiction
    | case3 text first tail skipped token rest taken ih =>
      obtain ⟨later, inside, rfl⟩ := map_eq_ok.1 read
      obtain ⟨found, last, lexes, ending, rfl⟩ := ih inside
      obtain ⟨gap, split, before⟩ := exists_gap text
      obtain ⟨more, rfl, spelled, ends⟩ := spelledBy_of_readToken taken
      rw [skipped] at split before
      refine ⟨⟨token, first.position⟩ :: found, last, ?_, ending, rfl⟩
      rw [split]
      exact .cons before spelled ends lexes
  · rintro ⟨found, gap, lexes, ending, rfl⟩
    rw [lexes.readAll_eq, ending.readAll_eq]
    rfl

/-- A text that is not read falls into lexemes and a gap up to a character where it is refused, and
no token starts there. -/
theorem refuses_of_readAll {stop : Position} {text : List Glyph} {fault : TraceError}
    (read : readAll stop text = .error fault) : ∃ found gap first tail,
      Lexes text found (gap ++ first :: tail) ∧ Gap gap (first :: tail) ∧
        StartsNoToken first tail ∧ Refuses first tail fault := by
  fun_induction readAll stop text with
  | case1 => contradiction
  | case2 text first tail skipped fault' failed =>
    obtain rfl := Except.error.inj read
    obtain ⟨gap, split, before⟩ := exists_gap text
    rw [skipped] at split before
    exact ⟨[], gap, first, tail, split ▸ .nil, before, startsNoToken_of_readToken failed,
      refuses_of_readToken failed⟩
  | case3 text first tail skipped token rest taken ih =>
    obtain ⟨found, last, wrong, after, lexes, ending, none, refused⟩ := ih (map_eq_error.mp read)
    obtain ⟨gap, split, before⟩ := exists_gap text
    obtain ⟨more, rfl, spelled, ends⟩ := spelledBy_of_readToken taken
    rw [skipped] at split before
    refine ⟨⟨token, first.position⟩ :: found, last, wrong, after, ?_, ending, none, refused⟩
    rw [split]
    exact .cons before spelled ends lexes

/-- Every text is read or refused. The lexemes of a text that is read are those that it falls into
with gaps before, between and after them, and the end of the text. A text that is refused falls into
lexemes and gaps up to a character at which no token starts; the error is found there, or at the
mark of an unknown escape in a string that starts there. The position of every character is one more
than the line feeds before it and one more than the characters since the last of them, and so is
that of the end. -/
theorem lexemes_spec (text : String) :
    (∀ index, (glyphs text)[index]? = text.toList[index]?.map fun char =>
        (⟨char, .behind (text.toList.take index)⟩ : Glyph)) ∧
      (∀ answer, lexemes text = .ok answer ↔ ∃ found gap, Lexes (glyphs text) found gap ∧
        Gap gap [] ∧ answer = found ++ [⟨.endOfText, .behind text.toList⟩]) ∧
      ∀ fault, lexemes text = .error fault → ∃ found gap first tail,
        Lexes (glyphs text) found (gap ++ first :: tail) ∧ Gap gap (first :: tail) ∧
          StartsNoToken first tail ∧ Refuses first tail fault := by
  refine ⟨fun index => ?_, fun answer => ?_, fun fault read => refuses_of_readAll read⟩
  · simp only [glyphs, getElem?_locate, Position.after_start]
  · rw [lexemes, readAll_eq_ok_iff, Position.after_start]

/-- A number is read with its leading zeros, and a string is refused at the character after a
backslash, on the line below. -/
theorem lexemes_spec_unknownEscape :
    let read := "a 007 # x\n"
    let refused := "a\n\"x\\q\""
    (∃ found gap, Lexes (glyphs read) found gap ∧ Gap gap [] ∧
      found = [⟨.word "a", ⟨1, 1⟩⟩, ⟨.integer 7, ⟨1, 3⟩⟩, ⟨.newline, ⟨1, 10⟩⟩]) ∧
      lexemes refused = .error (.malformed (.unknownEscape 'q') ⟨2, 4⟩) ∧
      ∃ found gap first tail, Lexes (glyphs refused) found (gap ++ first :: tail) ∧
        StartsNoToken first tail ∧
        Refuses first tail (.malformed (.unknownEscape 'q') ⟨2, 4⟩) := by
  intro read refused
  have failed : lexemes refused = .error (.malformed (.unknownEscape 'q') ⟨2, 4⟩) := by
    decide +kernel
  have good : lexemes read =
      .ok ([⟨.word "a", ⟨1, 1⟩⟩, ⟨.integer 7, ⟨1, 3⟩⟩, ⟨.newline, ⟨1, 10⟩⟩] ++
        [⟨.endOfText, .behind read.toList⟩]) := by decide +kernel
  obtain ⟨found, gap, lexes, ending, same⟩ := ((lexemes_spec read).2.1 _).mp good
  obtain ⟨before, space, first, tail, falls, _, none, refuses⟩ :=
    (lexemes_spec refused).2.2 _ failed
  exact ⟨⟨found, gap, lexes, ending, (List.append_cancel_right same).symm⟩, failed, before, space,
    first, tail, falls, none, refuses⟩

end Lexeme

end Retrace
