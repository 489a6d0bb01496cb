import Mathlib.Data.List.Basic
import Retrace.Record.Lexeme

/-!
# Spelled tokens

`Token.SpelledBy` says which characters spell a token, and `Token.EndsBefore` what may not follow
them: a word and a number are as long as they can be. `Lexeme.Gap` is the relation of a gap to the
text after it. Together they make the judgement `Lexes text found rest`: the text falls into the
lexemes `found`, with gaps before them, and then `rest`. The text that remains is part of it, so two
judgements compose and no word is split where they meet (`Lexes.append`).

A text that falls into lexemes is read as these (`Lexes.readAll_eq`), by the cases of what spells a
token and what makes a gap.
-/
namespace Retrace

/-- What the characters between two quotes stand for. -/
inductive Encodes : List Char → List Char → Prop
  | nil : Encodes [] []
  /-- A character stands for itself, unless it is a quote, a backslash or the end of a line. -/
  | plain {char : Char} {chars text : List Char} : char ≠ '"' → char ≠ '\\' → char ≠ '\n' →
      Encodes chars text → Encodes (char :: chars) (char :: text)
  /-- A backslash and a mark stand for one character. -/
  | escaped {mark char : Char} {chars text : List Char} : Lexeme.escaped? mark = some char →
      Encodes chars text → Encodes ('\\' :: mark :: chars) (char :: text)

namespace Token

/-- The characters that spell a token. -/
inductive SpelledBy : Token → List Char → Prop
  | newline : SpelledBy .newline ['\n']
  | dash : SpelledBy .dash ['-']
  /-- A word starts with a letter or an underscore. -/
  | word {first : Char} {more : List Char} : Lexeme.isWordStart first = true →
      (∀ char ∈ more, Lexeme.isWordPart char = true) →
      SpelledBy (.word (String.ofList (first :: more))) (first :: more)
  /-- A number is a run of digits whose value a word of 64 bits holds. -/
  | integer {digits : List Char} : digits ≠ [] → (∀ char ∈ digits, char.isDigit = true) →
      Text.digitsValue digits ≤ Text.maxWord →
      SpelledBy (.integer (Text.digitsValue digits)) digits
  /-- A string stands between quotes. -/
  | quoted {chars text : List Char} : Encodes chars text →
      SpelledBy (.quoted (String.ofList text)) ('"' :: (chars ++ ['"']))

/-- Whether a token can end where `rest` starts. -/
def EndsBefore (rest : List Glyph) : Token → Prop
  | word _ => ∀ glyph ∈ rest.head?, Lexeme.isWordPart glyph.value = false
  | integer _ =>
    ∀ glyph ∈ rest.head?, glyph.value.isDigit = false ∧ Lexeme.isWordStart glyph.value = false
  | quoted _ | dash | newline | endOfText => True

end Token

namespace Lexeme

/-! ## Characters -/

/-- No digit starts a word. -/
theorem isDigit_eq_false_of_isWordStart {char : Char} (start : isWordStart char = true) :
    char.isDigit = false := by
  by_contra digit
  have nine : char.toNat ≤ '9'.toNat :=
    (Char.isDigit_iff_toNat.mp ((Bool.not_eq_false _).mp digit)).2
  rcases (Bool.or_eq_true _ _).mp start with letter | line
  · rcases (Bool.or_eq_true _ _).mp letter with upper | lower
    · have bounds : 'A'.val ≤ char.val ∧ char.val ≤ 'Z'.val := of_decide_eq_true upper
      exact absurd (Nat.le_trans (UInt32.le_iff_toNat_le.mp bounds.1) nine) (by decide)
    · have bound : 'a'.val ≤ char.val := of_decide_eq_true ((Bool.and_eq_true _ _).mp lower).1
      exact absurd (Nat.le_trans (UInt32.le_iff_toNat_le.mp bound) nine) (by decide)
  · obtain rfl := eq_of_beq line
    contradiction

/-- What starts a word may go on with it. -/
theorem isWordPart_of_isWordStart {char : Char} (start : isWordStart char = true) :
    isWordPart char = true := by
  simp only [isWordStart, isWordPart, Char.isAlphanum, Bool.or_eq_true] at start ⊢
  exact start.imp_left .inl

/-- A digit may stand in a word. -/
theorem isWordPart_of_isDigit {char : Char} (digit : char.isDigit = true) :
    isWordPart char = true := by
  simp only [isWordPart, Char.isAlphanum, digit, Bool.or_true, Bool.true_or]

/-- A character of a word is none that cannot stand in one. -/
theorem ne_of_isWordPart {char mark : Char} (part : isWordPart char = true)
    (apart : isWordPart mark = false) : char ≠ mark := by
  rintro rfl
  rw [part] at apart
  contradiction

/-- A character of a word lies in no gap. -/
theorem isGap_eq_false_of_isWordPart {char : Char} (part : isWordPart char = true) :
    isGap char = false := by
  have space : char ≠ ' ' := ne_of_isWordPart part (by decide)
  have tab : char ≠ '\t' := ne_of_isWordPart part (by decide)
  have back : char ≠ '\r' := ne_of_isWordPart part (by decide)
  simp only [isGap, beq_false_of_ne space, beq_false_of_ne tab, beq_false_of_ne back, Bool.or_false]

/-! ## Runs -/

/-- A run of glyphs that is followed by another kind of glyph is all that is taken. -/
theorem span_run {p : Glyph → Bool} {run rest : List Glyph} (all : ∀ glyph ∈ run, p glyph = true)
    (stop : ∀ glyph ∈ rest.head?, p glyph = false) :
    (run ++ rest).takeWhile p = run ∧ (run ++ rest).dropWhile p = rest := by
  rw [List.takeWhile_append_of_pos all, List.dropWhile_append_of_pos all]
  cases rest with
  | nil => simp
  | cons glyph rest => simp [stop glyph rfl]

/-! ## Gaps -/

/-- A gap, and the text after it. -/
inductive Gap : List Glyph → List Glyph → Prop
  /-- Blanks end at a character that is none and starts no comment. -/
  | blanks {gap rest : List Glyph} : (∀ glyph ∈ gap, isGap glyph.value = true) →
      (∀ glyph ∈ rest.head?, isGap glyph.value = false ∧ glyph.value ≠ '#') → Gap gap rest
  /-- A comment ends with its line. -/
  | comment {gap text rest : List Glyph} {mark : Glyph} :
      (∀ glyph ∈ gap, isGap glyph.value = true) → mark.value = '#' →
      (∀ glyph ∈ text, glyph.value ≠ '\n') → (∀ glyph ∈ rest.head?, glyph.value = '\n') →
      Gap (gap ++ mark :: text) rest

/-- A gap is skipped, and nothing else. -/
theorem Gap.skipGap_eq {gap rest : List Glyph} (before : Gap gap rest) :
    skipGap (gap ++ rest) = rest := by
  cases before with
  | blanks blank stop =>
    rw [skipGap, (span_run blank fun glyph first => (stop glyph first).1).2]
    cases rest with
    | nil => rfl
    | cons glyph rest => exact if_neg (stop glyph rfl).2
  | @comment gap text _ mark blank sign inLine stop =>
    have signed : isGap mark.value = false := by rw [sign]; rfl
    rw [skipGap, List.append_assoc, List.cons_append, (span_run blank (by simpa using signed)).2]
    simp only [sign, if_true]
    refine (span_run (fun glyph inside => ?_) fun glyph first => ?_).2
    · simpa using inLine glyph inside
    · simpa using stop glyph first

/-! ## Tokens -/

/-- What is read after an opening quote, up to the closing one. -/
theorem readString_of_encodes {body rest : List Glyph} {text : List Char} {quote : Glyph}
    (start : Position) (encodes : Encodes (body.map (·.value)) text) (closing : quote.value = '"') :
    readString start (body ++ quote :: rest) = .ok (text, rest) := by
  generalize spelled : body.map (·.value) = chars at encodes
  induction encodes generalizing body with
  | nil =>
    obtain rfl := List.map_eq_nil_iff.mp spelled
    rw [List.nil_append, readString.eq_def]
    exact if_pos closing
  | plain quote backslash feed _ ih =>
    obtain ⟨glyph, body, rfl, rfl, inside⟩ := List.map_eq_cons_iff.mp spelled
    rw [List.cons_append, readString.eq_def]
    simp only [quote, feed, backslash, if_false, ih inside]
    rfl
  | escaped escape _ ih =>
    obtain ⟨glyph, body, rfl, backslash, inside⟩ := List.map_eq_cons_iff.mp spelled
    obtain ⟨mark, body, rfl, rfl, within⟩ := List.map_eq_cons_iff.mp inside
    rw [List.cons_append, List.cons_append, readString.eq_def]
    simp only [backslash, if_true, escape, ih within]
    rfl

/-- A spelled token is read, up to where it ends. -/
theorem readToken_of_spelledBy {token : Token} {first : Glyph} {more rest : List Glyph}
    (spelled : token.SpelledBy (first.value :: more.map (·.value)))
    (ends : token.EndsBefore rest) : readToken first (more ++ rest) = .ok (token, rest) := by
  generalize written : first.value :: more.map (·.value) = chars at spelled
  cases spelled with
  | newline =>
    obtain ⟨feed, none⟩ := List.cons.inj written
    obtain rfl := List.map_eq_nil_iff.mp none
    simp [readToken, feed]
  | dash =>
    obtain ⟨sign, none⟩ := List.cons.inj written
    obtain rfl := List.map_eq_nil_iff.mp none
    simp [readToken, sign]
  | word start parts =>
    obtain ⟨rfl, rfl⟩ := List.cons.inj written
    have part := isWordPart_of_isWordStart start
    have feed : first.value ≠ '\n' := ne_of_isWordPart part (by decide)
    have quote : first.value ≠ '"' := ne_of_isWordPart part (by decide)
    have sign : first.value ≠ '-' := ne_of_isWordPart part (by decide)
    have run : ∀ glyph ∈ more, isWordPart glyph.value = true :=
      fun glyph inside => parts _ (List.mem_map_of_mem inside)
    obtain ⟨taken, left⟩ := span_run run ends
    simp only [readToken, feed, quote, sign, isDigit_eq_false_of_isWordStart start, start, if_false,
      if_true, Bool.false_eq_true, readWord, taken, left]
  | integer some digits fits =>
    subst written
    have digit : first.value.isDigit = true := digits _ List.mem_cons_self
    have part := isWordPart_of_isDigit digit
    have feed : first.value ≠ '\n' := ne_of_isWordPart part (by decide)
    have quote : first.value ≠ '"' := ne_of_isWordPart part (by decide)
    have sign : first.value ≠ '-' := ne_of_isWordPart part (by decide)
    have run : ∀ glyph ∈ more, glyph.value.isDigit = true :=
      fun glyph inside => digits _ (List.mem_cons_of_mem _ (List.mem_map_of_mem inside))
    obtain ⟨taken, left⟩ := span_run run fun glyph next => (ends glyph next).1
    have free : (rest.head?.any fun glyph => isWordStart glyph.value) = false := by
      cases rest with
      | nil => rfl
      | cons glyph rest => simpa using (ends glyph rfl).2
    simp only [readToken, feed, quote, sign, digit, if_false, if_true, readInteger, taken, left,
      free, Bool.false_eq_true, Text.word?, fits]
  | @quoted chars text encodes =>
    obtain ⟨quote, body⟩ := List.cons.inj written
    obtain ⟨inner, closing, rfl, inside, last⟩ := List.map_eq_append_iff.mp body
    obtain ⟨close, none, rfl, closed, empty⟩ := List.map_eq_cons_iff.mp last
    obtain rfl := List.map_eq_nil_iff.mp empty
    rw [← inside] at encodes
    simp [readToken, quote, readString_of_encodes first.position encodes closed, Except.map]

/-- The first character of a spelling is no blank and starts no comment. -/
theorem head_of_spelledBy {token : Token} {chars : List Char} (spelled : token.SpelledBy chars) :
    ∃ first more, chars = first :: more ∧ isGap first = false ∧ first ≠ '#' := by
  cases spelled with
  | newline | dash | quoted => exact ⟨_, _, rfl, by decide, by decide⟩
  | word start =>
    have part := isWordPart_of_isWordStart start
    exact ⟨_, _, rfl, isGap_eq_false_of_isWordPart part, ne_of_isWordPart part (by decide)⟩
  | integer some digits =>
    obtain ⟨first, more, rfl⟩ := List.exists_cons_of_ne_nil some
    have part := isWordPart_of_isDigit (digits first List.mem_cons_self)
    exact ⟨_, _, rfl, isGap_eq_false_of_isWordPart part, ne_of_isWordPart part (by decide)⟩

/-! ## Lexemes -/

/-- A text that falls into lexemes, each after a gap, and the text that remains. -/
inductive Lexes : List Glyph → List Lexeme → List Glyph → Prop
  | nil {rest : List Glyph} : Lexes rest [] rest
  | cons {gap more after rest : List Glyph} {first : Glyph} {token : Token} {found : List Lexeme} :
      Gap gap (first :: more ++ after) → token.SpelledBy (first.value :: more.map (·.value)) →
      token.EndsBefore after → Lexes after found rest →
      Lexes (gap ++ (first :: more ++ after)) (⟨token, first.position⟩ :: found) rest

/-- The lexemes of a text go on with those of the text that remains. -/
theorem Lexes.append {text middle rest : List Glyph} {found more : List Lexeme}
    (front : Lexes text found middle) (back : Lexes middle more rest) :
    Lexes text (found ++ more) rest := by
  induction front with
  | nil => exact back
  | cons gap spelled ends _ ih => exact .cons gap spelled ends (ih back)

/-- A spelled token of a located text is a lexeme at its first character. -/
theorem Lexes.single {token : Token} {chars : List Char} (spelled : token.SpelledBy chars)
    {gap rest : List Glyph} {position : Position} (before : Gap gap (locate position chars ++ rest))
    (ends : token.EndsBefore rest) :
    Lexes (gap ++ (locate position chars ++ rest)) [⟨token, position⟩] rest := by
  obtain ⟨first, more, rfl, -, -⟩ := head_of_spelledBy spelled
  rw [← map_value_locate (position.next first) more] at spelled
  exact .cons before spelled ends .nil

/-- A gap to the end of a text ends the reading. -/
theorem readAll_gap {stop : Position} {text : List Glyph} (gap : skipGap text = []) :
    readAll stop text = .ok [⟨.endOfText, stop⟩] := by
  rw [readAll]
  split
  · rfl
  · rename_i skipped
    rw [gap] at skipped
    contradiction

/-- After a gap a text is read token by token. -/
theorem readAll_token {stop : Position} {text tail : List Glyph} {first : Glyph}
    (skipped : skipGap text = first :: tail) :
    readAll stop text = (readToken first tail >>= fun found =>
      (readAll stop found.2).map (⟨found.1, first.position⟩ :: ·)) := by
  rw [readAll]
  split <;> rename_i other
  · rw [skipped] at other
    contradiction
  · obtain ⟨rfl, rfl⟩ := List.cons.inj (skipped.symm.trans other)
    split <;> rename_i read <;> rw [read] <;> rfl

/-- The lexemes that a text falls into are read first. -/
theorem Lexes.readAll_eq {text rest : List Glyph} {found : List Lexeme}
    (lexes : Lexes text found rest) (stop : Position) :
    readAll stop text = (readAll stop rest).map (found ++ ·) := by
  induction lexes with
  | nil => cases readAll stop _ <;> rfl
  | @cons gap more after rest first token found before spelled ends _ ih =>
    have skipped : skipGap (gap ++ (first :: more ++ after)) = first :: (more ++ after) :=
      before.skipGap_eq
    rw [readAll_token skipped, readToken_of_spelledBy spelled ends]
    show (readAll stop after).map _ = _
    rw [ih]
    cases readAll stop rest <;> rfl

/-- A gap at the end of a text holds no lexeme. -/
theorem Gap.readAll_eq {gap : List Glyph} (before : Gap gap []) (stop : Position) :
    readAll stop gap = .ok [⟨.endOfText, stop⟩] := by
  have skipped := before.skipGap_eq
  rw [List.append_nil] at skipped
  exact readAll_gap skipped

end Lexeme

end Retrace
