import Retrace.Proofs.Loading

/-!
# Telling the encodings apart

The encoding of a text is told by its first character that is not blank, by a notion of blanks that
is neither that of records nor that of markup. A text that a reader of records accepts has no angle
bracket after its blanks: the blanks that records allow are skipped or end a line, and at any other
one the reader stops as it does at an angle bracket (`exists_error_of_bracket`). A markup document
begins with spaces and an angle bracket, all of which are blank, unless a byte order mark comes
before them. So an encoding is told right for every text that is read in it, but for one that starts
with a byte order mark: `detect_of_read`. Of the library for markup this asks only what is known of
every one (`Markup.Reader.Lawful`).
-/
namespace Retrace

/-! ## Angle brackets in records -/

namespace Lexeme

/-- What lies in a gap is blank. -/
theorem isBlank_of_isGap {char : Char} (gap : isGap char = true) : Text.isBlank char = true := by
  simp only [isGap, Bool.or_eq_true, beq_iff_eq] at gap
  rcases gap with (rfl | rfl) | rfl <;> decide

/-- A blank lies in a gap, ends a line, or starts no token. -/
theorem isBlank_cases {char : Char} (blank : Text.isBlank char = true) :
    isGap char = true ∨ char = '\n' ∨
      (char ≠ '#' ∧ char ≠ '"' ∧ char ≠ '-' ∧ char.isDigit = false ∧ isWordStart char = false) := by
  have all : ∀ code ∈ Text.blankCodes, isGap (Char.ofNat code) = true ∨ Char.ofNat code = '\n' ∨
      (Char.ofNat code ≠ '#' ∧ Char.ofNat code ≠ '"' ∧ Char.ofNat code ≠ '-' ∧
        (Char.ofNat code).isDigit = false ∧ isWordStart (Char.ofNat code) = false) := by
    decide
  have listed := all char.toNat (List.contains_iff_mem.mp blank)
  rwa [Char.ofNat_toNat] at listed

/-- A gap at the front of a text is skipped with what follows it. -/
theorem skipGap_cons {glyph : Glyph} (gap : isGap glyph.value = true) (rest : List Glyph) :
    skipGap (glyph :: rest) = skipGap rest := by
  rw [skipGap, List.dropWhile_cons, if_pos gap, skipGap]

/-- A character that lies in no gap and starts no comment is not skipped. -/
theorem skipGap_eq_self {glyph : Glyph} (visible : isGap glyph.value = false)
    (mark : glyph.value ≠ '#') (rest : List Glyph) :
    skipGap (glyph :: rest) = glyph :: rest := by
  rw [skipGap, List.dropWhile_cons_of_neg (by simp [visible])]
  exact if_neg mark

/-- A text that has an angle bracket after its blanks does not fall into lexemes. -/
theorem exists_error_of_bracket (stop : Position) {text : List Glyph}
    (bracket : (Text.trimStart (text.map Placed.value)).head? = some '<') :
    ∃ fault, readAll stop text = .error fault := by
  induction text with
  | nil => simp [Text.trimStart] at bracket
  | cons glyph rest ih =>
    rw [List.map_cons] at bracket
    by_cases gap : isGap glyph.value = true
    · rw [Text.trimStart_cons_of_isBlank (isBlank_of_isGap gap)] at bracket
      rw [readAll_skipGap (skipGap_cons gap rest)]
      exact ih bracket
    · have visible : isGap glyph.value = false := Bool.eq_false_iff.mpr gap
      by_cases feed : glyph.value = '\n'
      · have blank : Text.isBlank glyph.value = true := by
          rw [feed]
          decide
        rw [Text.trimStart_cons_of_isBlank blank] at bracket
        obtain ⟨fault, later⟩ := ih bracket
        have first : readToken glyph rest = .ok (.newline, rest) := by simp [readToken, feed]
        refine ⟨fault, ?_⟩
        rw [readAll_token (skipGap_eq_self visible (by simp [feed]) rest), first]
        simp only [bind, Except.bind, later, Except.map]
      · have stops : glyph.value ≠ '#' ∧ glyph.value ≠ '"' ∧ glyph.value ≠ '-' ∧
            glyph.value.isDigit = false ∧ isWordStart glyph.value = false := by
          cases blank : Text.isBlank glyph.value with
          | true => exact ((isBlank_cases blank).resolve_left gap).resolve_left feed
          | false =>
            rw [Text.trimStart_cons blank, List.head?_cons, Option.some.injEq] at bracket
            rw [bracket]
            decide
        obtain ⟨mark, quote, dash, digit, word⟩ := stops
        refine ⟨.malformed (.unexpectedCharacter glyph.value) glyph.position, ?_⟩
        rw [readAll_token (skipGap_eq_self visible mark rest)]
        simp [readToken, feed, quote, dash, digit, word, bind, Except.bind]

end Lexeme

/-- A text that is read as records is told to be records. -/
theorem detect_of_readRecords {text : String} {records : List (Placed Record)}
    (read : readRecords text = .ok records) : Encoding.detect text = .records := by
  apply Encoding.detect_records
  intro bracket
  have located : (glyphs text).map Placed.value = text.toList := map_value_locate _ _
  rw [← located] at bracket
  obtain ⟨fault, stops⟩ :=
    Lexeme.exists_error_of_bracket (Position.start.after text.toList) bracket
  have refused : readRecords text = .error fault := by
    simp only [readRecords, lexemes, stops, bind, Except.bind]
  rw [refused] at read
  contradiction

/-- A text that is read as a templight trace is told to be one, unless it starts with a byte order
mark. -/
theorem Templight.detect_of_readRecords {reader : Markup.Reader} (lawful : reader.Lawful)
    {text : String} {records : List (Placed Record)}
    (read : Templight.readRecords text reader = .ok records)
    (unmarked : text.toList.head? ≠ some '\uFEFF') : Encoding.detect text = .templight := by
  unfold Templight.readRecords at read
  split at read
  · contradiction
  · exact lawful.detect_of_document? ‹_› unmarked

namespace Encoding

section

variable {reader : Markup.Reader} {text : String} {encoding : Encoding}
  {records : List (Placed Record)}

/-- A text that starts with a byte order mark is read as a templight trace or not at all. -/
theorem eq_templight_of_byteOrderMark (marked : text.toList.head? = some '\uFEFF')
    (read : encoding.read text reader = .ok records) : encoding = templight := by
  cases encoding with
  | records =>
    have refused := readRecords_of_byteOrderMark marked
    rw [show Retrace.readRecords text = .ok records from read] at refused
    contradiction
  | templight => rfl

/-- The encoding is told right for a text that is read and has no byte order mark in front. -/
theorem detect_of_unmarked (lawful : reader.Lawful) (unmarked : text.toList.head? ≠ some '\uFEFF')
    (read : encoding.read text reader = .ok records) : detect text = encoding := by
  cases encoding with
  | records => exact Retrace.detect_of_readRecords read
  | templight => exact Templight.detect_of_readRecords lawful read unmarked

/-- A text is read in one encoding at most. -/
theorem read_unique (lawful : reader.Lawful) {other : Encoding} {found : List (Placed Record)}
    (read : encoding.read text reader = .ok records)
    (again : other.read text reader = .ok found) : other = encoding := by
  by_cases marked : text.toList.head? = some '\uFEFF'
  · rw [eq_templight_of_byteOrderMark marked read, eq_templight_of_byteOrderMark marked again]
  · rw [← detect_of_unmarked lawful marked read, ← detect_of_unmarked lawful marked again]

end

/-- A text that is read as records is told to be records, and one that is read as a templight trace
and does not start with a byte order mark is told to be one. No text is read in both encodings.
Where a text without the mark is read, loading it is building a session of the records that were
read. Every text with the mark in front is told to be records, is not read as records, and is
refused at the mark. -/
theorem detect_of_read {reader : Markup.Reader} (lawful : reader.Lawful) (text : String) :
    (∀ records, Encoding.records.read text reader = .ok records →
        detect text = Encoding.records) ∧
      (∀ records, templight.read text reader = .ok records →
        text.toList.head? ≠ some '\uFEFF' → detect text = templight) ∧
      (∀ (encoding other : Encoding) records found, encoding.read text reader = .ok records →
        other.read text reader = .ok found → other = encoding) ∧
      (text.toList.head? ≠ some '\uFEFF' → ∀ (encoding : Encoding) records,
        encoding.read text reader = .ok records → ∀ loader : Loader,
          loader.load text reader = ((Builder.new loader.rootName).addAll records >>=
            fun builder => builder.finish (loader.result.or encoding.impliedResult))) ∧
      (text.toList.head? = some '\uFEFF' → detect text = Encoding.records ∧
        (∀ (encoding : Encoding) records,
          encoding.read text reader = .ok records → encoding = templight) ∧
        ∀ loader : Loader, loader.load text reader =
          .error (.malformed (.unexpectedCharacter '\uFEFF') ⟨1, 1⟩)) := by
  refine ⟨fun _ read => Retrace.detect_of_readRecords read,
    fun _ read unmarked => detect_of_unmarked lawful unmarked read,
    fun _ _ _ _ read again => read_unique lawful read again,
    fun unmarked encoding records read loader => ?_, fun marked => ?_⟩
  · have told := detect_of_unmarked lawful unmarked read
    simp only [Loader.load, told, read, bind, Except.bind]
  · exact ⟨detect_of_byteOrderMark marked,
      fun _ _ read => eq_templight_of_byteOrderMark marked read,
      Templight.load_of_byteOrderMark reader marked⟩

/-- A trace in a comment is not a trace: the line with the result is what is read. -/
theorem detect_of_read_commented :
    let text := "\t#<Trace/>\n\r result \"<\" # <Trace/>"
    let records : List (Placed Record) := [⟨.result "<", ⟨2, 3⟩⟩]
    Encoding.records.read text = .ok records ∧ detect text = Encoding.records ∧
      (∀ found, templight.read text ≠ .ok found) ∧
      (⟨"R", none⟩ : Loader).load text = .ok (.new "R" "<") := by
  intro text records
  have read : Encoding.records.read text = .ok records := by decide +kernel
  obtain ⟨told, -, alone, loads, -⟩ := detect_of_read Markup.Reader.lawful_nesting text
  refine ⟨read, told records read, fun found again => ?_, ?_⟩
  · exact absurd (alone _ templight _ _ read again) (by decide)
  · rw [loads (by decide) _ _ read]
    decide +kernel

/-- An empty trace after a byte order mark is read as a templight trace, and it is told to be
records. -/
theorem detect_markedText :
    templight.read Templight.markedText = .ok [] ∧
      detect Templight.markedText = Encoding.records :=
  ⟨Templight.readRecords_markedText, detect_of_byteOrderMark (by decide)⟩

end Encoding

end Retrace
