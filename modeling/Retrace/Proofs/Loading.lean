import Retrace.Proofs.Documents
import Retrace.Proofs.Lines
import Retrace.Proofs.Locations
import Retrace.Proofs.TraceWalk
import Retrace.Proofs.Trimming

/-!
# Loading in either encoding

The records of a templight trace can be written as a text of records, and both texts load the same
session. The builder does not look at where records stand (`Builder.addAll_of_map_value_eq`); a text
of records is told from markup by its first character that is not blank
(`Record.Layout.detect_text`); and words hold all numbers that a trace is lowered to
(`Templight.fits_of_readRecords`).

One kind of trace is read and cannot be loaded: where the text starts with a byte order mark, which
is not blank, it is taken for records (`load_of_byteOrderMark`). The main statement is
`load_rendering`.
-/
namespace Retrace

/-! ## Telling the encoding -/

namespace Encoding

/-- An angle bracket after blanks tells markup. -/
theorem detect_templight {text : String} {front rest : List Char}
    (split : text.toList = front ++ '<' :: rest) (blank : front.all Text.isBlank = true) :
    detect text = templight := by
  rw [detect, split, Text.trimStart_append blank, Text.trimStart_cons (by decide)]
  rfl

/-- Anything else tells records. -/
theorem detect_records {text : String}
    (other : (Text.trimStart text.toList).head? ≠ some '<') : detect text = records := by
  unfold detect
  split
  · rename_i rest found
    rw [found] at other
    contradiction
  · rfl

/-- A byte order mark is not blank, so that it tells records. -/
theorem detect_of_byteOrderMark {text : String} (marked : text.toList.head? = some '\uFEFF') :
    detect text = records := by
  obtain ⟨rest, chars⟩ := List.head?_eq_some_iff.mp marked
  apply detect_records
  rw [chars, Text.trimStart_cons (by decide)]
  simp

end Encoding

/-- No text of records starts with a byte order mark. -/
theorem readRecords_of_byteOrderMark {text : String} (marked : text.toList.head? = some '\uFEFF') :
    readRecords text = .error (.malformed (.unexpectedCharacter '\uFEFF') ⟨1, 1⟩) := by
  obtain ⟨rest, chars⟩ := List.head?_eq_some_iff.mp marked
  have stops : lexemes text =
      .error (.malformed (.unexpectedCharacter '\uFEFF') ⟨1, 1⟩) := by
    rw [lexemes, glyphs, chars, locate]
    generalize locate _ rest = more
    have gap : Lexeme.skipGap (⟨'\uFEFF', .start⟩ :: more) = ⟨'\uFEFF', .start⟩ :: more := by
      simp [Lexeme.skipGap, Lexeme.isGap]
    rw [Lexeme.readAll_token gap]
    rfl
  simp only [readRecords, stops, bind, Except.bind]

/-- A document that is read is told to be markup, unless it starts with a byte order mark. -/
theorem Markup.Reader.Lawful.detect_of_document? {reader : Reader} (lawful : reader.Lawful)
    {text : String} {element : Element} (read : reader.document? text = some element)
    (unmarked : text.toList.head? ≠ some '\uFEFF') : Encoding.detect text = .templight := by
  obtain ⟨mark, spaces, rest, split, one, all⟩ := lawful.exists_front read
  rcases one with rfl | rfl
  · refine Encoding.detect_templight split (List.all_eq_true.mpr fun char inside => ?_)
    exact isBlank_of_isSpace (List.all_eq_true.mp all char inside)
  · rw [split] at unmarked
    exact absurd rfl unmarked

/-! ## Records as text -/

namespace Record

/-- Blanks that are spaces. -/
def Blanks.spaces (count : Nat) : Blanks where
  chars := List.replicate count ' '
  blank := List.forall_mem_replicate.mpr (.inr List.mem_cons_self)

/-- A space. -/
def Separator.space : Separator := ⟨.spaces 1, List.cons_ne_nil _ _⟩

/-- A record with a space before each of its fields. -/
def Statement.plain (record : Record) : Statement where
  record
  separators := List.replicate record.fields.length .space
  length_eq := List.length_replicate

/-- A line with a record and nothing else. -/
def WrittenLine.plain (record : Record) : WrittenLine :=
  ⟨.spaces 0, some (.plain record), .spaces 0, none⟩

/-- Records written one to a line, with a space before each field. -/
def Layout.plain (records : List Record) : Layout := ⟨records.map .plain, none⟩

/-- All records are written. -/
@[simp] theorem Layout.records_plain (list : List Record) : (Layout.plain list).records = list := by
  simp [records, allLines, plain, List.filterMap_map, Function.comp_def, WrittenLine.plain,
    Statement.plain]

/-- Blanks are blank. -/
theorem Blanks.isBlank (blanks : Blanks) : blanks.chars.all Text.isBlank = true := by
  refine List.all_eq_true.mpr fun char inside => ?_
  have listed := blanks.blank inside
  simp only [List.mem_cons, List.not_mem_nil, or_false] at listed
  rcases listed with rfl | rfl | rfl <;> decide

/-- A keyword starts with a character that is not blank, and no angle bracket. -/
theorem exists_keyword_eq_cons (record : Record) :
    ∃ first more, record.keyword.toList = first :: more ∧ Text.isBlank first = false ∧
      first ≠ '<' := by
  cases record <;> rw [keyword] <;> exact ⟨_, _, rfl, by decide, by decide⟩

/-- A line is blank, or its first character that is not blank is no angle bracket. -/
theorem WrittenLine.trimStart_text (line : WrittenLine) (rest : List Char) :
    (Text.trimStart (line.text ++ rest)).head? ≠ some '<' ∨
      Text.trimStart (line.text ++ rest) = Text.trimStart rest := by
  simp only [text, tail, List.append_assoc, Text.trimStart_append line.lead.isBlank]
  cases line.statement with
  | some statement =>
    obtain ⟨first, more, spelled, visible, other⟩ := statement.record.exists_keyword_eq_cons
    left
    simp [Statement.text, spelled, Text.trimStart_cons visible, other]
  | none =>
    simp only [Option.elim_none, List.nil_append, Text.trimStart_append line.trail.isBlank]
    cases line.comment with
    | none => exact .inr rfl
    | some comment =>
      left
      have visible : Text.isBlank '#' = false := by decide
      simp [Comment.text, Text.trimStart_cons visible]

/-- However records are laid out, their text is told to be records. -/
theorem Layout.detect_text (layout : Layout) : Encoding.detect layout.text = .records := by
  apply Encoding.detect_records
  rw [text, String.toList_ofList]
  obtain ⟨lines, last⟩ := layout
  induction lines with
  | nil =>
    cases last with
    | none => simp [chars, Text.trimStart]
    | some line =>
      have front := line.trimStart_text []
      rw [List.append_nil] at front
      have whole : chars ⟨[], some line⟩ = line.text := rfl
      rw [whole]
      rcases front with other | blank
      · exact other
      · rw [blank]
        simp [Text.trimStart]
  | cons line lines ih =>
    have split : chars ⟨line :: lines, last⟩ = line.text ++ (['\n'] ++ chars ⟨lines, last⟩) := by
      simp [chars]
    rw [split]
    rcases line.trimStart_text (['\n'] ++ chars ⟨lines, last⟩) with other | blank
    · exact other
    · rw [blank, Text.trimStart_append (by decide)]
      exact ih

end Record

/-! ## Builders and positions -/

namespace Builder

/-- A builder that takes a record takes the same record at another position, to the same end. -/
theorem send_of_value {builder next : Builder} {record : Record} {position : Position}
    (taken : builder.send ⟨record, position⟩ = (.ok (), next)) (other : Position) :
    builder.send ⟨record, other⟩ = (.ok (), next) := by
  cases finished : builder.result.isSome with
  | true =>
    rw [send_finished finished] at taken
    simp at taken
  | false =>
    cases record with
    | entity id name =>
      rw [send_entity finished] at taken ⊢
      split at taken
      · simp at taken
      · split at taken <;> simp_all
    | instantiation source target kind location =>
      rw [send_instantiation finished] at taken ⊢
      split at taken <;> simp_all
    | result text =>
      rw [send_result finished] at taken ⊢
      exact taken

/-- A record is taken when it is sent and not rejected. -/
theorem add_eq_ok_iff {builder next : Builder} {record : Placed Record} :
    builder.add record = .ok next ↔ builder.send record = (.ok (), next) := by
  unfold add
  obtain ⟨outcome, after⟩ := builder.send record
  cases outcome <;> simp [Except.map]

/-- Records are taken to the same end wherever they stand. -/
theorem addAll_of_map_value_eq {builder last : Builder} {records others : List (Placed Record)}
    (taken : builder.addAll records = .ok last)
    (same : others.map Placed.value = records.map Placed.value) :
    builder.addAll others = .ok last := by
  induction records generalizing builder others with
  | nil =>
    rw [List.map_eq_nil_iff.mp same]
    exact taken
  | cons record records ih =>
    obtain ⟨other, rest, rfl, value, same⟩ := List.map_eq_cons_iff.mp same
    cases first : builder.add record with
    | error fault =>
      rw [addAll, List.foldlM_cons, first] at taken
      contradiction
    | ok next =>
      have again : builder.add other = .ok next := by
        have sent := send_of_value (add_eq_ok_iff.mp first) other.position
        rw [← value] at sent
        exact add_eq_ok_iff.mpr sent
      rw [addAll, List.foldlM_cons, first] at taken
      rw [addAll, List.foldlM_cons, again]
      exact ih taken same

/-- A builder that takes records is about these, too. -/
theorem Holds.addAll {rootName : String} {records : List Record} {builder last : Builder}
    (holds : Holds rootName records builder) {sent : List (Placed Record)}
    (taken : builder.addAll sent = .ok last) :
    Holds rootName (records ++ sent.map Placed.value) last := by
  induction sent generalizing records builder with
  | nil =>
    obtain rfl := Except.ok.inj taken
    simpa using holds
  | cons record sent ih =>
    rw [Builder.addAll, List.foldlM_cons] at taken
    cases first : builder.add record with
    | error fault =>
      rw [first] at taken
      contradiction
    | ok next =>
      rw [first] at taken
      rcases holds.send_spec record with ⟨fault, _, rejected⟩ | ⟨other, came, grown, _⟩
      · rw [add_eq_ok_iff.mp first] at rejected
        simp at rejected
      · obtain rfl : next = other := by
          rw [add_eq_ok_iff.mp first] at came
          exact congrArg Prod.snd came
        have rest := ih grown taken
        rwa [List.append_assoc] at rest

end Builder

/-- A text whose records are taken loads what the builder finishes. -/
theorem Loader.load_eq_finish {reader : Markup.Reader} {loader : Loader} {text : String}
    {encoding : Encoding} {records : List (Placed Record)} {builder : Builder}
    (detected : Encoding.detect text = encoding) (read : encoding.read text reader = .ok records)
    (taken : (Builder.new loader.rootName).addAll records = .ok builder) :
    loader.load text reader = builder.finish (loader.result.or encoding.impliedResult) := by
  simp only [load, detected, read, bind, Except.bind, taken]

/-- Commands make every session that is loaded. -/
theorem Loader.reachable_of_load {reader : Markup.Reader} {loader : Loader} {text : String}
    {session : Session} (loaded : loader.load text reader = .ok session) : session.Reachable := by
  cases read : (Encoding.detect text).read text reader with
  | error fault =>
    simp only [load, read, bind, Except.bind] at loaded
    contradiction
  | ok records =>
    cases taken : (Builder.new loader.rootName).addAll records with
    | error fault =>
      simp only [load, read, taken, bind, Except.bind] at loaded
      contradiction
    | ok builder =>
      have holds := (Builder.holds_new loader.rootName).addAll taken
      rw [load_eq_finish rfl read taken, holds.finish_eq] at loaded
      split at loaded
      · obtain rfl := Except.ok.inj loaded
        exact holds.reachable _
      · contradiction

namespace Templight

open Markup (Element)

/-! ## Numbers in lowered traces -/

/-- A point of instantiation that is read holds words. -/
theorem le_of_location? {text : List Char} {location : Location}
    (read : location? text = some location) :
    location.line ≤ Text.maxWord ∧ location.column ≤ Text.maxWord := by
  obtain ⟨_, _, _, _, _, line, column⟩ := location?_eq_some_iff.mp read
  exact ⟨line.le_maxWord, column.le_maxWord⟩

/-- Whether words hold the numbers of a point of instantiation, if there is one. -/
def LocationFits (location : Option Location) : Prop :=
  ∀ point ∈ location, point.line ≤ Text.maxWord ∧ point.column ≤ Text.maxWord

/-- Words hold the numbers of every point of instantiation that an element gives. -/
theorem Says.locationFits {element : Element} {begun : Begin}
    (said : Says element (.begun begun)) : LocationFits begun.location := by
  cases said with
  | begun _ _ _ given =>
    intro location present
    rw [Option.mem_def.mp present] at given
    obtain ⟨_, _, read⟩ := given
    exact le_of_location? read

/-- Every event is said by one of the elements. -/
theorem exists_says_of_mem {elements : List Element} {events : List Occurrence}
    (said : List.Forall₂ Says elements events) {event : Occurrence} (listed : event ∈ events) :
    ∃ element, Says element event := by
  induction said with
  | nil => exact absurd listed List.not_mem_nil
  | cons first _ ih =>
    rcases List.mem_cons.mp listed with rfl | later
    · exact ⟨_, first⟩
    · exact ih later

/-- There are no more contexts than events. -/
theorem length_contexts_le (events : List Occurrence) :
    (contexts events).length ≤ events.length := by
  have few : (begins events).length ≤ events.length := List.length_filterMap_le _ _
  have subset : contexts events ⊆ (begins events).map Begin.context :=
    fun _ listed => List.mem_eraseDups.mp listed
  have distinct := ((nodup_contexts events).subperm subset).length_le
  rw [List.length_map] at distinct
  omega

/-- Words hold the numbers of an instantiation when they hold those of its ends and of its point of
instantiation. -/
theorem fits_instantiation {source target : LocalId} {kind : Kind} {location : Option Location}
    (origin : source ≤ Text.maxWord) (destination : target ≤ Text.maxWord)
    (point : LocationFits location) : (Record.instantiation source target kind location).Fits := by
  intro value listed
  cases location with
  | none =>
    simp [Record.fields, Record.locationFields] at listed
    rcases listed with rfl | rfl <;> assumption
  | some location =>
    obtain ⟨line, column⟩ := point location rfl
    simp [Record.fields, Record.locationFields] at listed
    rcases listed with rfl | rfl | rfl | rfl <;> assumption

/-- What is written of events holds words when their points of instantiation do and there are not
more contexts than a word can count. -/
theorem Written.fits {events : List Occurrence} {made : List Record}
    (written : Written events made)
    (points : ∀ begun, .begun begun ∈ events → LocationFits begun.location)
    (counted : (contexts events).length ≤ Text.maxWord) : ∀ record ∈ made, record.Fits := by
  induction written with
  | nil => simp
  | @known past made begun source written known starts ih =>
    rw [contexts_known known] at counted
    intro record listed
    rcases List.mem_append.mp listed with early | last
    · exact ih (fun other inside => points other (List.mem_append_left _ inside)) counted record
        early
    · rw [List.mem_singleton.mp last]
      exact fits_instantiation (starts.le.trans counted) ((number_le known).trans counted)
        (points begun (by simp))
  | @new past made begun source written new starts ih =>
    rw [contexts_new new, List.length_append, List.length_singleton] at counted
    have fewer : (contexts past).length ≤ Text.maxWord := Nat.le_of_succ_le counted
    intro record listed
    rcases List.mem_append.mp listed with early | last
    · exact ih (fun other inside => points other (List.mem_append_left _ inside)) fewer record early
    · rcases List.mem_cons.mp last with rfl | last
      · intro value inside
        simp [Record.fields] at inside
        exact inside ▸ counted
      · rw [List.mem_singleton.mp last]
        exact fits_instantiation (starts.le.trans fewer) counted (points begun (by simp))
  | ended written kind ih =>
    rw [contexts_ended] at counted
    exact ih (fun other inside => points other (List.mem_append_left _ inside)) counted

/-- Words hold the numbers of the records of a trace whose text is not longer than a word can
count. -/
theorem fits_of_readRecords {reader : Markup.Reader} (lawful : reader.Lawful) {text : String}
    {records : List (Placed Record)} (read : readRecords text reader = .ok records)
    (counted : text.length ≤ Text.maxWord) :
    ∀ record ∈ records.map Placed.value, record.Fits := by
  obtain ⟨events, ⟨trace, document, _, said⟩, _, written⟩ := exists_written read
  refine written.fits (fun begun listed => ?_) ?_
  · obtain ⟨element, said⟩ := exists_says_of_mem said listed
    exact said.locationFits
  · have children := lawful.length_children_le document
    have same := said.length_eq
    have few := length_contexts_le events
    omega

/-! ## Sessions of traces -/

/-- A text that starts with a byte order mark is taken for records, none of which starts with that
character. -/
theorem load_of_byteOrderMark (reader : Markup.Reader) {text : String}
    (marked : text.toList.head? = some '\uFEFF') (loader : Loader) :
    loader.load text reader = .error (.malformed (.unexpectedCharacter '\uFEFF') ⟨1, 1⟩) := by
  simp only [Loader.load, Encoding.detect_of_byteOrderMark marked, Encoding.read,
    readRecords_of_byteOrderMark marked, bind, Except.bind]

/-- However the records of a trace are laid out as text, that text loads the session of the trace
with a result that is given, and so does the text with the result recorded after them. The trace
itself loads it too, unless it starts with a byte order mark: then it is refused. -/
theorem load_rendering {reader : Markup.Reader} (lawful : reader.Lawful) {text : String}
    {records : List (Placed Record)} (read : readRecords text reader = .ok records)
    (counted : text.length ≤ Text.maxWord) (rootName result : String) :
    ∃ session : Session, session.result = result ∧
      (text.toList.head? ≠ some '\uFEFF' →
        (⟨rootName, some result⟩ : Loader).load text reader = .ok session) ∧
      (text.toList.head? = some '\uFEFF' → (⟨rootName, some result⟩ : Loader).load text reader =
        .error (.malformed (.unexpectedCharacter '\uFEFF') ⟨1, 1⟩)) ∧
      (∀ layout : Record.Layout, layout.records = records.map Placed.value →
        (⟨rootName, some result⟩ : Loader).load layout.text reader = .ok session) ∧
      (∀ layout : Record.Layout, layout.records = records.map Placed.value ++ [.result result] →
        (⟨rootName, none⟩ : Loader).load layout.text reader = .ok session) := by
  obtain ⟨events, ⟨trace, document, -, -⟩, -, written⟩ := exists_written read
  obtain ⟨builder, taken, holds⟩ := written.build rootName rfl
  have fits := fits_of_readRecords lawful read counted
  have finished : builder.finish (some result) = .ok (.ofGraph builder.session.graph result) :=
    holds.finish_eq (some result)
  refine ⟨.ofGraph builder.session.graph result, rfl, fun unmarked => ?_,
    fun marked => load_of_byteOrderMark reader marked _, fun layout made => ?_,
    fun layout made => ?_⟩
  · have detected := lawful.detect_of_document? document unmarked
    exact (Loader.load_eq_finish detected read taken).trans finished
  · obtain ⟨readBack, values, -⟩ := layout.readRecords_text (made ▸ fits)
    have again := Builder.addAll_of_map_value_eq taken (values.trans made)
    exact (Loader.load_eq_finish layout.detect_text readBack again).trans finished
  · have going : builder.result.isSome = false := by
      rw [holds.result_eq, written.results_eq]
      rfl
    have closed : Record.Fits (.result result) := by simp [Record.Fits, Record.fields]
    obtain ⟨readBack, values, -⟩ := layout.readRecords_text (by
      rw [made]
      exact List.forall_mem_append.mpr ⟨fits, List.forall_mem_singleton.mpr closed⟩)
    obtain ⟨front, position, placed, same⟩ := map_value_eq_concat (values.trans made)
    have early := Builder.addAll_of_map_value_eq taken same
    have last := Builder.add_eq_ok_iff.mpr (Builder.send_result going result position)
    have again := addAll_concat early last
    rw [← placed] at again
    exact (Loader.load_eq_finish layout.detect_text readBack again).trans finished

/-- An empty trace after a byte order mark. -/
def markedText : String := "\uFEFF<Trace/>"

/-- It is read as a trace without events. -/
theorem readRecords_markedText : readRecords markedText = .ok [] := by
  rw [readRecords, Markup.Reader.nesting]
  dsimp only
  rw [Markup.document?, Markup.documentItems, glyphs, markedText]
  decide +kernel

/-- It is read, but it does not load the session that its rendering loads. -/
theorem load_rendering_marked :
    ∃ records, readRecords markedText = .ok records ∧
      ∃ session, (⟨"R", some "int"⟩ : Loader).load
          (Record.Layout.plain (records.map Placed.value)).text = .ok session ∧
        (⟨"R", some "int"⟩ : Loader).load markedText ≠ .ok session := by
  have rendered : (Record.Layout.plain []).text = "" := by decide
  refine ⟨[], readRecords_markedText, .ofGraph (Builder.new "R").session.graph "int", ?_, ?_⟩
  · rw [List.map_nil, rendered]
    decide +kernel
  · rw [load_of_byteOrderMark _ (by decide)]
    simp

/-- A begin whose context has a quote, a line feed, a number sign, a bar and a backslash. -/
def spelledText : String := traceText [beginText "Memoization" "a\"&#10;#|\\"]

/-- It loads the session that its records load as text, with the result given or recorded. -/
theorem load_rendering_spelled :
    let rendering := "entity 1 \"a\\\"\\n#|\\\\\"\ninstantiation 0 1 Memoization -\n"
    ∃ session : Session, session.result = "int" ∧
      (⟨"R", some "int"⟩ : Loader).load spelledText = .ok session ∧
      (⟨"R", some "int"⟩ : Loader).load rendering = .ok session ∧
      (⟨"R", none⟩ : Loader).load (rendering ++ "result \"int\"\n") = .ok session := by
  intro rendering
  let made : List Record := [.entity 1 "a\"\n#|\\", .instantiation 0 1 .memoization none]
  have read : readRecords spelledText = .ok (made.map (⟨·, ⟨1, 8⟩⟩)) := by
    rw [readRecords, Markup.Reader.nesting]
    dsimp only
    rw [Markup.document?, Markup.documentItems, glyphs, spelledText, traceText,
      String.toList_join]
    decide +kernel
  have counted : spelledText.length ≤ Text.maxWord := by
    rw [spelledText, traceText, ← String.length_toList, String.toList_join]
    decide +kernel
  have unmarked : spelledText.toList.head? ≠ some '\uFEFF' := by
    rw [spelledText, traceText, String.toList_join]
    decide +kernel
  obtain ⟨session, result, loaded, -, given, recorded⟩ :=
    load_rendering Markup.Reader.lawful_nesting read counted "R" "int"
  have plain : (Record.Layout.plain made).text = rendering := by decide +kernel
  have closed : (Record.Layout.plain (made ++ [.result "int"])).text =
      rendering ++ "result \"int\"\n" := by decide +kernel
  refine ⟨session, result, loaded unmarked, ?_, ?_⟩
  · rw [← plain]
    exact given _ (Record.Layout.records_plain _)
  · rw [← closed]
    exact recorded _ (Record.Layout.records_plain _)

end Templight

end Retrace
