import Retrace.Proofs.RoundTrip
import Retrace.Proofs.Trimming
import Retrace.Templight

/-!
# Points of instantiation in templight traces

A templight trace writes a point of instantiation as file, line and column with bars between them.
The file may contain bars, but the line and the column hold none, so that the last two bars are the
ones between the parts (`Text.splitLast_eq_some_iff`). `Templight.Spells` says which texts spell
which points: the numbers may have a plus sign and leading zeros, and there may be blanks at both
ends of the text and at the end of the file.

A text that spells a point is read as this one, and every other text is refused:
`Templight.location?_eq_some_iff`. The main statement is `Templight.location?_spec`.
-/
namespace Retrace

namespace Text

/-! ## Texts cut at their last separator -/

/-- A text without a separator is not cut. -/
theorem splitLast_eq_none_iff {separator : Char} {text : List Char} :
    splitLast separator text = none ↔ separator ∉ text := by
  induction text with
  | nil => simp [splitLast]
  | cons char chars ih =>
    rw [splitLast]
    cases later : splitLast separator chars with
    | none => simp [ih.mp later, eq_comm]
    | some parts =>
      have inside : separator ∈ chars := by simpa [later] using ih
      simp [inside]

/-- A text is cut at the separator after which there is none. -/
theorem splitLast_eq_some_iff {separator : Char} {text front back : List Char} :
    splitLast separator text = some (front, back) ↔
      text = front ++ separator :: back ∧ separator ∉ back := by
  constructor
  · intro cut
    induction text generalizing front with
    | nil => simp [splitLast] at cut
    | cons char chars ih =>
      rw [splitLast] at cut
      cases later : splitLast separator chars with
      | some parts =>
        obtain ⟨before, after⟩ := parts
        simp only [later, Option.some.injEq, Prod.mk.injEq] at cut
        obtain ⟨rfl, rfl⟩ := cut
        obtain ⟨whole, free⟩ := ih later
        exact ⟨congrArg (char :: ·) whole, free⟩
      | none =>
        simp only [later, Option.ite_none_right_eq_some, Option.some.injEq, Prod.mk.injEq] at cut
        obtain ⟨rfl, rfl, rfl⟩ := cut
        exact ⟨rfl, splitLast_eq_none_iff.mp later⟩
  · rintro ⟨rfl, free⟩
    induction front with
    | nil => simp [splitLast, splitLast_eq_none_iff.mpr free]
    | cons char chars ih => rw [List.cons_append, splitLast, ih]

/-! ## Numbers with a sign -/

/-- A number as a trace may write it: decimal digits, with a plus sign before them or without one,
whose value a word of 64 bits holds. -/
structure Numeral (chars : List Char) (value : Nat) : Prop where
  /-- There is at least one digit, and nothing but digits after the sign. -/
  digits : ∃ digits, (chars = digits ∨ chars = '+' :: digits) ∧ digits ≠ [] ∧
    (∀ char ∈ digits, char.isDigit = true) ∧ digitsValue digits = value
  /-- A word holds the value. -/
  le_maxWord : value ≤ maxWord

/-- Characters are read as a number when there are some, all of them are digits, and a word holds
their value. -/
theorem digits?_eq_some_iff {digits : List Char} {value : Nat} :
    digits? digits = some value ↔ digits ≠ [] ∧ (∀ char ∈ digits, char.isDigit = true) ∧
      digitsValue digits = value ∧ value ≤ maxWord := by
  unfold digits? word?
  rw [← List.all_eq_true]
  constructor
  · intro read
    split_ifs at read with refused fits
    obtain rfl := Option.some.inj read
    simp only [Bool.or_eq_true, List.isEmpty_iff, Bool.not_eq_true', not_or] at refused
    exact ⟨refused.1, (Bool.not_eq_false _).mp refused.2, rfl, fits⟩
  · rintro ⟨some, all, rfl, fits⟩
    simp [some, all, fits]

/-- The numbers with a sign that are read are the numerals. -/
theorem signed?_eq_some_iff {chars : List Char} {value : Nat} :
    signed? chars = some value ↔ Numeral chars value := by
  constructor
  · intro read
    unfold signed? at read
    split at read
    · rename_i digits
      obtain ⟨some, all, same, fits⟩ := digits?_eq_some_iff.mp read
      exact ⟨⟨digits, .inr rfl, some, all, same⟩, fits⟩
    · obtain ⟨some, all, same, fits⟩ := digits?_eq_some_iff.mp read
      exact ⟨⟨chars, .inl rfl, some, all, same⟩, fits⟩
  · rintro ⟨⟨digits, rfl | rfl, some, all, same⟩, fits⟩
    · have read := digits?_eq_some_iff.mpr ⟨some, all, same, fits⟩
      unfold signed?
      split
      · exact absurd (all '+' List.mem_cons_self) (by decide)
      · exact read
    · exact digits?_eq_some_iff.mpr ⟨some, all, same, fits⟩

/-- A number that a word holds is written by its digits. -/
theorem numeral_toDigits {value : Nat} (fits : value ≤ maxWord) :
    Numeral (Nat.toDigits 10 value) value where
  digits := ⟨_, .inl rfl, Nat.toDigits_ne_nil,
    fun _ inside => Nat.isDigit_of_mem_toDigits (by decide) (by decide) inside,
    digitsValue_toDigits value⟩
  le_maxWord := fits

/-- No digit is blank. -/
theorem isBlank_of_isDigit {char : Char} (digit : char.isDigit = true) :
    isBlank char = false := by
  have apart : ∀ code ∈ blankCodes, code < '0'.toNat ∨ '9'.toNat < code := by decide
  obtain ⟨least, greatest⟩ := Char.isDigit_iff_toNat.mp digit
  refine Bool.eq_false_iff.mpr fun blank => ?_
  have outside := apart char.toNat (List.contains_iff_mem.mp blank)
  omega

section

variable {chars : List Char} {value : Nat} (numeral : Numeral chars value)
include numeral

/-- A numeral has a character. -/
theorem Numeral.ne_nil : chars ≠ [] := by
  obtain ⟨digits, rfl | rfl, some, _⟩ := numeral.digits
  · exact some
  · exact List.cons_ne_nil _ _

/-- A numeral consists of digits and a sign. -/
theorem Numeral.isDigit_or_eq : ∀ char ∈ chars, char.isDigit = true ∨ char = '+' := by
  intro char inside
  obtain ⟨digits, rfl | rfl, _, all, _⟩ := numeral.digits
  · exact .inl (all char inside)
  · exact (List.mem_cons.mp inside).symm.imp_left (all char)

/-- It has no bar. -/
theorem Numeral.notMem_bar : '|' ∉ chars := by
  intro inside
  rcases numeral.isDigit_or_eq _ inside with digit | sign <;> contradiction

/-- It has no blank. -/
theorem Numeral.isBlank_eq_false : ∀ char ∈ chars, isBlank char = false := by
  intro char inside
  rcases numeral.isDigit_or_eq char inside with digit | rfl
  · exact isBlank_of_isDigit digit
  · decide

end

end Text

namespace Templight

open Markup (Element)

/-! ## Spelled points of instantiation -/

/-- The parts of a point of instantiation with bars between them. -/
def joined (file line column : List Char) : List Char := file ++ '|' :: (line ++ '|' :: column)

/-- A text spells a point of instantiation: without the blanks at its ends it is the file, the line
and the column with bars between them, and neither number contains a bar. -/
def Spells (text : List Char) (location : Location) : Prop :=
  ∃ line column, Text.Trimmed text (joined location.file.toList line column) ∧
    '|' ∉ line ∧ '|' ∉ column ∧
    Text.Numeral line location.line ∧ Text.Numeral column location.column

/-- A point of instantiation is read from a text exactly when the text spells it. -/
theorem location?_eq_some_iff {text : List Char} {location : Location} :
    location? text = some location ↔ Spells text location := by
  simp only [location?, Option.bind_eq_bind, Option.bind_eq_some_iff, Prod.exists]
  constructor
  · rintro ⟨front, column, last, file, line, first, lineValue, readLine, columnValue, readColumn,
      made⟩
    obtain ⟨whole, columnFree⟩ := Text.splitLast_eq_some_iff.mp last
    obtain ⟨rfl, lineFree⟩ := Text.splitLast_eq_some_iff.mp first
    obtain rfl := Option.some.inj made
    have trimmed := Text.trimmed_trim text
    rw [whole, List.append_assoc, List.cons_append, ← String.toList_ofList (l := file)] at trimmed
    exact ⟨line, column, trimmed, lineFree, columnFree, Text.signed?_eq_some_iff.mp readLine,
      Text.signed?_eq_some_iff.mp readColumn⟩
  · rintro ⟨line, column, trimmed, lineFree, columnFree, lineRead, columnRead⟩
    have last : Text.splitLast '|' (Text.trim text) =
        some (location.file.toList ++ '|' :: line, column) := by
      rw [trimmed.trim_eq, Text.splitLast_eq_some_iff]
      exact ⟨by simp [joined], columnFree⟩
    have first : Text.splitLast '|' (location.file.toList ++ '|' :: line) =
        some (location.file.toList, line) := Text.splitLast_eq_some_iff.mpr ⟨rfl, lineFree⟩
    refine ⟨_, _, last, _, _, first, _, Text.signed?_eq_some_iff.mpr lineRead, _,
      Text.signed?_eq_some_iff.mpr columnRead, ?_⟩
    rw [String.ofList_toList]

/-- A point of instantiation is spelled by its parts with blanks around them, as long as its file
does not begin with a blank. -/
theorem spells_joined {location : Location} {line column lead trail : List Char}
    (visible : ∀ char ∈ location.file.toList.head?, Text.isBlank char = false)
    (lineRead : Text.Numeral line location.line)
    (columnRead : Text.Numeral column location.column)
    (leadBlank : lead.all Text.isBlank = true) (trailBlank : trail.all Text.isBlank = true) :
    Spells (lead ++ joined location.file.toList line column ++ trail) location := by
  refine ⟨line, column, ⟨⟨lead, trail, rfl, leadBlank, trailBlank⟩, fun char first => ?_,
    fun char last => ?_⟩, lineRead.notMem_bar, columnRead.notMem_bar, lineRead, columnRead⟩
  · cases named : location.file.toList with
    | nil =>
      rw [named, joined, List.nil_append, List.head?_cons, Option.mem_some] at first
      rw [← first]
      decide
    | cons =>
      rw [named] at first visible
      exact visible char first
  · rw [joined, List.getLast?_append_of_ne_nil _ (List.cons_ne_nil _ _),
      List.getLast?_cons_of_ne_nil (by simp), List.getLast?_append_of_ne_nil _ (by simp),
      List.getLast?_cons_of_ne_nil columnRead.ne_nil] at last
    exact columnRead.isBlank_eq_false char (List.mem_of_getLast? last)

/-- Every point of instantiation whose file does not begin with a blank and whose numbers words hold
is read from its parts with bars between them and any blanks around them. A point is read from a
text exactly when the text spells it. A begin that gives a point of instantiation has the one that
its text spells, and it is refused as malformed when its text spells none. -/
theorem location?_spec :
    (∀ (location : Location) (lead trail : List Char),
      (∀ char ∈ location.file.toList.head?, Text.isBlank char = false) →
      location.line ≤ Text.maxWord → location.column ≤ Text.maxWord →
      lead.all Text.isBlank = true → trail.all Text.isBlank = true →
        location? (lead ++ joined location.file.toList (Nat.toDigits 10 location.line)
          (Nat.toDigits 10 location.column) ++ trail) = some location) ∧
    (∀ text location, location? text = some location ↔ Spells text location) ∧
    ∀ event element : Element, event.child? "PointOfInstantiation" = some element →
      let text := element.text?.getD []
      (∀ location, Spells text location → readLocation event = .ok (some location)) ∧
      ((∀ location, ¬ Spells text location) → readLocation event =
        .error (.templight (.malformedLocation (String.ofList text)) element.position)) := by
  refine ⟨fun location lead trail visible line column leadBlank trailBlank => ?_,
    fun text location => location?_eq_some_iff, fun event element given => ⟨fun location spells => ?_,
      fun unspelled => ?_⟩⟩
  · exact location?_eq_some_iff.mpr (spells_joined visible (Text.numeral_toDigits line)
      (Text.numeral_toDigits column) leadBlank trailBlank)
  · rw [readLocation, given]
    simp only [location?_eq_some_iff.mpr spells]
  · have refused : location? (element.text?.getD []) = none := by
      refine Option.eq_none_iff_forall_ne_some.mpr fun location read => ?_
      exact unspelled location (location?_eq_some_iff.mp read)
    rw [readLocation, given]
    simp only [refused]

/-- The file keeps its bar and its inner blank, and it may be empty. A column that no word holds is
refused, and so is a blank between a bar and a number. -/
theorem location?_spec_barred :
    let begun (text : String) : Element :=
      ⟨"TemplateBegin", [], ⟨2, 1⟩,
        [.element ⟨"PointOfInstantiation", [], ⟨3, 5⟩, [.text text.toList]⟩]⟩
    let malformed (text : String) : TraceError := .templight (.malformedLocation text) ⟨3, 5⟩
    location? " \t|3|4\n".toList = some ⟨"", 3, 4⟩ ∧
      readLocation (begun " a|b .cpp|+07|18446744073709551615\n") =
        .ok (some ⟨"a|b .cpp", 7, 18446744073709551615⟩) ∧
      readLocation (begun "a.cpp|3|18446744073709551616") =
        .error (malformed "a.cpp|3|18446744073709551616") ∧
      readLocation (begun "a.cpp|3 |4") = .error (malformed "a.cpp|3 |4") := by
  intro begun malformed
  obtain ⟨written, spelled, begins⟩ := location?_spec
  have refused {text : String} (unread : location? text.toList = none) :
      readLocation (begun text) = .error (malformed text) := by
    have spelling : ∀ location, ¬ Spells text.toList location := fun location spells => by
      rw [(spelled _ location).mpr spells] at unread
      contradiction
    have answer := (begins (begun text) _ rfl).2 spelling
    have same : malformed (String.ofList text.toList) = malformed text := by
      rw [String.ofList_toList]
    rw [← same]
    exact answer
  refine ⟨?_, ?_, refused (by decide +kernel), refused (by decide +kernel)⟩
  · exact written ⟨"", 3, 4⟩ " \t".toList "\n".toList (by simp) (by decide) (by decide) (by decide)
      (by decide)
  · refine (begins _ _ rfl).1 _ ((spelled _ _).mp ?_)
    decide +kernel

end Templight

end Retrace
