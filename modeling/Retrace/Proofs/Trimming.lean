import Mathlib.Data.List.TakeWhile
import Retrace.Text

/-!
# Texts without the blanks at their ends

`Text.Trimmed` says what is left of a text without the blanks at its ends: nothing but blanks around
it is gone, and it neither begins nor ends with one. Trimming gives that (`Text.trimmed_trim`), and
there is nothing else that it could give (`Text.Trimmed.trim_eq`).
-/
namespace Retrace.Text

/-! ## Blanks at the front -/

/-- A blank at the front of a text is trimmed. -/
theorem trimStart_cons_of_isBlank {char : Char} (blank : isBlank char = true)
    (rest : List Char) : trimStart (char :: rest) = trimStart rest :=
  List.dropWhile_cons_of_pos blank

/-- Blanks at the front of a text are trimmed. -/
theorem trimStart_append {front : List Char} (blank : front.all isBlank = true)
    (rest : List Char) : trimStart (front ++ rest) = trimStart rest := by
  induction front with
  | nil => rfl
  | cons char front ih =>
    rw [List.all_cons, Bool.and_eq_true] at blank
    rw [List.cons_append, trimStart_cons_of_isBlank blank.1]
    exact ih blank.2

/-- Nothing is trimmed before a character that is not blank. -/
theorem trimStart_cons {char : Char} (visible : isBlank char = false) (rest : List Char) :
    trimStart (char :: rest) = char :: rest :=
  List.dropWhile_cons_of_neg (by simp [visible])

/-- Blanks and what is left without them. -/
theorem exists_lead (text : List Char) :
    ∃ lead, text = lead ++ trimStart text ∧ lead.all isBlank = true :=
  ⟨text.takeWhile isBlank, List.takeWhile_append_dropWhile.symm, List.all_takeWhile⟩

/-- Without its leading blanks, a text does not begin with a blank. -/
theorem isBlank_head_trimStart (text : List Char) {char : Char}
    (first : char ∈ (trimStart text).head?) : isBlank char = false := by
  have stopped := List.head?_dropWhile_not isBlank text
  rw [trimStart, Option.mem_def] at first
  simpa [first] using stopped

/-! ## Blanks at both ends -/

/-- `fragment` is `text` without the blanks at its ends. -/
structure Trimmed (text fragment : List Char) : Prop where
  /-- There are only blanks around the fragment. -/
  split : ∃ lead trail, text = lead ++ fragment ++ trail ∧
    lead.all isBlank = true ∧ trail.all isBlank = true
  /-- The fragment does not begin with a blank. -/
  first : ∀ char ∈ fragment.head?, isBlank char = false
  /-- The fragment does not end with a blank. -/
  last : ∀ char ∈ fragment.getLast?, isBlank char = false

/-- Trimming takes the blanks away at both ends. -/
theorem trimmed_trim (text : List Char) : Trimmed text (trim text) := by
  obtain ⟨lead, split, leadBlank⟩ := exists_lead text
  obtain ⟨trail, rest, trailBlank⟩ := exists_lead (trimStart text).reverse
  have back : trimStart text = trim text ++ trail.reverse := by
    rw [trim, ← List.reverse_append, ← rest, List.reverse_reverse]
  refine ⟨⟨lead, trail.reverse, ?_, leadBlank, ?_⟩, fun char first => ?_, fun char last => ?_⟩
  · rw [List.append_assoc, ← back]
    exact split
  · rwa [List.all_reverse]
  · apply isBlank_head_trimStart text
    rw [back]
    cases trimmed : trim text with
    | nil => simp [trimmed] at first
    | cons => simpa [trimmed] using first
  · rw [trim, List.getLast?_reverse] at last
    exact isBlank_head_trimStart _ last

/-- Nothing is left of a text exactly when it is blank. -/
theorem trim_eq_nil_iff (text : List Char) :
    trim text = [] ↔ ∀ char ∈ text, isBlank char = true := by
  obtain ⟨⟨lead, trail, split, leadBlank, trailBlank⟩, first, _⟩ := trimmed_trim text
  constructor
  · intro empty
    rw [empty, List.append_nil] at split
    rw [split, ← List.all_eq_true, List.all_append, leadBlank, trailBlank]
    rfl
  · intro blank
    cases trimmed : trim text with
    | nil => rfl
    | cons char chars =>
      have visible := first char (by simp [trimmed])
      have within : char ∈ text := by
        rw [split, trimmed]
        simp
      rw [blank char within] at visible
      contradiction

/-- What is left without the blanks at both ends is what trimming gives. -/
theorem Trimmed.trim_eq {text fragment : List Char} (trimmed : Trimmed text fragment) :
    trim text = fragment := by
  obtain ⟨⟨lead, trail, rfl, leadBlank, trailBlank⟩, first, last⟩ := trimmed
  cases fragment with
  | nil =>
    rw [trim_eq_nil_iff, List.append_nil, ← List.all_eq_true, List.all_append, leadBlank, trailBlank]
    rfl
  | cons char chars =>
    have front : trimStart (lead ++ char :: chars ++ trail) = char :: chars ++ trail := by
      rw [List.append_assoc, trimStart_append leadBlank, List.cons_append,
        trimStart_cons (first char rfl)]
    have back : trimStart (trail.reverse ++ (char :: chars).reverse) = (char :: chars).reverse := by
      rw [trimStart_append (by rwa [List.all_reverse])]
      cases turned : (char :: chars).reverse with
      | nil => rfl
      | cons other rest =>
        refine trimStart_cons (last other ?_) rest
        rw [← List.head?_reverse, turned]
        rfl
    rw [trim, front, List.reverse_append, back, List.reverse_reverse]

end Retrace.Text
