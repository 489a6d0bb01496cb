import Mathlib.Data.List.Induction
import Retrace.Templight

/-!
# Nested begins and ends

The events of a trace begin and end instantiations as brackets open and close. `Proper` says that no
prefix ends more than it begins, and `Balanced` that the whole ends all that it begins, too. A begin
encloses what comes after it for as long as the events between are balanced (`Encloses`), so the
innermost one that encloses the end of some events is the last that they leave open.

`Open` is the relation between events and the begins that they leave open, the innermost first. It
holds of one list of begins exactly when the events are proper (`Proper.exists_open`,
`Open.unique`), and the next event changes that list at its front: a begin adds to it (`Open.push`)
and an end takes from it (`Open.pop`).
-/
namespace Retrace.Templight

/-- What an event of a trace says. -/
inductive Occurrence where
  /-- An instantiation begins. -/
  | begun (begun : Begin)
  /-- An instantiation of a kind ends. -/
  | ended (kind : Kind)
  deriving DecidableEq, Repr

/-- The begins among events, in order. -/
def begins (events : List Occurrence) : List Begin :=
  events.filterMap fun
    | .begun begun => some begun
    | .ended _ => none

/-- The kinds of the ends among events, in order. -/
def ends (events : List Occurrence) : List Kind :=
  events.filterMap fun
    | .begun _ => none
    | .ended kind => some kind

/-- The begins of more events come after those of the first ones. -/
@[simp] theorem begins_append (events more : List Occurrence) :
    begins (events ++ more) = begins events ++ begins more := List.filterMap_append

/-- A begin is one of the begins. -/
@[simp] theorem begins_begun (begun : Begin) (events : List Occurrence) :
    begins (.begun begun :: events) = begun :: begins events := rfl

/-- An end is none of the begins. -/
@[simp] theorem begins_ended (kind : Kind) (events : List Occurrence) :
    begins (.ended kind :: events) = begins events := rfl

/-- The empty list of events has no begins. -/
@[simp] theorem begins_nil : begins [] = [] := rfl

/-- The ends of more events come after those of the first ones. -/
@[simp] theorem ends_append (events more : List Occurrence) :
    ends (events ++ more) = ends events ++ ends more := List.filterMap_append

/-- A begin is none of the ends. -/
@[simp] theorem ends_begun (begun : Begin) (events : List Occurrence) :
    ends (.begun begun :: events) = ends events := rfl

/-- An end is one of the ends. -/
@[simp] theorem ends_ended (kind : Kind) (events : List Occurrence) :
    ends (.ended kind :: events) = kind :: ends events := rfl

/-- The empty list of events has no ends. -/
@[simp] theorem ends_nil : ends [] = [] := rfl

/-! ## Balanced events -/

/-- No prefix of the events has more ends than begins. -/
def Proper (events : List Occurrence) : Prop :=
  ∀ front, front <+: events → (ends front).length ≤ (begins front).length

/-- The ends among events close all of the begins, and nothing else. -/
structure Balanced (events : List Occurrence) : Prop where
  /-- Every end closes a begin. -/
  proper : Proper events
  /-- Every begin is closed. -/
  length_eq : (ends events).length = (begins events).length

/-- Proper events have no more ends than begins. -/
theorem Proper.le {events : List Occurrence} (proper : Proper events) :
    (ends events).length ≤ (begins events).length := proper events List.prefix_rfl

/-- What comes first among proper events is proper. -/
theorem Proper.of_prefix {events front : List Occurrence} (proper : Proper events)
    (before : front <+: events) : Proper front :=
  fun other inside => proper other (inside.trans before)

/-- A prefix of some events and more is one of the events, or the events and a prefix of more. -/
theorem prefix_append_cases {events more front : List Occurrence}
    (before : front <+: events ++ more) :
    front <+: events ∨ ∃ inner, front = events ++ inner ∧ inner <+: more := by
  obtain ⟨rest, split⟩ := before
  rcases List.append_eq_append_iff.mp split with ⟨inner, rfl, -⟩ | ⟨inner, rfl, rfl⟩
  · exact .inl ⟨inner, rfl⟩
  · exact .inr ⟨inner, rfl, rest, rfl⟩

/-- Proper events may follow proper events. -/
theorem Proper.append {events more : List Occurrence} (proper : Proper events)
    (others : Proper more) : Proper (events ++ more) := by
  intro front before
  rcases prefix_append_cases before with early | ⟨inner, rfl, late⟩
  · exact proper front early
  · have first := proper.le
    have second := others inner late
    simp only [ends_append, begins_append, List.length_append]
    omega

/-- The empty list of events is proper. -/
theorem proper_nil : Proper [] := by
  intro front before
  rw [List.prefix_nil.mp before]
  exact Nat.le_refl _

/-- A begin alone is proper. -/
theorem proper_begun (begun : Begin) : Proper [.begun begun] := by
  intro front before
  rcases List.prefix_cons_iff.mp before with rfl | ⟨inner, rfl, nothing⟩
  · exact Nat.le_refl _
  · rw [List.prefix_nil.mp nothing]
    exact Nat.zero_le _

/-- Events are still proper after an end as long as they have fewer ends than begins. -/
theorem Proper.ended {events : List Occurrence} (proper : Proper events)
    (fewer : (ends events).length < (begins events).length) (kind : Kind) :
    Proper (events ++ [.ended kind]) := by
  intro front before
  rcases List.prefix_concat_iff.mp before with rfl | early
  · simpa [Nat.succ_le_iff] using fewer
  · exact proper front early

/-- The empty list of events is balanced. -/
theorem balanced_nil : Balanced [] := ⟨proper_nil, rfl⟩

/-- Balanced events one after another are balanced. -/
theorem Balanced.append {events more : List Occurrence} (balanced : Balanced events)
    (others : Balanced more) : Balanced (events ++ more) := by
  refine ⟨balanced.proper.append others.proper, ?_⟩
  rw [ends_append, begins_append, List.length_append, List.length_append, balanced.length_eq,
    others.length_eq]

/-- A begin and an end around balanced events leave them balanced. -/
theorem Balanced.wrap {between : List Occurrence} (balanced : Balanced between) (begun : Begin)
    (kind : Kind) : Balanced (.begun begun :: between ++ [.ended kind]) := by
  have length_eq := balanced.length_eq
  refine ⟨?_, by simp [length_eq]⟩
  refine ((proper_begun begun).append balanced.proper).ended ?_ kind
  simp [length_eq]

/-- What comes before the last open begin cannot make up for it. -/
theorem Balanced.not_open {inside between : List Occurrence} {begun : Begin}
    (whole : Balanced (inside ++ .begun begun :: between)) : ¬ Balanced between := by
  intro balanced
  have early := whole.proper inside (List.prefix_append _ _)
  have all := whole.length_eq
  have rest := balanced.length_eq
  simp only [ends_append, begins_append, ends_begun, begins_begun, List.length_append,
    List.length_cons] at all
  omega

/-- Events have one last begin at most that balanced events follow. -/
theorem Balanced.split_unique {before between before' between' : List Occurrence}
    {begun begun' : Begin} (balanced : Balanced between) (balanced' : Balanced between')
    (same : before ++ .begun begun :: between = before' ++ .begun begun' :: between') :
    before = before' ∧ begun = begun' := by
  rcases List.append_eq_append_iff.mp same with ⟨inside, rfl, split⟩ | ⟨inside, rfl, split⟩
  · cases inside with
    | nil =>
      injection split with first
      exact ⟨(List.append_nil _).symm, Occurrence.begun.inj first⟩
    | cons _ inside =>
      obtain ⟨-, rfl⟩ := List.cons.inj split
      exact absurd balanced' balanced.not_open
  · cases inside with
    | nil =>
      injection split with first
      exact ⟨List.append_nil _, (Occurrence.begun.inj first).symm⟩
    | cons _ inside =>
      obtain ⟨-, rfl⟩ := List.cons.inj split
      exact absurd balanced balanced'.not_open

/-! ## Open begins -/

/-- A begin is the innermost one that encloses what comes after some events: it is the last of them
with balanced events after it. -/
def Encloses (events : List Occurrence) (outer : Begin) : Prop :=
  ∃ before between, events = before ++ .begun outer :: between ∧ Balanced between

/-- The begins that events leave open, each with the number of begins before it, the innermost
first. -/
inductive Open : List Occurrence → List (Nat × Begin) → Prop
  /-- Balanced events leave no begin open. -/
  | none {events : List Occurrence} (balanced : Balanced events) : Open events []
  /-- A begin stays open while balanced events follow. -/
  | one {before between : List Occurrence} {stack : List (Nat × Begin)} (outer : Open before stack)
      (begun : Begin) (balanced : Balanced between) :
      Open (before ++ .begun begun :: between) (((begins before).length, begun) :: stack)

namespace Open

variable {events : List Occurrence} {stack : List (Nat × Begin)}

/-- Balanced events change nothing. -/
theorem append (opened : Open events stack) {more : List Occurrence} (balanced : Balanced more) :
    Open (events ++ more) stack := by
  cases opened with
  | none before => exact .none (before.append balanced)
  | one outer begun between =>
    rw [List.append_assoc, List.cons_append]
    exact .one outer begun (between.append balanced)

/-- A begin is open and the innermost. -/
theorem push (opened : Open events stack) (begun : Begin) :
    Open (events ++ [.begun begun]) (((begins events).length, begun) :: stack) :=
  .one opened begun balanced_nil

/-- An end closes the innermost open begin. -/
theorem pop {top : Nat × Begin} (opened : Open events (top :: stack)) (kind : Kind) :
    Open (events ++ [.ended kind]) stack := by
  cases opened with
  | one outer begun between =>
    rw [List.append_assoc]
    exact outer.append (between.wrap begun kind)

/-- There are as many open begins as begins that no end closes. -/
theorem length_begins (opened : Open events stack) :
    (begins events).length = (ends events).length + stack.length := by
  induction opened with
  | none balanced => exact balanced.length_eq.symm
  | one outer begun balanced ih =>
    have between := balanced.length_eq
    simp only [begins_append, begins_begun, ends_append, ends_begun, List.length_append,
      List.length_cons]
    omega

/-- Events with open begins are proper. -/
theorem proper (opened : Open events stack) : Proper events := by
  induction opened with
  | none balanced => exact balanced.proper
  | one outer begun balanced ih =>
    exact ih.append ((proper_begun begun).append balanced.proper)

/-- Events leave one list of begins open at most. -/
theorem unique {other : List (Nat × Begin)} (opened : Open events stack)
    (again : Open events other) : stack = other := by
  induction opened generalizing other with
  | @none events balanced =>
    generalize same : events = whole at again
    cases again with
    | none => rfl
    | one _ _ between => exact absurd between (same ▸ balanced).not_open
  | @one before between stack outer begun balanced ih =>
    generalize same : before ++ .begun begun :: between = whole at again
    cases again with
    | none whole => exact absurd balanced (same ▸ whole).not_open
    | one outer' begun' balanced' =>
      obtain ⟨rfl, rfl⟩ := balanced.split_unique balanced' same
      rw [ih outer']

/-- The innermost open begin encloses what comes next. -/
theorem encloses {top : Nat × Begin} (opened : Open events (top :: stack)) :
    Encloses events top.2 := by
  cases opened with
  | one outer begun balanced => exact ⟨_, _, rfl, balanced⟩

end Open

/-- Proper events leave some begins open. -/
theorem Proper.exists_open {events : List Occurrence} (proper : Proper events) :
    ∃ stack, Open events stack := by
  induction events using List.reverseRecOn with
  | nil => exact ⟨[], .none balanced_nil⟩
  | append_singleton events event ih =>
    obtain ⟨stack, opened⟩ := ih (proper.of_prefix (List.prefix_append _ _))
    cases event with
    | begun begun => exact ⟨_, opened.push begun⟩
    | ended kind =>
      cases stack with
      | nil =>
        have all := proper.le
        have closed := opened.length_begins
        simp only [ends_append, begins_append, ends_ended, begins_ended, ends_nil, begins_nil,
          List.length_append, List.length_cons, List.length_nil] at all closed
        omega
      | cons top stack => exact ⟨_, opened.pop kind⟩

/-- No other begin encloses what comes next than the innermost open one. -/
theorem Open.of_encloses {events : List Occurrence} {stack : List (Nat × Begin)} {outer : Begin}
    (opened : Open events stack) (encloses : Encloses events outer) :
    ∃ index rest, stack = (index, outer) :: rest := by
  obtain ⟨before, between, rfl, balanced⟩ := encloses
  obtain ⟨rest, early⟩ := (opened.proper.of_prefix (List.prefix_append _ _)).exists_open
  exact ⟨_, rest, opened.unique (.one early outer balanced)⟩

/-- Proper events close no begin that was open before them. -/
theorem Open.extend {past more : List Occurrence} {stack : List (Nat × Begin)}
    (opened : Open past stack) (proper : Proper more) :
    ∃ inner, Open (past ++ more) (inner ++ stack) := by
  induction more using List.reverseRecOn with
  | nil => exact ⟨[], by rwa [List.append_nil]⟩
  | append_singleton more event ih =>
    obtain ⟨inner, later⟩ := ih (proper.of_prefix (List.prefix_append _ _))
    rw [← List.append_assoc]
    cases event with
    | begun begun => exact ⟨_ :: inner, later.push begun⟩
    | ended kind =>
      cases inner with
      | nil =>
        have all := proper.le
        have before := opened.length_begins
        have after := later.length_begins
        simp only [ends_append, begins_append, ends_ended, begins_ended, ends_nil, begins_nil,
          List.length_append, List.length_cons, List.length_nil, List.nil_append] at all after
        omega
      | cons top inner => exact ⟨inner, later.pop kind⟩

/-- The open begins are those after which the events are proper. -/
theorem Open.mem_iff {events : List Occurrence} {stack : List (Nat × Begin)}
    (opened : Open events stack) (index : Nat) (begun : Begin) :
    (index, begun) ∈ stack ↔ ∃ before between, events = before ++ .begun begun :: between ∧
      (begins before).length = index ∧ Proper between := by
  constructor
  · intro listed
    induction opened with
    | none balanced => exact absurd listed List.not_mem_nil
    | @one before between stack outer last balanced ih =>
      rcases List.mem_cons.mp listed with same | below
      · obtain ⟨rfl, rfl⟩ := Prod.mk.inj same
        exact ⟨before, between, rfl, rfl, balanced.proper⟩
      · obtain ⟨early, inner, rfl, counted, proper⟩ := ih below
        refine ⟨early, inner ++ .begun last :: between, by simp, counted, ?_⟩
        exact proper.append ((proper_begun last).append balanced.proper)
  · rintro ⟨before, between, rfl, rfl, proper⟩
    obtain ⟨rest, early⟩ := (opened.proper.of_prefix (List.prefix_append _ _)).exists_open
    obtain ⟨inner, later⟩ := (early.push begun).extend proper
    rw [List.append_assoc, List.singleton_append] at later
    rw [opened.unique later]
    exact List.mem_append_right _ List.mem_cons_self

/-- Fewer begins come before an open one. -/
theorem Open.lt_of_mem {events : List Occurrence} {stack : List (Nat × Begin)} {entry : Nat × Begin}
    (opened : Open events stack) (listed : entry ∈ stack) : entry.1 < (begins events).length := by
  obtain ⟨before, between, rfl, counted, -⟩ := (opened.mem_iff _ _).mp listed
  simp only [begins_append, begins_begun, List.length_append, List.length_cons]
  omega

/-- A begin that is open was open at all times since. -/
theorem Open.mem_since {past middle : List Occurrence} {stack inner : List (Nat × Begin)}
    {entry : Nat × Begin} (opened : Open past stack) (listed : entry ∈ stack)
    (before : middle <+: past) (opened' : Open middle inner)
    (late : entry.1 < (begins middle).length) : entry ∈ inner := by
  obtain ⟨early, between, rfl, counted, proper⟩ := (opened.mem_iff _ _).mp listed
  refine (opened'.mem_iff _ _).mpr ?_
  rcases prefix_append_cases before with ⟨rest, rfl⟩ | ⟨rest, rfl, begun⟩
  · rw [begins_append, List.length_append] at counted
    omega
  · cases rest with
    | nil => simp [counted] at late
    | cons first rest =>
      obtain ⟨rfl, inside⟩ := List.cons_prefix_cons.mp begun
      exact ⟨early, rest, rfl, counted, proper.of_prefix inside⟩

/-! ## Begins by number -/

/-- A begin has the number of begins before it. -/
theorem getElem?_begins {events past later : List Occurrence} {begun : Begin}
    (split : events = past ++ .begun begun :: later) :
    (begins events)[(begins past).length]? = some begun := by
  rw [split, begins_append, List.getElem?_append_right (Nat.le_refl _), Nat.sub_self]
  rfl

/-- Every begin has events before it and after it. -/
theorem exists_split {events : List Occurrence} {index : Nat}
    (inside : index < (begins events).length) :
    ∃ past begun later, events = past ++ .begun begun :: later ∧ (begins past).length = index := by
  induction events generalizing index with
  | nil => contradiction
  | cons event events ih =>
    cases event with
    | ended kind =>
      obtain ⟨past, begun, later, rfl, counted⟩ := ih inside
      exact ⟨.ended kind :: past, begun, later, rfl, counted⟩
    | begun begun =>
      cases index with
      | zero => exact ⟨[], begun, events, rfl, rfl⟩
      | succ index =>
        obtain ⟨past, other, later, rfl, counted⟩ := ih (Nat.lt_of_succ_lt_succ inside)
        exact ⟨.begun begun :: past, other, later, rfl, congrArg (· + 1) counted⟩

/-- A prefix with fewer begins is a prefix of one with more. -/
theorem prefix_of_begins_lt {events past later : List Occurrence} (early : past <+: events)
    (late : later <+: events) (fewer : (begins past).length < (begins later).length) :
    past <+: later := by
  rcases List.prefix_or_prefix_of_prefix early late with inside | ⟨rest, rfl⟩
  · exact inside
  · rw [begins_append, List.length_append] at fewer
    omega

/-- The number of a begin tells the events before it. -/
theorem eq_of_begins_eq {past past' later later' : List Occurrence} {begun begun' : Begin}
    (same : past ++ .begun begun :: later = past' ++ .begun begun' :: later')
    (counted : (begins past).length = (begins past').length) : past = past' := by
  rcases List.append_eq_append_iff.mp same with ⟨inside, rfl, split⟩ | ⟨inside, rfl, split⟩
  · cases inside with
    | nil => exact (List.append_nil past).symm
    | cons first inside =>
      obtain ⟨rfl, -⟩ := List.cons.inj split
      simp at counted
  · cases inside with
    | nil => exact List.append_nil past'
    | cons first inside =>
      obtain ⟨rfl, -⟩ := List.cons.inj split
      simp at counted

/-- Proper events leave begins open before each of theirs. -/
theorem Proper.exists_enclosing {events : List Occurrence} (proper : Proper events) :
    ∃ enclosing : Nat → List (Nat × Begin), ∀ past begun later,
      events = past ++ .begun begun :: later → Open past (enclosing (begins past).length) := by
  have each : ∀ index, ∃ stack, ∀ past begun later, events = past ++ .begun begun :: later →
      (begins past).length = index → Open past stack := by
    intro index
    by_cases inside : index < (begins events).length
    · obtain ⟨past, begun, later, split, rfl⟩ := exists_split inside
      obtain ⟨stack, opened⟩ := (proper.of_prefix ⟨_, split.symm⟩).exists_open
      refine ⟨stack, fun past' begun' later' split' counted => ?_⟩
      rwa [eq_of_begins_eq (split'.symm.trans split) counted]
    · refine ⟨[], fun past begun later split counted => absurd ?_ inside⟩
      simp [split, ← counted]
  choose enclosing opened using each
  exact ⟨enclosing, fun past begun later split => opened _ past begun later split rfl⟩

end Retrace.Templight
