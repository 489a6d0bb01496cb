import Retrace.Proofs.Filtering

/-!
# Filters before and after steps

A filter and a step commute when the step enters no event that the filter disables. The search of
the step asks in each frame for the first enabled event after the one it left there. With fewer
events enabled the answer can only be a later event or none, so it is the same one as long as that
event is still enabled (`Walk.advance_of_narrows`), whatever was disabled before it in the lists or
in the frames already left. The main statement is `iterate_step_disableIf`.
-/
namespace Retrace

/-- A search that accepts less finds the same if it accepts what was found. -/
theorem find?_of_narrower {numbers : List Nat} {wide narrow : Nat → Bool}
    (less : ∀ number, narrow number = true → wide number = true)
    (kept : ∀ number, numbers.find? wide = some number → narrow number = wide number) :
    numbers.find? narrow = numbers.find? wide := by
  induction numbers with
  | nil => rfl
  | cons first rest ih =>
    cases accepted : wide first with
    | true =>
      have same := kept first (List.find?_cons_of_pos accepted)
      rw [List.find?_cons_of_pos accepted, List.find?_cons_of_pos (same.trans accepted)]
    | false =>
      have refused : ¬ narrow first = true := fun found => by
        rw [less first found] at accepted
        contradiction
      have accepted : ¬ wide first = true := by simp [accepted]
      rw [List.find?_cons_of_neg accepted] at kept ⊢
      rw [List.find?_cons_of_neg refused]
      exact ih kept

namespace Walk

variable {graph narrower : Graph} (narrows : graph.Narrows narrower)
include narrows

/-- The next event of a frame is the same in a narrower graph that keeps its mark. -/
theorem nextEvent?_of_narrows (walk : Walk) (frame : Frame) (resume : Option EventId)
    (kept : ∀ event, walk.nextEvent? graph frame resume = some event →
      narrower.isEnabled event = graph.isEnabled event) :
    walk.nextEvent? narrower frame resume = walk.nextEvent? graph frame resume := by
  have leaf : walk.isLeaf narrower frame = walk.isLeaf graph frame := by
    cases frame <;> simp [isLeaf, narrows.target_eq]
  have entity : frame.entity narrower = frame.entity graph := by
    cases frame <;> simp [Frame.entity, narrows.target_eq]
  have listed (other : EntityId) : narrower.outgoing other = graph.outgoing other := by
    simp [Graph.outgoing, narrows.entities_eq]
  rw [nextEvent?, nextEvent?, leaf, entity]
  rw [nextEvent?] at kept
  split
  · rfl
  · rename_i isOpen
    rw [if_neg isOpen] at kept
    simp only [nextEnabled?, listed]
    exact find?_of_narrower narrows.isEnabled_of kept

/-- The search of a move is the same in a narrower graph that keeps the mark of the event found. -/
theorem backtrack_of_narrows (walk : Walk) (resume : Option EventId) (stack : List Frame)
    (kept : ∀ event stay, (walk.backtrack graph resume stack).2 = some (event, stay) →
      narrower.isEnabled event = graph.isEnabled event) :
    walk.backtrack narrower resume stack = walk.backtrack graph resume stack := by
  induction stack generalizing resume with
  | nil => rfl
  | cons frame below ih =>
    cases found : walk.nextEvent? graph frame resume with
    | some event =>
      have same := walk.nextEvent?_of_narrows narrows frame resume fun other next => by
        obtain rfl := Option.some.inj (found.symm.trans next)
        exact kept event (frame :: below) (by simp [backtrack, found])
      simp [backtrack, same, found]
    | none =>
      have same := walk.nextEvent?_of_narrows narrows frame resume fun other next => by
        rw [found] at next
        contradiction
      have rest := ih frame.event? fun event stay next =>
        kept event stay (by simpa [backtrack, found] using next)
      simp [backtrack, same, found, rest]

/-- A move is the same in a narrower graph that keeps the mark of the event it enters. -/
theorem advance_of_narrows (walk : Walk)
    (kept : ∀ event, (walk.advance graph).1.currentEvent? = some event →
      narrower.isEnabled event = graph.isEnabled event) :
    walk.advance narrower = walk.advance graph := by
  have same := walk.backtrack_of_narrows narrows none walk.stack fun event stay found =>
    kept event (by
      cases searched : walk.backtrack graph none walk.stack with
      | mk popped next =>
        obtain rfl : next = some (event, stay) := by simpa [searched] using found
        simp [advance, searched, currentEvent?, Frame.event?])
  simp only [advance, same, narrows.target_eq]

end Walk

namespace Session

/-! ## Events entered by steps -/

/-- The event in which a session stands after a step is one that was entered. -/
theorem mem_entered_step {session : Session} {event : EventId}
    (stands : session.step.currentEvent? = some event) : event ∈ session.step.entered := by
  cases finished : session.isFinished with
  | true =>
    have stack : session.walk.stack = [] := List.isEmpty_iff.mp finished
    simp [step, finished, currentEvent?, Walk.currentEvent?, stack] at stands
  | false =>
    rw [entered_step finished, stands]
    simp

/-- Steps forget no event that was entered. -/
theorem entered_iterate_step_subset (session : Session) (count : Nat) :
    session.entered ⊆ (step^[count] session).entered := by
  induction count with
  | zero => exact List.Subset.refl _
  | succ count ih =>
    rw [Function.iterate_succ_apply']
    cases finished : (step^[count] session).isFinished with
    | true =>
      rw [step, finished]
      exact ih
    | false =>
      rw [entered_step finished]
      exact List.subset_append_of_subset_left _ ih

/-! ## One step and many -/

/-- A filter commutes with a step that enters no event that the filter disables. -/
theorem step_disableIf {session : Session} {condition : Graph → EventId → Bool}
    (spared : ∀ event, session.step.currentEvent? = some event →
      condition session.graph event = false) :
    session.step.disableIf condition =
      ((session.disableIf condition).1.step, (session.disableIf condition).2) := by
  have same : (session.disableIf condition).1.isFinished = session.isFinished := rfl
  cases finished : session.isFinished with
  | true => simp [step, same, finished]
  | false =>
    have moved := session.walk.advance_of_narrows (session.narrows_disableIf condition)
      fun event entered => by
        rw [← walk_step finished] at entered
        exact (session.graph.isEnabled_disableIf condition event).trans
          (by simp [spared event entered])
    have advanced : session.walk.advance (session.graph.disableIf condition).1 =
        session.walk.advance session.graph := moved
    have unfinished := same.trans finished
    rw [step, step, finished, unfinished]
    simp only [disableIf, advanced, Bool.false_eq_true, if_false]

/-- A filter commutes with steps that enter no events that the filter disables. -/
theorem iterate_disableIf {session : Session} {condition : Graph → EventId → Bool} {count : Nat}
    (spared : ∀ event ∈ (step^[count] session).entered, condition session.graph event = false) :
    (step^[count] session).disableIf condition =
      (step^[count] (session.disableIf condition).1, (session.disableIf condition).2) := by
  induction count with
  | zero => rfl
  | succ count ih =>
    rw [Function.iterate_succ_apply'] at spared ⊢
    have before := ih fun event entered =>
      spared event (entered_iterate_step_subset (step^[count] session) 1 entered)
    have last : ∀ event, (step (step^[count] session)).currentEvent? = some event →
        condition (step^[count] session).graph event = false := fun event stands => by
      rw [graph_iterate_step]
      exact spared event (mem_entered_step stands)
    rw [step_disableIf last, before, Function.iterate_succ_apply']

/-- From the start of the walk through any graph, taking any number of steps and then disabling the
events of which a condition holds is disabling them first and then taking the steps, provided that
the condition holds of no event that the steps enter. Graph, walk and log are the same, and so is
the number of events disabled. -/
theorem iterate_step_disableIf (graph : Graph) (result : String) (count : Nat)
    (condition : Graph → EventId → Bool)
    (spared : ∀ event ∈ (step^[count] (ofGraph graph result)).entered,
      condition graph event = false) :
    (step^[count] (ofGraph graph result)).disableIf condition =
      (step^[count] ((ofGraph graph result).disableIf condition).1,
        ((ofGraph graph result).disableIf condition).2) :=
  iterate_disableIf spared

/-- Both events that the steps leave for later are disabled, and the step after them ends the walk
instead of entering one of them. -/
theorem iterate_step_disableIf_ahead :
    let graph := ((((((((Graph.empty.addEntity "root").addEntity "a").addEntity "b").addEntity
      "c").addEntity "d").addEvent 0 1 .templateInstantiation none).addEvent 0 2
        .templateInstantiation none).addEvent 1 3 .templateInstantiation none).addEvent 1 4
          .templateInstantiation none
    let start := ofGraph graph "int"
    let condition : Graph → EventId → Bool := fun _ event => event == 1 || event == 3
    (∀ event ∈ (step^[2] start).entered, condition graph event = false) ∧
      (step^[2] start).entered = [0, 2] ∧ (step^[3] start).currentEvent? = some 3 ∧
      ((step^[2] start).disableIf condition).1.step.isFinished = true ∧
      (step^[2] start).disableIf condition =
        (step^[2] (start.disableIf condition).1, (start.disableIf condition).2) := by
  intro graph start condition
  have entered : (step^[2] start).entered = [0, 2] := by decide
  have spared : ∀ event ∈ (step^[2] start).entered, condition graph event = false := by
    rw [entered]
    decide
  exact ⟨spared, entered, by decide, by decide,
    iterate_step_disableIf graph "int" 2 condition spared⟩

end Session

end Retrace
