import Retrace.Proofs.Viewing

/-!
# Where the lists are scrolled to

A key that moves the walk scrolls both lists to their starts, where the current frame is. A walk
that plays by itself is moved too, but then the lists stay where they were drawn: below the start,
if they were scrolled there before and are longer than their panes. The main statement is
`Viewer.scroll_of_moved`.
-/
namespace Retrace

/-- The backtrace has a line for each frame. -/
theorem Pane.length_backtraceLines (session : Session) :
    (backtraceLines session).length = session.depth + 1 := by
  simp [backtraceLines, Session.depth]

/-- The forward trace has a line for the current entity and one for each event. -/
theorem Pane.length_forwardLines (session : Session) (trace : List ForwardLine) :
    (forwardLines session trace).length = trace.length + 1 := by
  simp [forwardLines]

namespace Viewer

/-- A key that moves the walk scrolls both lists to their starts. -/
theorem Response.scroll_eq_zero {viewer later : Viewer} (response : viewer.Response later)
    (moved : later.session.walk ≠ viewer.session.walk) :
    later.backtraceScroll = 0 ∧ later.forwardScroll = 0 := by
  cases response with
  | stay same =>
    have session : later.session = viewer.session := congrArg Served.session same
    exact absurd (congrArg Session.walk session) moved
  | move command _ _ upper lower => exact ⟨upper, lower⟩
  | filter condition same =>
    have session : later.session = (viewer.session.disableIf condition).1 :=
      congrArg Served.session same
    exact absurd (congrArg Session.walk session) moved

/-- A pass that moves the walk plays a step. -/
theorem pass_of_moved {viewer : Viewer} {size : Size} {due : Bool}
    (moved : (viewer.pass size due).1.session.walk ≠ viewer.session.walk) :
    viewer.playing = true ∧ viewer.session.isFinished = false ∧
      (viewer.pass size due).1 =
        { (viewer.draw size).1 with session := viewer.session.step, message := "Playing..." } := by
  simp only [pass] at moved ⊢
  split at moved
  · rename_i ready
    have playing : viewer.playing = true := by
      simp only [Bool.and_eq_true] at ready
      exact ready.1.2
    cases finished : viewer.session.isFinished with
    | true =>
      refine absurd ?_ moved
      have same : (viewer.draw size).1.session.isFinished = true := finished
      rw [play, if_pos same]
      rfl
    | false =>
      have same : (viewer.draw size).1.session.isFinished = false := finished
      refine ⟨playing, rfl, ?_⟩
      rw [if_pos ready, play, same]
      rfl
  · exact absurd rfl moved

/-- Drawing keeps the window of the backtrace within its lines. -/
theorem backtraceScroll_draw (viewer : Viewer) (size : Size) :
    (viewer.draw size).1.backtraceScroll =
      Pane.clampOffset (viewer.session.depth + 1) (Pane.page (share 65 (size.height - 1)))
        viewer.backtraceScroll := by
  rw [← Pane.length_backtraceLines]
  rfl

/-- Before the walk is finished, drawing keeps the window of the forward trace within its lines. -/
theorem forwardScroll_draw {viewer : Viewer} (unfinished : viewer.session.isFinished = false)
    (size : Size) : (viewer.draw size).1.forwardScroll =
      Pane.clampOffset ((viewer.cache.refresh viewer.session).lines.length + 1)
        (Pane.page (size.height - 1)) viewer.forwardScroll := by
  rw [← Pane.length_forwardLines viewer.session]
  simp [draw, Pane.drawForward, unfinished, Pane.drawList]

/-- Whatever was done with a viewer, a key that moves the walk scrolls both lists to their starts. A
pass that moves the walk plays one step of it and leaves both lists where it drew them, from the
offsets on that they had, as far as that keeps their last pages full. -/
theorem scroll_of_moved {session : Session} (reachable : session.Reachable)
    (inputs : List Input) :
    let viewer := (new session).run inputs
    (∀ key held, let after := viewer.press key held
      after.session.walk ≠ viewer.session.walk →
        after.backtraceScroll = 0 ∧ after.forwardScroll = 0) ∧
    ∀ size due, let after := (viewer.pass size due).1
      after.session.walk ≠ viewer.session.walk →
        viewer.playing = true ∧ after.session = viewer.session.step ∧
        after.backtraceScroll = Pane.clampOffset (viewer.session.depth + 1)
          (Pane.page (share 65 (size.height - 1))) viewer.backtraceScroll ∧
        after.forwardScroll = Pane.clampOffset (viewer.session.forward.length + 1)
          (Pane.page (size.height - 1)) viewer.forwardScroll := by
  intro viewer
  constructor
  · intro key held after moved
    exact (viewer.response_press key held).scroll_eq_zero moved
  intro size due after moved
  obtain ⟨playing, unfinished, played⟩ := pass_of_moved moved
  have played : after =
      { (viewer.draw size).1 with session := viewer.session.step, message := "Playing..." } := played
  have lines := (lines_refresh reachable inputs).2
  refine ⟨playing, ?_, ?_, ?_⟩
  · rw [played]
  · rw [played]
    exact viewer.backtraceScroll_draw size
  · rw [played, ← lines]
    exact forwardScroll_draw unfinished size

/-- One step into a chain, with the forward trace scrolled by a line, a digit scrolls it to its
start. A pass that plays a step keeps it scrolled, unless it is drawn in a pane that holds it as a
whole. -/
theorem scroll_of_moved_forward :
    let commands : List Session.Command :=
      [.addEntity "a", .addEntity "b", .addEntity "c", .addEvent 0 1 .templateInstantiation none,
        .addEvent 1 2 .templateInstantiation none, .addEvent 2 3 .templateInstantiation none]
    let session := (Session.new "root" "int").run commands
    let inputs : List Input := [.press .right false, .press .tab false, .press .down false,
      .press (.char ' ') false]
    let viewer := (new session).run inputs
    session.Reachable ∧ viewer.forwardScroll = 1 ∧
      (viewer.press (.char '2') false).forwardScroll = 0 ∧
      (viewer.pass ⟨40, 5⟩ true).1.forwardScroll = 1 ∧
      (viewer.pass ⟨40, 9⟩ true).1.forwardScroll = 0 := by
  intro commands session inputs viewer
  have reachable : session.Reachable := ⟨"root", "int", commands, rfl⟩
  have scrolled : viewer.forwardScroll = 1 := by decide
  have lines : viewer.session.forward.length = 2 := by
    have graph : viewer.session.graph = session.graph := by decide
    have entity : viewer.session.currentEntity = 1 := by decide
    rw [Session.forward, graph, entity]
    cbv
  have jumped : (viewer.press (.char '2') false).session.walk ≠ viewer.session.walk := by
    decide +kernel
  have played (size : Size) : (viewer.pass size true).1.session.walk ≠ viewer.session.walk := by
    show viewer.session.step.walk ≠ viewer.session.walk
    decide +kernel
  obtain ⟨pressed, passed⟩ := scroll_of_moved reachable inputs
  have drawn (size : Size) := (passed size true (played size)).2.2.2
  rw [show (new session).run inputs = viewer from rfl, scrolled, lines] at drawn
  exact ⟨reachable, scrolled, (pressed _ false jumped).2, drawn ⟨40, 5⟩, drawn ⟨40, 9⟩⟩

/-- Three steps into a chain, with the backtrace scrolled by a line, a pass plays the fourth step
and leaves the backtrace scrolled, so that its pane begins with the second frame. -/
theorem not_scrolled_of_played :
    let commands : List Session.Command :=
      [.addEntity "a", .addEntity "b", .addEntity "c", .addEntity "d",
        .addEvent 0 1 .templateInstantiation none, .addEvent 1 2 .templateInstantiation none,
        .addEvent 2 3 .templateInstantiation none, .addEvent 3 4 .templateInstantiation none]
    let session := (Session.new "root" "int").run commands
    let inputs : List Input := [.press .right false, .press .right false, .press .right false,
      .press .down false, .press (.char ' ') false]
    let viewer := (new session).run inputs
    let after := (viewer.pass ⟨40, 9⟩ true).1
    session.Reachable ∧ after.session.walk ≠ viewer.session.walk ∧
      ¬ (after.backtraceScroll = 0 ∧ after.forwardScroll = 0) := by
  intro commands session inputs viewer after
  have reachable : session.Reachable := ⟨"root", "int", commands, rfl⟩
  have moved : after.session.walk ≠ viewer.session.walk := by decide +kernel
  have scrolled : after.backtraceScroll = 1 := by decide +kernel
  refine ⟨reachable, moved, fun starts => ?_⟩
  rw [scrolled] at starts
  exact absurd starts.1 (by decide)

end Viewer

end Retrace
