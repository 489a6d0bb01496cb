import Retrace.Proofs.Prompting
import Retrace.Proofs.Scrolling

/-!
# Walks that play by themselves

A pass that is due plays one step of a walk that plays by itself, or ends the playing when the walk
is finished (`Viewer.playOn`). So passes make of a viewer what `Viewer.played` says, up to what
drawing changes (`Viewer.redrawn_run_passes`), and when they have ended the playing, more of them
change nothing. The main statement, `Viewer.passes_play`, compares them with the key that goes to
the end of the walk at once.
-/
namespace Retrace

namespace Session

variable {session : Session} {left : Nat} (ends : session.EndsIn left)
include ends

/-- There is only one number of steps that are left. -/
theorem EndsIn.unique {other : Nat} (others : session.EndsIn other) : left = other := by
  rcases Nat.lt_trichotomy left other with less | same | more
  · have unfinished := others.unfinished left less
    rw [ends.finished] at unfinished
    contradiction
  · exact same
  · have unfinished := ends.unfinished other more
    rw [others.finished] at unfinished
    contradiction

/-- A walk is finished by as many steps as are left, and not by fewer. -/
theorem EndsIn.isFinished_iterate (count : Nat) :
    (step^[min count left] session).isFinished = decide (left ≤ count) := by
  by_cases less : count < left
  · rw [Nat.min_eq_left (Nat.le_of_lt less), ends.unfinished count less]
    simpa using less
  · have long : left ≤ count := Nat.le_of_not_lt less
    rw [Nat.min_eq_right long, ends.finished]
    simpa using long

/-- Until the walk is finished, every step adds its move to the log. -/
theorem EndsIn.steps_iterate {count : Nat} (few : count ≤ left) :
    (step^[count] session).steps = session.steps + count := by
  induction count with
  | zero => rfl
  | succ count ih =>
    have made := congrArg List.length (log_step (ends.unfinished count few))
    have earlier := ih (Nat.le_of_succ_le few)
    rw [List.length_cons] at made
    rw [Function.iterate_succ_apply']
    unfold steps at earlier ⊢
    omega

end Session

namespace Viewer

/-! ## Passes -/

/-- Passes at some sizes of the screen, each when the next step is due. -/
def passes (sizes : List Size) : List Input := sizes.map fun size => .pass size true

/-- One viewer is another up to what drawing changes: how far the lists are scrolled, and the
cache. -/
def Redrawn (viewer later : Viewer) : Prop :=
  ∃ backtraceScroll forwardScroll cache,
    later = { viewer with backtraceScroll, forwardScroll, cache }

/-- A viewer that plays goes on to play. -/
def playOn (viewer : Viewer) : Viewer := if viewer.playing then viewer.play else viewer

namespace Redrawn

variable {viewer later : Viewer} (redrawn : viewer.Redrawn later)
include redrawn

/-- Drawing leaves the session. -/
theorem session_eq : later.session = viewer.session := by
  obtain ⟨_, _, _, rfl⟩ := redrawn
  rfl

/-- Drawing neither starts nor ends the playing. -/
theorem playing_eq : later.playing = viewer.playing := by
  obtain ⟨_, _, _, rfl⟩ := redrawn
  rfl

/-- Drawing ends no viewer. -/
theorem quitting_eq : later.quitting = viewer.quitting := by
  obtain ⟨_, _, _, rfl⟩ := redrawn
  rfl

/-- A viewer that is drawn once more differs by drawings only. -/
theorem draw (size : Size) : viewer.Redrawn (later.draw size).1 := by
  obtain ⟨_, _, _, rfl⟩ := redrawn
  exact ⟨_, _, _, rfl⟩

/-- So it does after playing on. -/
theorem playOn : viewer.playOn.Redrawn later.playOn := by
  obtain ⟨_, _, _, rfl⟩ := redrawn
  unfold Viewer.playOn play
  dsimp only
  split_ifs <;> exact ⟨_, _, _, rfl⟩

end Redrawn

/-- A pass that is due draws the viewer and goes on to play. -/
theorem pass_due {viewer : Viewer} (going : viewer.quitting = false) (size : Size) :
    (viewer.pass size true).1 = (viewer.draw size).1.playOn := by
  have same : (viewer.draw size).1.quitting = false := going
  simp [pass, playOn, same]

/-- So does the last of several passes. -/
theorem run_passes_concat {viewer : Viewer} {sizes : List Size}
    (going : (viewer.run (passes sizes)).quitting = false) (size : Size) :
    viewer.run (passes (sizes ++ [size])) = ((viewer.run (passes sizes)).draw size).1.playOn := by
  rw [passes, List.map_append, ← passes]
  exact (run_concat viewer (passes sizes) _).trans (pass_due going size)

/-! ## Playing to the end -/

/-- The viewer after `count` passes, when its walk is finished in `left` steps, up to what drawing
changes. -/
def played (viewer : Viewer) (left count : Nat) : Viewer :=
  { viewer with
    session := Session.step^[min count left] viewer.session
    playing := decide (count ≤ left)
    message :=
      if count = 0 then viewer.message
      else if count ≤ left then "Playing..." else "Playback complete" }

/-- Passes take as many steps as there are passes, as long as some are left. -/
theorem session_played (viewer : Viewer) (left count : Nat) :
    (viewer.played left count).session = Session.step^[min count left] viewer.session := rfl

section

variable {viewer : Viewer} {left : Nat} (ends : viewer.session.EndsIn left)
include ends

/-- To go on to play is one pass more. -/
theorem playOn_played (count : Nat) :
    (viewer.played left count).playOn = viewer.played left (count + 1) := by
  have finished : (viewer.played left count).session.isFinished = decide (left ≤ count) :=
    ends.isFinished_iterate count
  rcases Nat.lt_trichotomy count left with less | rfl | more
  · have playing : (viewer.played left count).playing = true := decide_eq_true (by omega)
    rw [decide_eq_false (by omega)] at finished
    rw [playOn, if_pos playing, play, finished]
    simp [say, played, Function.iterate_succ_apply', Nat.le_of_lt less, Nat.succ_le_of_lt less]
  · have playing : (viewer.played count count).playing = true := decide_eq_true (Nat.le_refl _)
    rw [decide_eq_true (Nat.le_refl _)] at finished
    rw [playOn, if_pos playing, play, if_pos finished]
    simp [say, stopPlaying, played]
  · have quiet : ¬ (viewer.played left count).playing = true := by simpa [played] using more
    have same : min (count + 1) left = min count left := by omega
    have late : ¬ count + 1 ≤ left := by omega
    have some : count ≠ 0 := by omega
    rw [playOn, if_neg quiet]
    simp [played, same, late, some, Nat.not_le.mpr more]

variable (playing : viewer.playing = true) (going : viewer.quitting = false)
include playing going

/-- Passes make of a viewer that plays what they are said to make. -/
theorem redrawn_run_passes (sizes : List Size) :
    (viewer.played left sizes.length).Redrawn (viewer.run (passes sizes)) := by
  induction sizes using List.reverseRecOn with
  | nil =>
    refine ⟨viewer.backtraceScroll, viewer.forwardScroll, viewer.cache, ?_⟩
    simp [run, passes, played, ← playing]
  | append_singleton sizes size ih =>
    have next := (ih.draw size).playOn
    rw [playOn_played ends] at next
    rw [run_passes_concat (ih.quitting_eq.trans going), List.length_append]
    exact next

end

/-! ## After the end -/

/-- The backtrace of a finished walk is drawn from its start, as it holds the root only. -/
theorem backtraceScroll_draw_of_finished {viewer : Viewer}
    (finished : viewer.session.isFinished = true) (size : Size) :
    (viewer.draw size).1.backtraceScroll = 0 := by
  have none : viewer.session.depth = 0 := by
    have stack : viewer.session.walk.stack = [] := List.isEmpty_iff.mp finished
    simp [Session.depth, Walk.trail_eq, stack]
  rw [backtraceScroll_draw, none, Pane.clampOffset, Pane.page]
  omega

/-- Playing on scrolls nothing. -/
theorem backtraceScroll_playOn (viewer : Viewer) :
    viewer.playOn.backtraceScroll = viewer.backtraceScroll := by
  unfold playOn play
  split_ifs <;> rfl

/-- A pass changes nothing of a viewer that does not play, at the end of its walk, when the
backtrace was drawn there before. -/
theorem pass_of_finished {viewer : Viewer} (finished : viewer.session.isFinished = true)
    (quiet : viewer.playing = false) (start : viewer.backtraceScroll = 0) (size : Size)
    (due : Bool) : (viewer.pass size due).1 = viewer := by
  have drawn : (viewer.pass size due).1 = (viewer.draw size).1 := by
    have same : (viewer.draw size).1.playing = false := quiet
    simp [pass, same]
  have upper := backtraceScroll_draw_of_finished finished size
  have lower : (viewer.draw size).1.forwardScroll = viewer.forwardScroll := by
    simp [draw, Pane.drawForward, finished]
  have cache : (viewer.draw size).1.cache = viewer.cache := by
    simp [draw, Pane.drawForward, finished]
  have same := viewer.redraw_eq [size]
  rw [redraw, List.foldl_cons, List.foldl_nil, upper, lower, cache, ← start] at same
  exact drawn.trans same

/-- Neither do more passes. -/
theorem run_passes_of_finished {viewer : Viewer} (finished : viewer.session.isFinished = true)
    (quiet : viewer.playing = false) (start : viewer.backtraceScroll = 0) (sizes : List Size) :
    viewer.run (passes sizes) = viewer := by
  induction sizes with
  | nil => rfl
  | cons size rest ih =>
    have first := pass_of_finished finished quiet start size true
    exact (congrArg (run · (passes rest)) first).trans ih

section

variable {viewer : Viewer} {left : Nat} (ends : viewer.session.EndsIn left)
  (playing : viewer.playing = true) (going : viewer.quitting = false)
  {sizes : List Size} (beyond : left < sizes.length)
include ends playing going beyond

/-- When there were more passes than steps left, the walk is finished and does not play, and the
backtrace was drawn there. -/
theorem run_passes_over :
    let done := viewer.run (passes sizes)
    done.session = Session.step^[left] viewer.session ∧ done.playing = false ∧
      done.backtraceScroll = 0 := by
  intro done
  have redrawn := redrawn_run_passes ends playing going sizes
  have session : done.session = Session.step^[min sizes.length left] viewer.session :=
    redrawn.session_eq
  have quiet : done.playing = decide (sizes.length ≤ left) := redrawn.playing_eq
  rw [Nat.min_eq_right (Nat.le_of_lt beyond)] at session
  rw [decide_eq_false (Nat.not_le.mpr beyond)] at quiet
  refine ⟨session, quiet, ?_⟩
  rcases List.eq_nil_or_concat' sizes with rfl | ⟨earlier, size, rfl⟩
  · contradiction
  · have before := redrawn_run_passes ends playing going earlier
    have enough : left ≤ earlier.length := by
      rw [List.length_append] at beyond
      exact Nat.le_of_lt_succ beyond
    have finished : (viewer.run (passes earlier)).session.isFinished = true := by
      rw [before.session_eq]
      exact (ends.isFinished_iterate earlier.length).trans (decide_eq_true enough)
    have last := run_passes_concat (before.quitting_eq.trans going) size
    show (viewer.run (passes (earlier ++ [size]))).backtraceScroll = 0
    rw [last, backtraceScroll_playOn]
    exact backtraceScroll_draw_of_finished finished size

end

/-- The filter prompt of a viewer that plays is closed. -/
theorem prompt_of_playing {session : Session} {inputs : List Input}
    (playing : ((new session).run inputs).playing = true) :
    ((new session).run inputs).prompt = none := by
  cases isOpen : ((new session).run inputs).prompt with
  | none => rfl
  | some text =>
    obtain ⟨before, held, since, opened⟩ := exists_opened isOpen
    have quiet := opened.prompt_eq.2
    rw [playing] at quiet
    contradiction

/-- Whatever was done with a viewer, when it plays and is not to end, each pass that is due takes
one step until the walk is finished, and the next one ends the playing; up to what drawing changes,
the passes do nothing else. From then on more passes change nothing at all, and the session is the
one that the key to the end of the walk would have made at once. -/
theorem passes_play {session : Session} (reachable : session.Reachable) (inputs : List Input) :
    let viewer := (new session).run inputs
    viewer.playing = true → viewer.quitting = false →
      ∃ left, viewer.session.EndsIn left ∧ left ≤ viewer.session.graph.numEvents + 1 ∧
        (∀ count ≤ left,
          (Session.step^[count] viewer.session).steps = viewer.session.steps + count) ∧
        (∀ sizes, (viewer.played left sizes.length).Redrawn (viewer.run (passes sizes))) ∧
        ∀ sizes, left < sizes.length →
          (∀ more, viewer.run (passes (sizes ++ more)) = viewer.run (passes sizes)) ∧
          (left ≤ Text.maxWord → ∀ held,
            (viewer.run (passes sizes)).session = viewer.session.continueToEnd.1 ∧
              (viewer.press .enter held).session = viewer.session.continueToEnd.1) := by
  intro viewer playing going
  obtain ⟨past, traced⟩ := (lines_refresh reachable inputs).1.traced
  have ends : viewer.session.EndsIn viewer.session.stepsAhead := traced.run_ahead.1
  refine ⟨viewer.session.stepsAhead, ends, ?_, fun count few => ends.steps_iterate few,
    redrawn_run_passes ends playing going, fun sizes beyond => ?_⟩
  · have few : viewer.session.ahead.length ≤ viewer.session.graph.numEvents :=
      traced.nodup_ahead.2
    rw [Session.stepsAhead]
    split <;> omega
  obtain ⟨session, quiet, start⟩ := run_passes_over ends playing going beyond
  constructor
  · intro more
    have finished : (viewer.run (passes sizes)).session.isFinished = true := by
      rw [session]
      exact ends.finished
    have after := run_passes_of_finished finished quiet start more
    rw [passes, List.map_append, ← passes, ← passes, run, List.foldl_append]
    exact after
  · intro countable held
    have jump := ends.continueToEnd_eq countable
    have closed : viewer.prompt = none := prompt_of_playing playing
    refine ⟨session.trans (congrArg Prod.fst jump).symm, ?_⟩
    rw [press, closed]
    rfl

/-- With three steps left, three passes finish the walk, and it still plays. The fourth pass ends
the playing, where the key to the end of the walk would have led. -/
theorem passes_play_cyclic :
    let commands : List Session.Command :=
      [.addEntity "a", .addEntity "b", .addEvent 0 1 .templateInstantiation none,
        .addEvent 1 2 .memoization none, .addEvent 2 0 .nonTemplateType none]
    let session := (Session.new "root" "int").run commands
    let inputs : List Input := [.press .right false, .press .down false, .press (.char ' ') false]
    let viewer := (new session).run inputs
    let sizes : List Size := [⟨40, 9⟩, ⟨20, 4⟩, ⟨40, 9⟩]
    let played := viewer.run (passes sizes)
    let done := viewer.run (passes (sizes ++ [⟨0, 0⟩]))
    session.Reachable ∧ viewer.playing = true ∧ viewer.quitting = false ∧
      (played.playing = true ∧ played.session.isFinished = true ∧ played.session.steps = 4) ∧
      done.playing = false ∧ done.message = "Playback complete" ∧
      done.session = (viewer.press .enter false).session := by
  intro commands session inputs viewer sizes played done
  have reachable : session.Reachable := ⟨"root", "int", commands, rfl⟩
  have playing : viewer.playing = true := by decide +kernel
  have going : viewer.quitting = false := by decide +kernel
  have three : viewer.session.EndsIn 3 := ⟨by decide +kernel, by decide +kernel⟩
  obtain ⟨left, ends, -, made, redrawn, beyond⟩ := passes_play reachable inputs playing going
  obtain rfl : left = 3 := Session.EndsIn.unique ends three
  have now : (viewer.played 3 3).Redrawn played := redrawn sizes
  obtain ⟨_, _, _, after⟩ := redrawn (sizes ++ [⟨0, 0⟩])
  have same : played.session = Session.step^[3] viewer.session := by
    rw [now.session_eq, session_played, Nat.min_self]
  have before : viewer.session.steps = 1 := by decide +kernel
  have steps : (Session.step^[3] viewer.session).steps = 4 :=
    (made 3 (Nat.le_refl 3)).trans (congrArg (· + 3) before)
  refine ⟨reachable, playing, going, ⟨now.playing_eq, ?_, ?_⟩, congrArg Viewer.playing after,
    congrArg Viewer.message after, ?_⟩
  · rw [same]
    exact ends.finished
  · rw [same]
    exact steps
  · obtain ⟨jumped, pressed⟩ := (beyond (sizes ++ [⟨0, 0⟩]) (by decide)).2 (by decide) false
    exact jumped.trans pressed.symm

end Viewer

end Retrace
