import Mathlib.Data.List.Induction
import Retrace.Proofs.Bookkeeping
import Retrace.Proofs.Trimming
import Retrace.Viewer.Input

/-!
# The filter prompt

While the prompt is open every key is for its text, and time passes without effect, as the walk does
not play. The slash opens the prompt and switches playing off, and no key switches it on while the
prompt is open (`prompt_apply_of_open`). So what an input does to a viewer with an open prompt is to
edit the text and to draw (`apply_ask`), and so do all the inputs up to the one that closes the
prompt (`run_ask`). The main statement is `prompt_run`.
-/
namespace Retrace

/-! ## Fragments -/

namespace Text

/-- A fragment is found where it stands, whatever is around it. -/
theorem occursIn_iff (fragment text : List Char) :
    occursIn fragment text = true ↔ fragment <:+: text := by
  induction text with
  | nil => simp [occursIn]
  | cons char chars ih =>
    rw [occursIn, Bool.or_eq_true, List.isPrefixOf_iff_prefix, ih, List.infix_cons_iff]

end Text

/-! ## Filters by name -/

/-- Disabling events changes no entity. -/
theorem Graph.disable_eq (graph : Graph) (events : List EventId) :
    graph.disable events = { graph with events := (graph.disable events).events } := by
  rw [← (graph.sameShape_disable events).entities_eq]

namespace Session

/-- `later` is `session` with exactly those of the enabled events disabled whose target has a name
that contains the fragment; there were `count` of them. -/
structure DisablesTo (session later : Session) (fragment : List Char) (count : Nat) : Prop where
  /-- Nothing is changed but the events of the graph. -/
  session_eq : later =
    { session with graph := { session.graph with events := later.graph.events } }
  /-- Of an event, nothing is changed but its mark. -/
  getElem?_events : ∀ event : EventId, later.graph.events[event]? =
    session.graph.events[event]?.map fun found =>
      { found with enabled := later.graph.isEnabled event }
  /-- The events that are still enabled. -/
  isEnabled_iff : ∀ event, later.graph.isEnabled event = true ↔
    session.graph.isEnabled event = true ∧
      ¬ fragment <:+: (session.graph.name (session.graph.target event)).toList
  /-- The number of the events that are enabled no more. -/
  count_eq : ∃ disabled : List EventId, disabled.Nodup ∧ disabled.length = count ∧
    ∀ event, event ∈ disabled ↔ session.graph.isEnabled event = true ∧
      fragment <:+: (session.graph.name (session.graph.target event)).toList

/-- Disabling by a fragment disables the events whose target has a name that contains it. -/
theorem disablesTo (session : Session) (fragment : String) :
    session.DisablesTo (session.disableTo fragment).1 fragment.toList
      (session.disableTo fragment).2 := by
  let condition := fun graph event => (Filter.targetContains fragment).holds graph event
  have holds (event : EventId) : condition session.graph event = true ↔
      fragment.toList <:+: (session.graph.name (session.graph.target event)).toList := by
    rw [← Text.occursIn_iff]
    rfl
  have marks (event : EventId) : (session.disableTo fragment).1.graph.isEnabled event =
      (session.graph.isEnabled event && !condition session.graph event) :=
    session.graph.isEnabled_disableIf condition event
  refine ⟨?_, fun event => ?_, fun event => ?_, session.graph.matching condition, ?_, rfl, ?_⟩
  · exact congrArg (fun graph => { session with graph }) (session.graph.disable_eq _)
  · rw [marks]
    refine (session.graph.getElem?_disableIf condition event).trans ?_
    refine Option.map_congr fun found present => ?_
    simp [Graph.isEnabled, present]
  · rw [marks, Bool.and_eq_true, Bool.not_eq_true', ← holds, Bool.not_eq_true]
  · exact List.nodup_range.filter _
  · intro event
    simp only [Graph.matching, List.mem_filter, List.mem_range, Bool.and_eq_true, holds]
    exact ⟨And.right, fun marked => ⟨Graph.lt_of_isEnabled marked.1, marked⟩⟩

end Session

namespace Viewer

/-! ## Typing -/

/-- Whether an input closes an open prompt. -/
def Input.closesPrompt : Input → Bool
  | .press .escape _ => true
  | .press .enter _ => true
  | _ => false

/-- Whether an input is a key or the passing of time. -/
def Input.isOwn : Input → Bool
  | .disableIf _ => false
  | _ => true

/-- The text of an open prompt after an input. -/
def typeInput (text : List Char) : Input → List Char
  | .press (.char char) _ => text ++ [char]
  | .press .backspace _ => text.dropLast
  | _ => text

/-- What inputs type: their characters, without those that a backspace took back. -/
def typed (inputs : List Input) : List Char := inputs.foldl typeInput []

/-- The size at which an input draws the viewer. -/
def Input.size? : Input → Option Size
  | .draw size => some size
  | .pass size _ => some size
  | _ => none

/-- The viewer after it was drawn at some sizes. -/
def redraw (viewer : Viewer) (sizes : List Size) : Viewer :=
  sizes.foldl (fun viewer size => (viewer.draw size).1) viewer

/-- The viewer with an open prompt. -/
def ask (viewer : Viewer) (text : List Char) : Viewer :=
  { viewer with playing := false, prompt := some (String.ofList text) }

/-- Drawing changes how far the lists are scrolled, and the cache. -/
theorem redraw_eq (viewer : Viewer) (sizes : List Size) :
    viewer.redraw sizes = { viewer with
      backtraceScroll := (viewer.redraw sizes).backtraceScroll
      forwardScroll := (viewer.redraw sizes).forwardScroll
      cache := (viewer.redraw sizes).cache } := by
  induction sizes generalizing viewer with
  | nil => rfl
  | cons size sizes ih => exact ih (viewer.draw size).1

/-- A character is typed behind the others. -/
theorem push_ofList (text : List Char) (char : Char) :
    (String.ofList text).push char = String.ofList (text ++ [char]) := by
  rw [String.push_eq_append, String.ofList_append, String.singleton_eq_ofList]

/-- An input edits the text of an open prompt and draws. -/
theorem apply_ask (viewer : Viewer) (text : List Char) {input : Input}
    (stays : input.closesPrompt = false) (own : input.isOwn = true) :
    ((viewer.ask text).apply input).1 =
      (viewer.redraw input.size?.toList).ask (typeInput text input) := by
  cases input with
  | press key held =>
    cases key with
    | char char =>
      exact congrArg (fun text => { viewer with playing := false, prompt := some text })
        (push_ofList text char)
    | backspace =>
      exact congrArg (fun text : List Char => viewer.ask text.dropLast) String.toList_ofList
    | enter => contradiction
    | escape => contradiction
    | _ => rfl
  | draw size => rfl
  | pass size due => simp [apply, pass, draw, ask, typeInput, Input.size?, redraw]
  | disableIf condition => contradiction

/-- So do inputs one after another. -/
theorem run_ask (viewer : Viewer) (text : List Char) {inputs : List Input}
    (stays : ∀ input ∈ inputs, input.closesPrompt = false)
    (own : ∀ input ∈ inputs, input.isOwn = true) :
    (viewer.ask text).run inputs =
      (viewer.redraw (inputs.filterMap Input.size?)).ask (inputs.foldl typeInput text) := by
  induction inputs generalizing viewer text with
  | nil => rfl
  | cons input rest ih =>
    obtain ⟨stay, stays⟩ := List.forall_mem_cons.mp stays
    obtain ⟨mine, own⟩ := List.forall_mem_cons.mp own
    rw [run, List.foldl_cons, ← run, apply_ask viewer text stay mine, ih _ _ stays own]
    congr 1
    cases drawn : input.size? with
    | none => simp [drawn, redraw]
    | some size => simp [drawn, redraw]

/-! ## Opening -/

/-- The slash opens a closed prompt. -/
theorem press_slash {viewer : Viewer} (closed : viewer.prompt = none) (held : Bool) :
    viewer.press (.char '/') held = viewer.ask [] := by
  simp [press, closed, command, pressChar, stopPlaying, ask]

/-- A step leaves the prompt. -/
theorem prompt_stepForward (viewer : Viewer) : viewer.stepForward.prompt = viewer.prompt := by
  rw [stepForward]
  split <;> rfl

/-- A step back leaves the prompt. -/
theorem prompt_stepBackward (viewer : Viewer) : viewer.stepBackward.prompt = viewer.prompt := by
  rw [stepBackward]
  split <;> rfl

/-- Scrolling leaves the prompt. -/
theorem prompt_scroll (viewer : Viewer) (change : Nat → Nat) :
    (viewer.scroll change).prompt = viewer.prompt := by
  rw [scroll]
  split <;> rfl

/-- No other key does. -/
theorem prompt_press {viewer : Viewer} (closed : viewer.prompt = none) {key : Key}
    (other : key ≠ .char '/') (held : Bool) : (viewer.press key held).prompt = none := by
  rw [press, closed]
  cases key with
  | char char =>
    have char_ne : char ≠ '/' := fun same => other (congrArg Key.char same)
    simp only [command, pressChar, char_ne, if_false]
    split_ifs
    · exact closed
    · exact closed
    · exact (prompt_stepBackward _).trans closed
    · exact (prompt_stepForward _).trans closed
    all_goals exact closed
  | left => exact (prompt_stepBackward _).trans closed
  | right => exact (prompt_stepForward _).trans closed
  | up => exact (prompt_scroll _ _).trans closed
  | down => exact (prompt_scroll _ _).trans closed
  | _ => exact closed

/-- Playing a step leaves the prompt alone. -/
theorem prompt_play (viewer : Viewer) : viewer.play.prompt = viewer.prompt := by
  rw [play]
  split <;> rfl

/-- A closed prompt stays closed unless the input is a slash. -/
theorem apply_of_closed {viewer : Viewer} (closed : viewer.prompt = none) (input : Input) :
    (viewer.apply input).1.prompt = none ∨
      ∃ held, input = .press (.char '/') held := by
  cases input with
  | press key held =>
    by_cases slash : key = .char '/'
    · subst slash
      exact .inr ⟨held, rfl⟩
    · exact .inl (prompt_press closed slash held)
  | draw size => exact .inl closed
  | pass size due =>
    refine .inl ?_
    simp only [apply, pass]
    split_ifs
    · rw [prompt_play]
      exact closed
    · exact closed
  | disableIf condition => exact .inl closed

/-- Submitting a text closes the prompt, and leaves the playing alone. -/
theorem submit_closes (viewer : Viewer) (text : String) :
    (viewer.submit text).prompt = none ∧ (viewer.submit text).playing = viewer.playing := by
  rw [submit]
  split_ifs <;> exact ⟨rfl, rfl⟩

/-- What an input does to an open prompt: the keys that close it do, and any other input edits its
text. No input switches playing on. -/
theorem apply_of_open {viewer : Viewer} {text : List Char}
    (isOpen : viewer.prompt = some (String.ofList text)) (quiet : viewer.playing = false)
    (input : Input) :
    (viewer.apply input).1.prompt =
        (if input.closesPrompt then none else some (String.ofList (typeInput text input))) ∧
      (viewer.apply input).1.playing = false := by
  cases input with
  | press key held =>
    simp only [apply, press, isOpen]
    cases key with
    | char char => exact ⟨congrArg some (push_ofList text char), quiet⟩
    | backspace =>
      exact ⟨congrArg (fun text : List Char => some (String.ofList text.dropLast))
        String.toList_ofList, quiet⟩
    | escape => exact ⟨rfl, quiet⟩
    | enter =>
      obtain ⟨closed, same⟩ := viewer.submit_closes (String.ofList text)
      exact ⟨closed, same.trans quiet⟩
    | _ => exact ⟨isOpen, quiet⟩
  | draw size => exact ⟨isOpen, quiet⟩
  | pass size due =>
    simp only [apply, pass, draw, quiet, Bool.and_false, Bool.false_and, Bool.false_eq_true,
      if_false]
    exact ⟨isOpen, trivial⟩
  | disableIf condition => exact ⟨isOpen, quiet⟩

/-! ## Runs -/

/-- Of the inputs of a viewer, those `before` a slash that opened the prompt and those `since`, none
of which closed it. -/
structure Opened (session : Session) (inputs before : List Input) (held : Bool)
    (since : List Input) : Prop where
  /-- The slash stands between them. -/
  split : inputs = before ++ .press (.char '/') held :: since
  /-- The slash found the prompt closed. -/
  closed : ((new session).run before).prompt = none
  /-- Nothing closed it again. -/
  stays : ∀ input ∈ since, input.closesPrompt = false

variable {session : Session} {inputs before since : List Input} {held : Bool}

/-- The last input comes last. -/
theorem run_concat (viewer : Viewer) (inputs : List Input) (input : Input) :
    viewer.run (inputs ++ [input]) = ((viewer.run inputs).apply input).1 := by
  rw [run, List.foldl_append]
  rfl

/-- With the slash, the inputs since are those of a viewer with an empty prompt. -/
theorem Opened.run_eq (opened : Opened session inputs before held since) :
    (new session).run inputs = (((new session).run before).ask []).run since := by
  rw [opened.split, run, List.foldl_append, List.foldl_cons]
  exact congrArg (run · since) (press_slash opened.closed held)

/-- One more input leaves the prompt open. -/
theorem Opened.snoc (opened : Opened session inputs before held since) {input : Input}
    (stays : input.closesPrompt = false) :
    Opened session (inputs ++ [input]) before held (since ++ [input]) where
  split := by rw [opened.split, List.append_assoc, List.cons_append]
  closed := opened.closed
  stays := by
    simp only [List.mem_append, List.mem_singleton]
    rintro other (earlier | rfl)
    · exact opened.stays other earlier
    · exact stays

/-- An open prompt holds what was typed, and the viewer does not play. -/
theorem Opened.prompt_eq (opened : Opened session inputs before held since) :
    ((new session).run inputs).prompt = some (String.ofList (typed since)) ∧
      ((new session).run inputs).playing = false := by
  rw [opened.run_eq]
  have stays := opened.stays
  clear opened
  induction since using List.reverseRecOn with
  | nil => exact ⟨rfl, rfl⟩
  | append_singleton since input ih =>
    obtain ⟨isOpen, quiet⟩ := ih fun other earlier => stays other (by simp [earlier])
    have step := apply_of_open isOpen quiet input
    rw [stays input (by simp), if_neg Bool.false_ne_true] at step
    rw [run_concat, typed, List.foldl_append]
    exact step

/-- When the prompt is open, a slash has opened it. -/
theorem exists_opened {text : String} (isOpen : ((new session).run inputs).prompt = some text) :
    ∃ before held since, Opened session inputs before held since := by
  induction inputs using List.reverseRecOn generalizing text with
  | nil => contradiction
  | append_singleton inputs input ih =>
    rw [run_concat] at isOpen
    cases earlier : ((new session).run inputs).prompt with
    | none =>
      rcases apply_of_closed earlier input with closed | ⟨held, rfl⟩
      · rw [closed] at isOpen
        contradiction
      · exact ⟨inputs, held, [], rfl, earlier, by simp⟩
    | some old =>
      obtain ⟨before, held, since, opened⟩ := ih earlier
      obtain ⟨prompt, quiet⟩ := opened.prompt_eq
      have step := (apply_of_open prompt quiet input).1
      cases closes : input.closesPrompt with
      | true =>
        rw [step, closes, if_pos rfl] at isOpen
        contradiction
      | false => exact ⟨before, held, since ++ [input], opened.snoc closes⟩

/-! ## Closing -/

/-- A blank text filters nothing. -/
theorem submit_of_blank (viewer : Viewer) {text : String}
    (blank : ∀ char ∈ text.toList, Text.isBlank char = true) :
    viewer.submit text = { viewer with prompt := none, message := "Filter cancelled" } := by
  rw [submit, (Text.trim_eq_nil_iff text.toList).mpr blank]
  rfl

/-- Any other text disables the events whose target has a name that contains it, trimmed. -/
theorem submit_of_visible (viewer : Viewer) {text : String}
    (visible : ∃ char ∈ text.toList, Text.isBlank char = false) :
    ∃ later fragment count, Text.Trimmed text.toList fragment ∧
      viewer.session.DisablesTo later fragment count ∧
      viewer.submit text = { viewer with
        session := later, prompt := none
        message := "Disabled " ++ toString count ++ " event(s) matching \"" ++
          String.ofList fragment ++ "\"" } := by
  have fragment_ne : Text.trim text.toList ≠ [] := by
    intro empty
    obtain ⟨char, within, not_blank⟩ := visible
    rw [(Text.trim_eq_nil_iff text.toList).mp empty char within] at not_blank
    contradiction
  have filters : (String.ofList (Text.trim text.toList)).isEmpty = false := by
    simp [fragment_ne]
  have disables := viewer.session.disablesTo (String.ofList (Text.trim text.toList))
  rw [String.toList_ofList] at disables
  refine ⟨_, _, _, Text.trimmed_trim text.toList, disables, ?_⟩
  simp only [submit, filters, Bool.false_eq_true, if_false]
  rfl

/-- Whatever is done with a viewer, its prompt is open when a slash opened it and nothing closed it
since, and holds what was typed since. Until then the keys and the passing of time have changed
nothing but the text, and as far as they draw how far the lists are scrolled, and the viewer does
not play. The prompt is closed without a filter, or with one that disables exactly the events whose
target has a name that contains the text, trimmed. -/
theorem prompt_run (session : Session) (inputs : List Input) :
    let viewer := (new session).run inputs
    (∀ text, viewer.prompt = some text ↔ ∃ before held since,
      Opened session inputs before held since ∧ text = String.ofList (typed since)) ∧
    (∀ before held since, Opened session inputs before held since →
      (∀ input ∈ since, input.isOwn = true) →
      let opened := (new session).run before
      let drawn := opened.redraw (since.filterMap Input.size?)
      viewer = { opened with
        playing := false, prompt := some (String.ofList (typed since))
        backtraceScroll := drawn.backtraceScroll, forwardScroll := drawn.forwardScroll
        cache := drawn.cache }) ∧
    (∀ text, viewer.prompt = some text → viewer.playing = false ∧ ∀ held,
      let cancelled := { viewer with prompt := none, message := "Filter cancelled" }
      viewer.press .escape held = cancelled ∧
      ((∀ char ∈ text.toList, Text.isBlank char = true) →
        viewer.press .enter held = cancelled) ∧
      ((∃ char ∈ text.toList, Text.isBlank char = false) → ∃ later fragment count,
        Text.Trimmed text.toList fragment ∧ viewer.session.DisablesTo later fragment count ∧
        viewer.press .enter held = { viewer with
          session := later, prompt := none
          message := "Disabled " ++ toString count ++ " event(s) matching \"" ++
            String.ofList fragment ++ "\"" })) := by
  intro viewer
  refine ⟨fun text => ⟨fun isOpen => ?_, ?_⟩, fun before held since opened own => ?_,
    fun text isOpen => ⟨?_, fun held => ⟨?_, fun blank => ?_, fun visible => ?_⟩⟩⟩
  · obtain ⟨before, held, since, opened⟩ := exists_opened isOpen
    have prompt := opened.prompt_eq.1
    rw [isOpen, Option.some.injEq] at prompt
    exact ⟨before, held, since, opened, prompt⟩
  · rintro ⟨before, held, since, opened, rfl⟩
    exact opened.prompt_eq.1
  · have edited := run_ask ((new session).run before) [] opened.stays own
    rw [← opened.run_eq, redraw_eq] at edited
    exact edited
  · obtain ⟨before, held, since, opened⟩ := exists_opened isOpen
    exact opened.prompt_eq.2
  · rw [press, isOpen]
    rfl
  · rw [press, isOpen]
    exact viewer.submit_of_blank blank
  · rw [press, isOpen]
    exact viewer.submit_of_visible visible

/-- A letter typed too much is taken back before the filter is submitted. -/
example :
    let session := ((Session.new "R" "").addEntity "int_").addEvent 0 1 .memoization none
    let keys := [Key.char '/', .char 'i', .char 'n', .char 'x', .backspace, .char ' ', .enter]
    ((new session).run (keys.map (Input.press · false))).message =
      "Disabled 1 event(s) matching \"in\"" := by
  decide +kernel

end Viewer

end Retrace
