import Retrace.Pane.Details
import Retrace.Pane.Traces
import Retrace.Proofs.Checked.Forward

/-!
# Panes with checked access

A pane looks up the parts of the events that it shows and makes the lines of its window only. The
window never starts after the last line, whatever offset is asked for (`window_eq`), and it holds a
page of the list or all that is left of it, so that drawing the window is drawing the list
(`drawWindow_eq`).

All checks of the three panes succeed for a reachable session, where the forward pane is given a
cache whose lines are about events of the graph: `drawBacktrace_eq`, `drawForward_eq` and
`drawEvent_eq`.
-/
namespace Retrace.Checked

/-! ## Windows -/

/-- Making the items of a list from a place on is taking them out of the list. -/
theorem mapM_range' {α : Type} {item : Nat → Option α} {list : List α}
    (same : ∀ place < list.length, item place = list[place]?) {start count : Nat}
    (inside : start + count ≤ list.length) :
    (List.range' start count).mapM item = some ((list.drop start).take count) := by
  induction count generalizing start with
  | zero => simp
  | succ count ih =>
    have bound : start < list.length := by omega
    have next : start + 1 + count ≤ list.length := by omega
    rw [List.range'_succ, List.mapM_cons, same start bound, List.getElem?_eq_getElem bound, ih next,
      List.drop_eq_getElem_cons bound, List.take_succ_cons]
    rfl

/-- When every item is made, the whole list is. -/
theorem mapM_eq_map {α β : Type} {item : α → Option β} {made : α → β} {list : List α}
    (same : ∀ first ∈ list, item first = some (made first)) :
    list.mapM item = some (list.map made) := by
  induction list with
  | nil => rfl
  | cons first rest ih =>
    obtain ⟨here, later⟩ := List.forall_mem_cons.mp same
    rw [List.mapM_cons, here, ih later]
    rfl

/-- The first line of a window of a list, and the line after its last one. -/
def window (total page offset : Nat) : Option (Nat × Nat) := do
  let start ← if page < total then (sub total page).map (min offset) else some 0
  some (start, min (start + page) total)

/-- A window of a list in a box. -/
def drawWindow (box : Box) (width height total : Nat) (item : Nat → Option Line)
    (offset : Nat) : Option Pane.Drawing := do
  let (start, stop) ← window total (Pane.page height) offset
  let lines ← (List.range' start (stop - start)).mapM item
  some ⟨⟨.list box lines, width, height⟩, start⟩

/-- A window starts at the clamped offset and holds a page, or what is left of the list. -/
theorem window_eq (total page offset : Nat) : window total page offset =
    some (Pane.clampOffset total page offset,
      min (Pane.clampOffset total page offset + page) total) := by
  rw [window, Pane.clampOffset]
  by_cases long : page < total
  · simp [long, sub, Nat.le_of_lt long]
  · have short : total - page = 0 := Nat.sub_eq_zero_of_le (Nat.le_of_not_lt long)
    simp [long, short]

/-- Drawing the window of a list is drawing the list. -/
theorem drawWindow_eq (box : Box) (width height : Nat) {lines : List Line}
    {item : Nat → Option Line} (same : ∀ place < lines.length, item place = lines[place]?)
    (offset : Nat) : drawWindow box width height lines.length item offset =
      some (Pane.drawList box width height lines offset) := by
  let start := Pane.clampOffset lines.length (Pane.page height) offset
  let stop := min (start + Pane.page height) lines.length
  have within : start ≤ lines.length := by
    simp only [start, Pane.clampOffset]
    omega
  have inside : start + (stop - start) ≤ lines.length := by
    simp only [stop]
    omega
  have page : (lines.drop start).take (stop - start) =
      (lines.drop start).take (Pane.page height) := by
    have size : stop - start = min (Pane.page height) (lines.drop start).length := by
      simp only [stop, List.length_drop]
      omega
    rw [size, ← List.take_take, List.take_length]
  have made := mapM_range' same inside
  rw [page] at made
  simp only [drawWindow, window_eq, Option.bind_eq_bind, Option.bind_some]
  rw [made]
  rfl

/-! ## Events -/

/-- An event by the name of its target and its kind. -/
def eventSpans (graph : Graph) (event : EventId) : Option (List Span) := do
  let found ← graph.events[event]?
  let name ← name graph found.target
  some [⟨name, Pane.nameStyle found.enabled⟩,
    ⟨" (" ++ found.kind.name ++ ")", Pane.kindStyle found.enabled⟩]

/-- The point of instantiation of an event, or a dash. -/
def locationText (graph : Graph) (event : EventId) : Option String := do
  let found ← graph.events[event]?
  some ((found.location.map (·.text)).getD "-")

/-- The name and the kind of an event of a well formed graph are found. -/
theorem eventSpans_eq {graph : Graph} (wellFormed : graph.WellFormed) {event : EventId}
    (inside : event < graph.numEvents) :
    eventSpans graph event = some (Pane.eventSpans graph event) := by
  have present := Array.getElem?_eq_getElem inside
  have named := name_eq (wellFormed.target_lt event inside)
  rw [Graph.target, present] at named
  simp only [Option.map_some, Option.getD_some] at named
  simp [eventSpans, Pane.eventSpans, Pane.kindText, Graph.isEnabled, Graph.target, present, named]

/-- The point of instantiation of an event of the graph is looked up. -/
theorem locationText_eq {graph : Graph} {event : EventId} (inside : event < graph.numEvents) :
    locationText graph event = some (Pane.locationText graph event) := by
  have present := Array.getElem?_eq_getElem inside
  simp [locationText, Pane.locationText, Graph.location?, present]

/-! ## The backtrace pane -/

/-- The line of a frame. -/
def frameLine (graph : Graph) (index : Nat) (event : EventId) : Option Line := do
  let _ ← eventSpans graph event
  let _ ← locationText graph event
  some (Pane.frameLine graph index event)

/-- The lines of the backtrace of a session. -/
def backtraceLines (session : Session) : Option (List Line) := do
  let trail := session.walk.trail
  let frames ← trail.zipIdx.mapM fun (event, index) => frameLine session.graph index event
  let _ ← name session.graph root
  some (frames ++ [Pane.rootLine session.graph trail.length])

/-- The backtrace pane. -/
def drawBacktrace (session : Session) (focused : Bool) (width height offset : Nat) :
    Option Pane.Drawing := do
  let lines ← backtraceLines session
  drawWindow (Pane.box (Pane.backtraceTitle session) focused) width height lines.length
    (lines[·]?) offset

/-- The events of the frames are events of the graph. -/
theorem Stable.trail_lt {session : Session} (stable : Stable session) :
    ∀ event ∈ session.walk.trail, event < session.graph.numEvents := by
  intro event listed
  obtain ⟨frame, stacked, entered⟩ := List.mem_filterMap.mp listed
  cases frame with
  | root => contradiction
  | via other => exact Option.some.inj entered ▸ stable.stacked other stacked

/-- All checks of the backtrace pane succeed. -/
theorem drawBacktrace_eq {session : Session} (stable : Stable session) (focused : Bool)
    (width height offset : Nat) : drawBacktrace session focused width height offset =
      some (Pane.drawBacktrace session focused width height offset) := by
  have frames : (session.walk.trail.zipIdx.mapM fun (event, index) =>
      frameLine session.graph index event) =
      some (session.walk.trail.mapIdx (Pane.frameLine session.graph)) := by
    rw [List.mapIdx_eq_zipIdx_map]
    refine mapM_eq_map fun (event, index) listed => ?_
    have inside := stable.trail_lt event (List.fst_mem_of_mem_zipIdx listed)
    simp [frameLine, eventSpans_eq stable.wellFormed inside, locationText_eq inside]
  have lines : backtraceLines session = some (Pane.backtraceLines session) := by
    simp [backtraceLines, Pane.backtraceLines, frames, name_eq stable.rooted, root]
  simp only [drawBacktrace, lines, Option.bind_eq_bind, Option.bind_some]
  exact drawWindow_eq _ _ _ (fun _ _ => rfl) offset

/-! ## The forward trace pane -/

/-- A line of the forward trace of an entity: the entity itself, or a line of the trace. -/
def forwardItem (session : Session) (entity : EntityId) (lines : List ForwardLine) :
    Nat → Option Line
  | 0 => do
    let name ← name session.graph entity
    some (.ofText name { foreground := some Palette.entity, bold := true })
  | index + 1 => do
    let line ← lines[index]?
    let target ← target session.graph line.event
    let _ ← sub line.depth 1
    let _ ← eventSpans session.graph line.event
    let _ ← session.walk.discovered[target]?
    some (Pane.forwardLine session line)

/-- The forward trace pane and the cache after drawing it. -/
def drawForward (session : Session) (cache : ForwardCache) (focused : Bool)
    (width height offset : Nat) : Option (Pane.Drawing × ForwardCache) := do
  let entity ← currentEntity session
  if session.isFinished then
    some (⟨Pane.drawFinished focused width height, offset⟩, cache)
  else
    let cache ← refresh cache session
    let drawing ← drawWindow (Pane.box Pane.forwardTitle focused) width height
      (cache.lines.length + 1) (forwardItem session entity cache.lines) offset
    some (drawing, cache)

/-- A line of the forward pane is made with every check passed. -/
theorem forwardItem_eq {session : Session} (reachable : session.Reachable)
    {lines : List ForwardLine} (listable : ∀ line ∈ lines, Listable session.graph line)
    {place : Nat} (inside : place < (Pane.forwardLines session lines).length) :
    forwardItem session session.currentEntity lines place =
      (Pane.forwardLines session lines)[place]? := by
  have settled := stable reachable
  cases place with
  | zero => simp [forwardItem, name_eq reachable.currentEntity_lt, Pane.forwardLines]
  | succ index =>
    have bound : index < lines.length := by simpa [Pane.forwardLines] using inside
    obtain ⟨event_lt, depth_pos⟩ := listable lines[index] (List.getElem_mem bound)
    have marked : session.graph.target lines[index].event < session.walk.discovered.size :=
      settled.fits.discovered_size ▸ settled.wellFormed.target_lt _ event_lt
    simp [forwardItem, Pane.forwardLines, bound, target_eq event_lt, sub, depth_pos,
      eventSpans_eq settled.wellFormed event_lt, Array.getElem?_eq_getElem marked]

/-- All checks of the forward pane succeed, with a cache of lines about events of the graph. -/
theorem drawForward_eq {session : Session} (reachable : session.Reachable)
    {cache : ForwardCache} (listable : ∀ line ∈ cache.lines, Listable session.graph line)
    (focused : Bool) (width height offset : Nat) :
    drawForward session cache focused width height offset =
      some (Pane.drawForward session cache focused width height offset) := by
  have settled := stable reachable
  simp only [drawForward, currentEntity_eq settled, Option.bind_eq_bind, Option.bind_some,
    Pane.drawForward]
  split
  · rfl
  · have later := listable_refresh reachable listable
    have drawn := drawWindow_eq (Pane.box Pane.forwardTitle focused) width height
      (fun place inside => forwardItem_eq reachable later inside) offset
    rw [show (Pane.forwardLines session (cache.refresh session).lines).length =
      (cache.refresh session).lines.length + 1 by simp [Pane.forwardLines]] at drawn
    simp [refresh_eq reachable, drawn]

/-! ## The event pane -/

/-- The event pane. -/
def drawEvent (session : Session) (focused : Bool) (width height : Nat) : Option Panel :=
  match session.currentEvent? with
  | none => some (Pane.drawEvent session focused width height)
  | some event => do
    let target ← target session.graph event
    let _ ← name session.graph target
    let source ← source session.graph event
    let _ ← name session.graph source
    let _ ← locationText session.graph event
    some (Pane.drawEvent session focused width height)

/-- All checks of the event pane succeed. -/
theorem drawEvent_eq {session : Session} (reachable : session.Reachable) (focused : Bool)
    (width height : Nat) : drawEvent session focused width height =
      some (Pane.drawEvent session focused width height) := by
  have wellFormed := (stable reachable).wellFormed
  rw [drawEvent]
  cases current : session.currentEvent? with
  | none => rfl
  | some event =>
    have inside := reachable.currentEvent?_lt current
    simp [target_eq inside, source_eq inside, name_eq (wellFormed.target_lt event inside),
      name_eq (wellFormed.source_lt event inside), locationText_eq inside]

end Retrace.Checked
