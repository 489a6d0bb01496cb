import Retrace.Proofs.Adjacency

/-!
# Taking a move back

`Walk.undo` is the exact inverse of `Walk.advance`. Entities that were added after the move make no
difference: `Walk.growBy` appends their entries, all undiscovered and without a parent, and
`undo_advance` finds the former walk with the same entries appended.
-/
namespace Retrace.Walk

/-- Room for `count` more entities, undiscovered and without a parent. -/
def growBy (walk : Walk) (count : Nat) : Walk :=
  { walk with
    discovered := walk.discovered ++ Array.replicate count false
    parent := walk.parent ++ Array.replicate count none }

/-- Growing by nothing changes nothing. -/
@[simp] theorem growBy_zero (walk : Walk) : walk.growBy 0 = walk := by
  simp [growBy]

/-- Growing twice is growing by the sum. -/
@[simp] theorem growBy_growBy (walk : Walk) (first second : Nat) :
    (walk.growBy first).growBy second = walk.growBy (first + second) := by
  simp [growBy]

/-- Room for an added entity is growth by one. -/
theorem grow_eq_growBy (walk : Walk) : walk.grow = walk.growBy 1 := rfl

/-- Growing leaves the frames alone. -/
@[simp] theorem stack_growBy (walk : Walk) (count : Nat) : (walk.growBy count).stack = walk.stack :=
  rfl

/-- Growing discovers nothing. -/
@[simp] theorem isDiscovered_growBy (walk : Walk) (count : Nat) (entity : EntityId) :
    (walk.growBy count).isDiscovered entity = walk.isDiscovered entity := by
  simp only [isDiscovered, growBy, Array.getElem?_append, Array.getElem?_replicate]
  split
  · rfl
  · rename_i outside
    rw [Array.getElem?_eq_none (Nat.le_of_not_lt outside)]
    split <;> rfl

/-- Growing gives no entity a parent. -/
@[simp] theorem parentOf_growBy (walk : Walk) (count : Nat) (entity : EntityId) :
    (walk.growBy count).parentOf entity = walk.parentOf entity := by
  simp only [parentOf, growBy, Array.getElem?_append, Array.getElem?_replicate]
  split
  · rfl
  · rename_i outside
    rw [Array.getElem?_eq_none (Nat.le_of_not_lt outside)]
    split <;> rfl

/-- The start of a walk, grown, is the start of a walk through more entities. -/
@[simp] theorem growBy_start {numEntities : Nat} (nonempty : 0 < numEntities) (count : Nat) :
    (start numEntities).growBy count = start (numEntities + count) := by
  have inside : root < (Array.replicate numEntities false).size := by
    simpa [root] using nonempty
  simp only [start, growBy, ← Array.setIfInBounds_append_left inside]
  simp

/-- A walk has an entry for each entity of a graph. -/
structure Fits (walk : Walk) (graph : Graph) : Prop where
  /-- Each entity is marked as discovered or not. -/
  discovered_size : walk.discovered.size = graph.numEntities
  /-- Each entity has an entry for the event that discovered it. -/
  parent_size : walk.parent.size = graph.numEntities

/-- The start of a walk fits a graph of that size. -/
theorem fits_start (graph : Graph) : (start graph.numEntities).Fits graph :=
  ⟨by simp [start], by simp [start]⟩

/-- A walk that fits a graph fits a larger one after growing by the difference. -/
theorem Fits.growBy {walk : Walk} {graph larger : Graph} (fits : walk.Fits graph)
    (more : graph.numEntities ≤ larger.numEntities) :
    (walk.growBy (larger.numEntities - graph.numEntities)).Fits larger where
  discovered_size := by
    simp only [Walk.growBy, Array.size_append, Array.size_replicate, fits.discovered_size]
    omega
  parent_size := by
    simp only [Walk.growBy, Array.size_append, Array.size_replicate, fits.parent_size]
    omega

/-! ## The search of a move -/

/-- The frames left and the frames kept make up the stack. -/
theorem backtrack_append {walk : Walk} {graph : Graph} {resume : Option EventId}
    {stack popped : List Frame} {found : Option (EventId × List Frame)}
    (searched : walk.backtrack graph resume stack = (popped, found)) :
    popped ++ (found.map Prod.snd).getD [] = stack := by
  induction stack generalizing resume popped with
  | nil =>
    obtain ⟨rfl, rfl⟩ : [] = popped ∧ none = found := by simpa [backtrack] using searched
    rfl
  | cons frame below ih =>
    simp only [backtrack] at searched
    split at searched
    · obtain ⟨rfl, rfl⟩ := Prod.mk.inj searched
      rfl
    · obtain ⟨rfl, rfl⟩ := Prod.mk.inj searched
      have rest : walk.backtrack graph frame.event? below = (_, _) := rfl
      simpa using ih rest

/-- Only enabled events are entered. -/
theorem isEnabled_of_backtrack {walk : Walk} {graph : Graph} {resume : Option EventId}
    {stack popped stay : List Frame} {event : EventId}
    (searched : walk.backtrack graph resume stack = (popped, some (event, stay))) :
    graph.isEnabled event = true := by
  induction stack generalizing resume popped with
  | nil => simp [backtrack] at searched
  | cons frame below ih =>
    simp only [backtrack] at searched
    split at searched
    · rename_i found next
      obtain ⟨rfl, _⟩ : found = event ∧ _ := by simpa using (Prod.mk.inj searched).2
      simp only [nextEvent?] at next
      split at next
      · contradiction
      · exact List.find?_some next
    · obtain ⟨_, found⟩ := Prod.mk.inj searched
      exact ih (Prod.ext rfl found)

/-! ## The inverse -/

/-- Taking back a descent undoes it, whatever was added since. -/
theorem ascend_enter (walk : Walk) (event : EventId) {target : EntityId}
    (marked : target < walk.discovered.size) (noted : target < walk.parent.size) (count : Nat) :
    ((walk.enter event target).1.growBy count).ascend (walk.enter event target).2 =
      walk.growBy count := by
  by_cases known : walk.isDiscovered target = true
  · simp [enter, ascend, growBy, known]
  · have unmarked : walk.discovered[target] = false := by
      simpa [isDiscovered, Array.getElem?_eq_getElem marked] using known
    have parent : walk.parentOf target = walk.parent[target] := by
      simp [parentOf, Array.getElem?_eq_getElem noted]
    have unmark : (walk.discovered.setIfInBounds target true).setIfInBounds target false =
        walk.discovered := by
      rw [Array.setIfInBounds_setIfInBounds, Array.setIfInBounds_def, dif_pos marked]
      simp [← unmarked]
    have forget : (walk.parent.setIfInBounds target (some event)).setIfInBounds target
        (walk.parentOf target) = walk.parent := by
      rw [Array.setIfInBounds_setIfInBounds, parent, Array.setIfInBounds_def, dif_pos noted]
      simp
    simp only [enter, known, ascend, growBy, List.tail_cons, Bool.false_eq_true, if_false]
    rw [Array.setIfInBounds_append_left (by simpa using marked),
      Array.setIfInBounds_append_left (by simpa using noted), unmark, forget]

/-- Entering an event adds no entry. -/
theorem Fits.enter {walk : Walk} {graph : Graph} (fits : walk.Fits graph) (event : EventId)
    (target : EntityId) : (walk.enter event target).1.Fits graph := by
  obtain ⟨discovered, parent⟩ := fits
  by_cases known : walk.isDiscovered target = true
  · exact ⟨by simpa [Walk.enter, known] using discovered, by simpa [Walk.enter, known] using parent⟩
  · exact ⟨by simpa [Walk.enter, known] using discovered, by simpa [Walk.enter, known] using parent⟩

/-- A move adds no entry. -/
theorem Fits.advance {walk : Walk} {graph : Graph} (fits : walk.Fits graph) :
    (walk.advance graph).1.Fits graph := by
  simp only [Walk.advance]
  split
  · exact ⟨fits.discovered_size, fits.parent_size⟩
  · rename_i stay _
    have kept : ({ walk with stack := stay } : Walk).Fits graph :=
      ⟨fits.discovered_size, fits.parent_size⟩
    exact kept.enter _ _

/-- Taking back a move undoes it, whatever was added since: the entries of the entities that were
added stay. -/
theorem undo_advance {walk : Walk} {graph : Graph} (wellFormed : graph.WellFormed)
    (fits : walk.Fits graph) (count : Nat) :
    ((walk.advance graph).1.growBy count).undo (walk.advance graph).2 = walk.growBy count := by
  simp only [advance]
  split
  · rename_i popped searched
    have whole := backtrack_append searched
    simp only [Option.map_none, Option.getD_none, List.append_nil] at whole
    simp [undo, growBy, whole]
  · rename_i popped event stay searched
    have whole : popped ++ stay = walk.stack := by simpa using backtrack_append searched
    have inside : graph.target event < graph.numEntities :=
      wellFormed.target_lt event (Graph.lt_of_isEnabled (isEnabled_of_backtrack searched))
    have undone := ascend_enter { walk with stack := stay } event
      (by simpa [fits.discovered_size] using inside) (by simpa [fits.parent_size] using inside)
      count
    simp only [undo, Option.map_some, Option.getD_some, undone]
    simp [growBy, whole]

end Retrace.Walk
