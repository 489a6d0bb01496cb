import Retrace.Pane.Details
import Retrace.Screen

/-!
# Long lines

In running text on a plain screen, a line that is too long for its row goes on in the next one. It
is broken cell by cell: while it is, the rows that are full, the row in the making, the blanks after
it and the word after these hold every cell so far but blanks at which a row has ended, and none of
them is too long (`Wrapping.Breaks`). So a line keeps what there is to read in it, in rows of any
width but zero (`Wrapping.rowsOf_spec`), and so does every line of the event pane
(`Pane.solid_drawEvent`).
-/
namespace Retrace

namespace Wrapping

/-- Every cell so far, in order. -/
def cells (wrapping : Wrapping) : Row :=
  wrapping.rows.reverse.flatten ++ wrapping.row ++ wrapping.gap ++ wrapping.word

/-- The cells at which no row may end. -/
def solid (cells : Row) : Row := cells.filter fun cell => !breaksAt cell.char

/-- The solid cells of two rows. -/
theorem solid_append (left right : Row) : solid (left ++ right) = solid left ++ solid right :=
  List.filter_append ..

/-- Blanks are not solid. -/
theorem solid_of_blank {cells : Row} (blank : ∀ cell ∈ cells, breaksAt cell.char = true) :
    solid cells = [] :=
  List.filter_eq_nil_iff.mpr fun cell inside => by simp [blank cell inside]

/-- The solid cells of rows are those of each. -/
theorem solid_flatten (rows : List Row) : solid rows.flatten = (rows.map solid).flatten :=
  List.filter_flatten ..

/-! ### Lines that are half broken -/

/-- What holds while a line is broken into rows of a width: the gap is all blanks, no row is too
long, and no cell is lost but blanks. -/
structure Breaks (wrapping : Wrapping) (width : Nat) (line : Row) : Prop where
  /-- The gap is all blanks. -/
  gap_blank : ∀ cell ∈ wrapping.gap, breaksAt cell.char = true
  /-- The full rows fit. -/
  rows_fit : ∀ row ∈ wrapping.rows, row.length ≤ width
  /-- What comes after them fits into a row. -/
  length_le : wrapping.length ≤ width
  /-- No cell is lost but blanks. -/
  solid_eq : solid wrapping.cells = solid line

/-- Settling joins the word to its row, or changes nothing where the row is started or has room. -/
theorem settle_cases (width : Nat) (blank : Bool) (wrapping : Wrapping) :
    wrapping.settle width blank = wrapping.join ∨
      wrapping.settle width blank = wrapping ∧
        (wrapping.row ≠ [] ∨ wrapping.length < width) := by
  unfold settle
  extract_lets ended long
  by_cases joins : (ended || long) = true
  · exact .inl (if_pos joins)
  · refine .inr ⟨if_neg joins, ?_⟩
    have short : long = false := (Bool.or_eq_false_iff.mp (Bool.eq_false_iff.mpr joins)).2
    rcases Bool.and_eq_false_iff.mp short with started | room
    · exact .inl (by simpa using started)
    · exact .inr (by simpa using room)

/-- A row that is settled and still full has something in it. -/
theorem row_settle_ne_nil {width : Nat} (room : 0 < width) (blank : Bool) {wrapping : Wrapping}
    (full : width ≤ (wrapping.settle width blank).length) :
    (wrapping.settle width blank).row ≠ [] := by
  rcases settle_cases width blank wrapping with joined | ⟨same, started | short⟩
  · rw [joined] at full ⊢
    intro empty
    have nothing : wrapping.join.length = 0 := by
      rw [length, empty]
      rfl
    omega
  · rwa [same]
  · rw [same] at full
    omega

/-- A cell that is added counts. -/
theorem length_append (wrapping : Wrapping) (cell : Cell) :
    (wrapping.append cell).length = wrapping.length + 1 := by
  unfold append length
  split <;> simp only [List.length_append, List.length_singleton] <;> omega

/-- Of the solid cells, one that is added is the last. -/
theorem solid_cells_append (wrapping : Wrapping) (cell : Cell) :
    solid (wrapping.append cell).cells = solid wrapping.cells ++ solid [cell] := by
  unfold append
  split
  · have none : solid [cell] = [] := solid_of_blank (by simpa)
    simp only [cells, solid_append, none, List.append_nil]
  · simp only [cells, solid_append, List.append_assoc]

namespace Breaks

variable {width : Nat} {wrapping : Wrapping} {line : Row}

/-- A word may join its row at any time. -/
theorem join (breaks : wrapping.Breaks width line) : wrapping.join.Breaks width line where
  gap_blank := by simp [Wrapping.join]
  rows_fit := breaks.rows_fit
  length_le := by simpa [Wrapping.join, length, Nat.add_assoc] using breaks.length_le
  solid_eq := by
    rw [← breaks.solid_eq]
    simp [Wrapping.join, cells]

/-- So a row may be settled. -/
theorem settle (breaks : wrapping.Breaks width line) (blank : Bool) :
    (wrapping.settle width blank).Breaks width line := by
  rcases settle_cases width blank wrapping with joined | ⟨same, _⟩
  · rw [joined]
    exact breaks.join
  · rwa [same]

/-- A cell may be added where there is room for it. -/
theorem append (breaks : wrapping.Breaks width line) (room : wrapping.length < width)
    (cell : Cell) : (wrapping.append cell).Breaks width (line ++ [cell]) where
  gap_blank := by
    unfold Wrapping.append
    split
    · exact List.forall_mem_append.mpr ⟨breaks.gap_blank, by simpa⟩
    · exact breaks.gap_blank
  rows_fit := by
    unfold Wrapping.append
    split <;> exact breaks.rows_fit
  length_le := by
    rw [length_append]
    exact room
  solid_eq := by rw [solid_cells_append, breaks.solid_eq, solid_append]

/-- After a full row there is room in the next one. -/
theorem turn (breaks : wrapping.Breaks width line) (full : width ≤ wrapping.length)
    (started : wrapping.row ≠ []) :
    (wrapping.turn width).Breaks width line ∧ (wrapping.turn width).length < width := by
  have exact : wrapping.length = width := Nat.le_antisymm breaks.length_le full
  rw [length] at exact
  have some : 0 < wrapping.row.length := List.length_pos_iff.mpr started
  have gone : wrapping.gap.drop (width - wrapping.row.length) = [] :=
    List.drop_eq_nil_of_le (by omega)
  have turned : wrapping.turn width =
      { rows := wrapping.row :: wrapping.rows, word := wrapping.word } :=
    congrArg (Wrapping.mk _ _ · _) gone
  have short : (wrapping.turn width).length < width := by
    simp only [turned, length, List.length_nil]
    omega
  refine ⟨⟨?_, ?_, Nat.le_of_lt short, ?_⟩, short⟩
  · simp [turned]
  · rw [turned]
    exact List.forall_mem_cons.mpr ⟨by omega, breaks.rows_fit⟩
  · rw [← breaks.solid_eq, turned]
    simp [cells, solid_append, solid_of_blank breaks.gap_blank]

/-- One more cell keeps what holds. -/
theorem next (breaks : wrapping.Breaks width line) (room : 0 < width) (cell : Cell) :
    (wrapping.next width cell).Breaks width (line ++ [cell]) := by
  have settled := breaks.settle (breaksAt cell.char)
  rw [Wrapping.next]
  rcases Nat.lt_or_ge (wrapping.settle width (breaksAt cell.char)).length width with fits | full
  · rw [if_pos fits]
    exact settled.append fits cell
  · rw [if_neg (Nat.not_lt.mpr full)]
    obtain ⟨turned, short⟩ := settled.turn full (row_settle_ne_nil room _ full)
    dsimp only
    split
    · rename_i left
      have blank : breaksAt cell.char = true := (Bool.and_eq_true_iff.mp left).1
      have none : solid [cell] = [] := solid_of_blank (by simpa using blank)
      refine ⟨turned.gap_blank, turned.rows_fit, turned.length_le, ?_⟩
      rw [turned.solid_eq, solid_append, none, List.append_nil]
    · exact turned.append short cell

/-- So it holds of every line. -/
theorem foldl (breaks : wrapping.Breaks width line) (room : 0 < width) (rest : Row) :
    (rest.foldl (Wrapping.next width) wrapping).Breaks width (line ++ rest) := by
  induction rest generalizing wrapping line with
  | nil => rwa [List.append_nil]
  | cons cell rest ih =>
    rw [List.foldl_cons, List.append_cons]
    exact ih (breaks.next room cell)

end Breaks

/-! ### Lines that are over -/

/-- The rows of a line that is over hold its cells. -/
theorem flatten_finish (wrapping : Wrapping) : wrapping.finish.flatten = wrapping.cells := by
  unfold finish
  extract_lets blank rows last
  have before : rows.reverse.flatten = wrapping.rows.reverse.flatten := by
    dsimp only [rows]
    split
    · simp
    · rfl
  have all : wrapping.cells = wrapping.rows.reverse.flatten ++ last := by
    simp [cells, last, join]
  split
  · rename_i short
    have none : last = [] := List.isEmpty_iff.mp (Bool.and_eq_true_iff.mp short).1
    rw [before, all, none, List.append_nil]
  · rw [List.reverse_cons, List.flatten_append, before, all, List.flatten_singleton]

/-- A row of a line that is over is empty, was full, or is the last one. -/
theorem eq_of_mem_finish {wrapping : Wrapping} {row : Row} (listed : row ∈ wrapping.finish) :
    row = [] ∨ row ∈ wrapping.rows ∨ row = wrapping.join.row := by
  unfold finish at listed
  extract_lets blank rows last at listed
  have earlier (inside : row ∈ rows) : row = [] ∨ row ∈ wrapping.rows := by
    dsimp only [rows] at inside
    split at inside
    · exact List.mem_cons.mp inside
    · exact .inr inside
  rw [List.mem_reverse] at listed
  split at listed
  · exact (earlier listed).imp_right .inl
  · rcases List.mem_cons.mp listed with rfl | inside
    · exact .inr (.inr rfl)
    · exact (earlier inside).imp_right .inl

/-- A line broken into rows of a width keeps in them, in order, all its cells but blanks, and no row
is too long. -/
theorem rowsOf_spec {width : Nat} (room : 0 < width) (line : Row) :
    (∀ row ∈ rowsOf width line, row.length ≤ width) ∧
      solid (rowsOf width line).flatten = solid line := by
  have start : ({} : Wrapping).Breaks width [] := ⟨by simp, by simp, Nat.zero_le _, rfl⟩
  have breaks := start.foldl room line
  refine ⟨fun row listed => ?_, ?_⟩
  · rcases eq_of_mem_finish listed with rfl | full | rfl
    · exact Nat.zero_le _
    · exact breaks.rows_fit row full
    · have joined := breaks.join.length_le
      rw [length] at joined
      omega
  · rw [rowsOf, flatten_finish]
    exact breaks.solid_eq

end Wrapping

/-! ## Paragraphs -/

namespace Row

/-- What fills a row is not solid if its filler is not. -/
theorem solid_uniform (width : Nat) {filler : Cell}
    (blank : Wrapping.breaksAt filler.char = true) :
    Wrapping.solid (uniform width filler) = [] :=
  Wrapping.solid_of_blank fun cell inside => by rwa [List.eq_of_mem_replicate inside]

/-- A row that is not too long is fitted by fillers alone. -/
theorem solid_fit {width : Nat} {filler : Cell} (blank : Wrapping.breaksAt filler.char = true)
    {row : Row} (fits : row.length ≤ width) :
    Wrapping.solid (fitLeft width filler row) = Wrapping.solid row ∧
      Wrapping.solid (fitRight width filler row) = Wrapping.solid row := by
  have exact : row.length + (width - row.length) ≤ width := by omega
  constructor
  · rw [fitLeft, List.take_of_length_le (by rwa [List.length_append, length_uniform]),
      Wrapping.solid_append, solid_uniform _ blank, List.append_nil]
  · rw [fitRight, List.take_of_length_le (by
        rwa [List.length_append, length_uniform, Nat.add_comm]),
      Wrapping.solid_append, solid_uniform _ blank, List.nil_append]

end Row

/-- A paragraph of which the lines go on in the next row loses no visible character in rows of a
width. -/
theorem Paragraph.solid_rows {paragraph : Paragraph} (wrapped : paragraph.wrapped = true)
    {width : Nat} (room : 0 < width) :
    Wrapping.solid (paragraph.rows width).flatten =
      Wrapping.solid (paragraph.lines.flatMap (Line.cells paragraph.ground)) := by
  simp only [rows, wrapped, if_true]
  induction paragraph.lines with
  | nil => rfl
  | cons line lines ih =>
    obtain ⟨fits, kept⟩ := Wrapping.rowsOf_spec room (line.cells paragraph.ground)
    let filler := Cell.blank (paragraph.ground.overlay line.ground)
    have blank : Wrapping.breaksAt filler.char = true := rfl
    let broken := Wrapping.rowsOf width (line.cells paragraph.ground)
    let fit := if paragraph.toRight then Row.fitRight width filler else Row.fitLeft width filler
    have fitted : Wrapping.solid (broken.map fit).flatten = Wrapping.solid broken.flatten := by
      rw [Wrapping.solid_flatten, Wrapping.solid_flatten, List.map_map]
      refine congrArg List.flatten (List.map_congr_left fun row listed => ?_)
      obtain ⟨left, right⟩ := Row.solid_fit blank (fits row listed)
      dsimp only [Function.comp_apply, fit]
      split
      · exact right
      · exact left
    rw [List.flatMap_cons, List.flatMap_cons, List.flatten_append, Wrapping.solid_append,
      Wrapping.solid_append, ih, ← kept, ← fitted]

/-- In the event pane on a plain screen, nothing that there is to read is cut at the right border if
there is room for a column of text: the rows of its paragraph hold every visible character of its
lines. -/
theorem Pane.solid_drawEvent (session : Session) (focused : Bool) {width : Nat} (room : 3 < width)
    (height : Nat) :
    ∃ (details : Paragraph) (box : Box),
      drawEvent session focused width height = ⟨.paragraph details, width, height⟩ ∧
        details.box = some box ∧
        Wrapping.solid (details.rows (box.room width)).flatten =
          Wrapping.solid ((detailLines session).flatMap (Line.cells .plain)) := by
  refine ⟨_, _, rfl, rfl, Paragraph.solid_rows rfl ?_⟩
  dsimp only [Box.room]
  omega

end Retrace
