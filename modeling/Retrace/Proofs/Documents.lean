import Retrace.Loader

/-!
# Beginnings and sizes of documents

Two facts about markup documents are all that the loading of traces asks of the library that reads
them (`Reader.Lawful`). Before the first angle bracket of a document there is nothing but a byte
order mark and spaces, so that the encoding of a trace is told by its first characters. And its
outermost element has no more elements in it than the text has characters.

The reader that nests items has both (`Reader.lawful_nesting`). For the second, an element takes a
closing tag of its own, and nesting turns every closing tag into one element at most.
-/
namespace Retrace.Markup

/-- What is known of a library that reads markup, by the grammar of documents: a document is an
optional byte order mark, then spaces, comments, declarations and elements, which all begin with an
angle bracket, and every element takes characters of its own. -/
structure Reader.Lawful (reader : Reader) : Prop where
  /-- A document that is read begins with spaces and an angle bracket, after a byte order mark if
  there is one. -/
  exists_front : ∀ {text : String} {element : Element}, reader.document? text = some element →
    ∃ mark spaces rest, text.toList = mark ++ spaces ++ '<' :: rest ∧
      (mark = [] ∨ mark = ['\uFEFF']) ∧ spaces.all isSpace = true
  /-- Its outermost element has no more elements directly inside it than the text has
  characters. -/
  length_children_le : ∀ {text : String} {element : Element},
    reader.document? text = some element → element.children.length ≤ text.length

/-! ## What a document begins with -/

/-- A space between the parts of a document is blank. -/
theorem isBlank_of_isSpace {char : Char} (space : isSpace char = true) :
    Text.isBlank char = true := by
  simp only [isSpace, Bool.or_eq_true, beq_iff_eq] at space
  rcases space with ((rfl | rfl) | rfl) | rfl <;> decide

/-- Items that are nested into an element are not all spaces, and none of the first ones is text
other than spaces. -/
theorem nest?_text_cons {raw : List Char} {items : List Item} {element : Element}
    (nested : nest? (.text raw :: items) = some element) :
    raw.all isSpace = true ∧ nest? items = some element := by
  rw [nest?, List.foldlM_cons] at nested
  by_cases spaces : raw.all isSpace = true
  · refine ⟨spaces, ?_⟩
    simpa [Nesting.item?, spaces, nest?] using nested
  · simp [Nesting.item?, spaces] at nested

/-- No items make no element. -/
theorem nest?_nil : nest? [] = none := rfl

/-- A text whose items are nested into an element begins with spaces and an angle bracket. -/
theorem exists_front_of_readItems {text : List Glyph} {items : List Item} {element : Element}
    (read : readItems text = some items) (nested : nest? items = some element) :
    ∃ front rest, text.map Placed.value = front ++ '<' :: rest ∧ front.all isSpace = true := by
  cases text with
  | nil =>
    rw [readItems] at read
    rw [← Option.some.inj read, nest?_nil] at nested
    contradiction
  | cons glyph text =>
    by_cases bracket : glyph.value = '<'
    · exact ⟨[], text.map Placed.value, by simp [bracket], rfl⟩
    · rw [readItems, if_neg bracket] at read
      dsimp only at read
      split at read
      · obtain ⟨others, rest, rfl⟩ := Option.map_eq_some_iff.mp read
        obtain ⟨spaces, nested⟩ := nest?_text_cons nested
        have split := List.takeWhile_append_dropWhile (p := fun glyph : Glyph => glyph.value != '<')
          (l := text)
        cases after : text.dropWhile fun glyph : Glyph => glyph.value != '<' with
        | nil =>
          rw [after, readItems] at rest
          rw [← Option.some.inj rest, nest?_nil] at nested
          contradiction
        | cons next more =>
          have stop := List.head?_dropWhile_not (fun glyph : Glyph => glyph.value != '<') text
          rw [after] at stop
          have found : next.value = '<' := by simpa using stop
          refine ⟨_, more.map Placed.value, ?_, spaces⟩
          have whole := congrArg (List.map Placed.value) split
          rw [after, List.map_append, List.map_cons, found] at whole
          rw [List.map_cons, ← whole]
          rfl
      · contradiction

/-- A literal that is read stands at the front of the text. -/
theorem map_value_of_dropLiteral {chars : List Char} {text rest : List Glyph}
    (dropped : dropLiteral chars text = some rest) :
    text.map Placed.value = chars ++ rest.map Placed.value := by
  fun_induction dropLiteral chars text with
  | case1 text =>
    rw [Option.some.inj dropped]
    rfl
  | case2 => contradiction
  | case3 chars glyph text ih =>
    rw [List.map_cons, ih dropped]
    rfl
  | case4 => contradiction

/-- A document that is read begins with spaces and an angle bracket, after a byte order mark if
there is one. -/
theorem exists_front {text : String} {element : Element} (read : document? text = some element) :
    ∃ front rest, (skipByteOrderMark (glyphs text)).map Placed.value = front ++ '<' :: rest ∧
      front.all isSpace = true := by
  obtain ⟨items, cut, nested⟩ := Option.bind_eq_some_iff.mp read
  rw [documentItems] at cut
  split at cut
  · exact exists_front_of_readItems cut nested
  · rename_i rest declared
    exact ⟨[], _, map_value_of_dropLiteral declared, rfl⟩

/-! ## How many elements a document has -/

/-- Whether an item is a closing tag. -/
def Item.isClosing : Item → Bool
  | closing _ => true
  | _ => false

/-- A tag or a note closes one element at most. -/
theorem countP_isClosing_readMarkup_le {position : Position} {text : List Glyph}
    {answer : List Item × List Glyph} (read : readMarkup position text = some answer) :
    answer.1.countP Item.isClosing ≤ 1 := by
  have single (item : Item) : [item].countP Item.isClosing ≤ 1 := List.countP_le_length
  unfold readMarkup at read
  split at read
  · simp only [readComment, Option.bind_eq_bind, Option.bind_eq_some_iff] at read
    obtain ⟨_, _, made⟩ := read
    split at made
    · contradiction
    · exact Option.some.inj made ▸ single _
  split at read
  · simp only [readLiteral, Option.bind_eq_bind, Option.bind_eq_some_iff] at read
    obtain ⟨_, _, made⟩ := read
    exact Option.some.inj made ▸ single _
  split at read
  · contradiction
  split at read
  · unfold readInstruction at read
    dsimp only at read
    split at read
    · simp only [Option.bind_eq_bind, Option.bind_eq_some_iff] at read
      obtain ⟨_, _, made⟩ := read
      exact Option.some.inj made ▸ single _
    · contradiction
  split at read
  · simp only [readClosing, Option.bind_eq_bind, Option.bind_eq_some_iff] at read
    obtain ⟨_, _, _, _, made⟩ := read
    exact Option.some.inj made ▸ single _
  · simp only [readOpening, Option.bind_eq_bind, Option.bind_eq_some_iff] at read
    obtain ⟨_, _, ⟨_, closed, _⟩, _, made⟩ := read
    rw [← Option.some.inj made]
    cases closed <;> simp [Item.isClosing]

/-- A text has no more closing tags than characters. -/
theorem countP_isClosing_readItems_le {text : List Glyph} {items : List Item}
    (read : readItems text = some items) : items.countP Item.isClosing ≤ text.length := by
  fun_induction readItems text generalizing items
  case case1 =>
    rw [← Option.some.inj read]
    simp
  case case2 => contradiction
  case case3 glyph text _ found rest first ih =>
    obtain ⟨others, later, rfl⟩ := Option.map_eq_some_iff.mp read
    have one := countP_isClosing_readMarkup_le first
    have shorter := length_readMarkup_le first
    have more := ih later
    dsimp only at one shorter
    rw [List.countP_append, List.length_cons]
    omega
  case case4 glyph text _ raw _ ih =>
    obtain ⟨others, later, rfl⟩ := Option.map_eq_some_iff.mp read
    have shorter := Text.length_dropWhile_le (fun glyph : Glyph => glyph.value != '<') text
    have more := ih later
    rw [List.countP_cons_of_neg (by simp [Item.isClosing]), List.length_cons]
    omega
  case case5 => contradiction

/-- Whether a piece of content is an element. -/
def Content.isElement {α : Type} : Content α → Bool
  | element _ => true
  | _ => false

/-- Number of elements directly inside the elements that are still in the making, and inside the
outermost one once it is closed. -/
def Nesting.numElements (nesting : Nesting) : Nat :=
  (nesting.pending.flatMap OpenElement.content).countP Content.isElement +
    (nesting.root.map fun root => root.children.length).getD 0

/-- The elements directly inside an element are the pieces of its content that are elements. -/
theorem length_children (element : Element) :
    element.children.length = element.content.countP Content.isElement := by
  rw [Element.children]
  generalize element.content = content
  induction content with
  | nil => rfl
  | cons piece rest ih => cases piece <;> simp [List.countP_cons, Content.isElement, ih]

/-- A piece of content is one element or none. -/
theorem OpenElement.countP_content_add (pending : OpenElement) (piece : Content Element) :
    (pending.add piece).content.countP Content.isElement =
      pending.content.countP Content.isElement + if piece.isElement then 1 else 0 := by
  unfold OpenElement.add
  split
  · rename_i content same
    simp [same, Content.isElement]
  · simp [List.countP_cons]

/-- A piece that is added is one more element if it is an element. -/
theorem Nesting.numElements_add? {nesting next : Nesting} {piece : Content Element}
    (added : nesting.add? piece = some next) :
    next.numElements = nesting.numElements + if piece.isElement then 1 else 0 := by
  unfold Nesting.add? at added
  split at added
  · contradiction
  · rename_i inner outer pending
    rw [← Option.some.inj added]
    simp only [numElements, pending, List.flatMap_cons, List.countP_append,
      OpenElement.countP_content_add]
    omega

/-- An element starts without content. -/
theorem OpenElement.content_start? {scope : Scope} {name : Name} {attributes : List Attribute}
    {position : Position} {started : OpenElement}
    (opened : start? scope name attributes position = some started) : started.content = [] := by
  simp only [start?, Option.bind_eq_bind, Option.bind_eq_some_iff] at opened
  obtain ⟨_, _, _, _, _, _, made⟩ := opened
  split at made
  · rw [← Option.some.inj made]
  · contradiction

/-- An item adds at most one element to a nesting, and none unless it is a closing tag. The elements
of the one that is closed are in it then, and it is the only new one. -/
theorem Nesting.numElements_item?_le {nesting next : Nesting} {item : Item}
    (taken : nesting.item? item = some next) :
    next.numElements ≤ nesting.numElements + if item.isClosing then 1 else 0 := by
  cases item with
  | note =>
    simp only [item?] at taken
    split at taken
    · exact Option.some.inj taken ▸ Nat.le_refl _
    · exact Nat.le_of_eq (numElements_add? taken)
  | literal raw => exact Nat.le_of_eq (numElements_add? taken)
  | text raw =>
    simp only [item?] at taken
    split at taken
    · split at taken
      · exact Option.some.inj taken ▸ Nat.le_refl _
      · contradiction
    · obtain ⟨value, _, added⟩ := Option.bind_eq_some_iff.mp taken
      exact Nat.le_of_eq (numElements_add? added)
  | opening name attributes position =>
    simp only [item?] at taken
    split at taken
    · contradiction
    · simp only [Option.bind_eq_bind, Option.bind_eq_some_iff] at taken
      obtain ⟨inner, opened, made⟩ := taken
      rw [← Option.some.inj made]
      simp [numElements, OpenElement.content_start? opened, Item.isClosing]
  | closing name =>
    simp only [item?] at taken
    split at taken
    · contradiction
    · rename_i inner outer pending
      split at taken
      · contradiction
      · split at taken
        · rw [← Option.some.inj taken]
          simp only [numElements, pending, List.flatMap_nil, List.countP_nil, Option.map_some,
            Option.getD_some, length_children, OpenElement.close, List.countP_reverse,
            List.flatMap_cons, List.countP_append]
          omega
        · have counted := numElements_add? taken
          simp only [numElements, pending, List.flatMap_cons, List.countP_append,
            Content.isElement, if_true, Item.isClosing] at counted ⊢
          omega

/-- A nesting has no more elements than the closing tags that went into it. -/
theorem Nesting.numElements_foldlM_le {nesting next : Nesting} {items : List Item}
    (taken : items.foldlM Nesting.item? nesting = some next) :
    next.numElements ≤ nesting.numElements + items.countP Item.isClosing := by
  induction items generalizing nesting with
  | nil => exact Option.some.inj taken ▸ Nat.le_refl _
  | cons item items ih =>
    rw [List.foldlM_cons] at taken
    obtain ⟨middle, first, rest⟩ := Option.bind_eq_some_iff.mp taken
    have one := numElements_item?_le first
    have more := ih rest
    rw [List.countP_cons]
    omega

/-- The outermost element has no more elements directly inside it than there are closing tags. -/
theorem length_children_nest?_le {items : List Item} {element : Element}
    (nested : nest? items = some element) :
    element.children.length ≤ items.countP Item.isClosing := by
  obtain ⟨nesting, taken, closed⟩ := Option.bind_eq_some_iff.mp nested
  split at closed
  · have counted := Nesting.numElements_foldlM_le taken
    rw [Nesting.numElements, closed] at counted
    simp only [Option.map_some, Option.getD_some, Nesting.numElements, List.flatMap_nil,
      List.countP_nil, Option.map_none, Option.getD_none, Nat.zero_add, Nat.add_zero] at counted
    omega
  · contradiction

/-! ## What is cut off before the items -/

/-- What is skipped at the front of a text is a byte order mark or nothing. -/
theorem exists_byteOrderMark (text : List Glyph) :
    ∃ mark, (mark = [] ∨ mark = ['\uFEFF']) ∧
      text.map Placed.value = mark ++ (skipByteOrderMark text).map Placed.value := by
  cases text with
  | nil => exact ⟨[], .inl rfl, rfl⟩
  | cons glyph text =>
    rw [skipByteOrderMark]
    split
    · rename_i mark
      exact ⟨['\uFEFF'], .inr rfl, by rw [List.map_cons, mark]; rfl⟩
    · exact ⟨[], .inl rfl, rfl⟩

/-- Skipping a byte order mark makes no text longer. -/
theorem length_skipByteOrderMark_le (text : List Glyph) :
    (skipByteOrderMark text).length ≤ text.length := by
  cases text with
  | nil => exact Nat.le_refl _
  | cons glyph text =>
    rw [skipByteOrderMark]
    split <;> simp

/-- Skipping a gap makes no text longer. -/
theorem length_skipGap?_le {text rest : List Glyph} (skipped : skipGap? text = some rest) :
    rest.length ≤ text.length := by
  unfold skipGap? at skipped
  split at skipped
  · exact Option.some.inj skipped ▸ length_skipSpaces_le text
  · split at skipped
    · exact Option.some.inj skipped ▸ Nat.le_refl _
    · contradiction

/-- Skipping an attribute makes no text longer. -/
theorem length_skipAttribute?_le {word : List Char} {text rest : List Glyph}
    (skipped : skipAttribute? word text = some rest) : rest.length ≤ text.length := by
  unfold skipAttribute? at skipped
  split at skipped
  · simp only [Option.bind_eq_bind, Option.bind_eq_some_iff] at skipped
    obtain ⟨found, read, gap⟩ := skipped
    have shorter := length_readAttribute_lt read
    have less := length_skipGap?_le gap
    omega
  · exact Option.some.inj skipped ▸ Nat.le_refl _

/-- What follows a declaration is no longer than the text. -/
theorem length_readDeclaration_le {text rest : List Glyph}
    (read : readDeclaration text = some rest) : rest.length ≤ text.length := by
  simp only [readDeclaration, Option.bind_eq_bind, Option.bind_eq_some_iff] at read
  obtain ⟨_, _, first, version, second, encoding, third, alone, mark⟩ := read
  have spaces := length_skipSpaces_le text
  have afterVersion := length_skipAttribute?_le version
  have afterEncoding := length_skipAttribute?_le encoding
  have afterAlone := length_skipAttribute?_le alone
  have afterMark := length_dropLiteral mark
  omega

/-- A document has no more elements directly inside its outermost one than characters. -/
theorem length_children_le {text : String} {element : Element}
    (read : document? text = some element) : element.children.length ≤ text.length := by
  obtain ⟨items, cut, nested⟩ := Option.bind_eq_some_iff.mp read
  have located : (glyphs text).length = text.length := by
    rw [← List.length_map Placed.value, glyphs, map_value_locate, String.length_toList]
  have marked := length_skipByteOrderMark_le (glyphs text)
  have children := length_children_nest?_le nested
  rw [documentItems] at cut
  split at cut
  · have closings := countP_isClosing_readItems_le cut
    omega
  · rename_i rest declared
    obtain ⟨body, declaration, items⟩ := Option.bind_eq_some_iff.mp cut
    have closings := countP_isClosing_readItems_le items
    have shorter := length_readDeclaration_le declaration
    have dropped := length_dropLiteral declared
    omega

/-- The reader that nests items is lawful. -/
theorem Reader.lawful_nesting : Reader.nesting.Lawful where
  exists_front {text _} read := by
    obtain ⟨spaces, rest, body, all⟩ := Markup.exists_front read
    obtain ⟨mark, one, split⟩ := exists_byteOrderMark (glyphs text)
    have located : (glyphs text).map Placed.value = text.toList := map_value_locate _ _
    refine ⟨mark, spaces, rest, ?_, one, all⟩
    rw [← located, split, body, List.append_assoc]
  length_children_le := Markup.length_children_le

end Retrace.Markup
