import Retrace.Markup.Item

/-!
# Elements

The items of a document nested into one element. Tags pair up by their full names, qualifiers have
to be declared, and no two attributes of an element have the same name in the same space of names.
Adjacent text and literal sections make one piece of text.

What is kept of a document is what a reader of traces asks for: the label of each element, the
attributes without a qualifier, the position of the opening tag, and the content.
-/
namespace Retrace.Markup

/-- A piece of the content of an element; `α` is the type of elements. -/
inductive Content (α : Type) where
  /-- An element inside the element. -/
  | element (child : α)
  /-- Characters, not broken by any other piece. -/
  | text (chars : List Char)
  /-- A comment or a processing instruction. -/
  | note
  deriving Repr

/-- An element of a document. -/
structure Element where
  /-- Name without its qualifier. -/
  label : String
  /-- Attributes without a qualifier, in order. -/
  attributes : List (String × String)
  /-- Position of the angle bracket of its opening tag. -/
  position : Position
  /-- What stands between its tags, in order. -/
  content : List (Content Element)

namespace Element

/-- The elements directly inside an element, in order. -/
def children (element : Element) : List Element :=
  element.content.filterMap fun
    | .element child => some child
    | _ => none

/-- The first element directly inside an element with a label. -/
def child? (element : Element) (label : String) : Option Element :=
  element.children.find? (·.label == label)

/-- The text of an element whose content starts with text. -/
def text? (element : Element) : Option (List Char) :=
  match element.content with
  | .text chars :: _ => some chars
  | _ => none

/-- Value of an attribute without a qualifier. -/
def attribute? (element : Element) (name : String) : Option String :=
  element.attributes.lookup name

end Element

/-! ## Spaces of names -/

/-- The qualifiers in scope with the spaces that they stand for, the innermost first. -/
abbrev Scope := List (String × String)

/-- The space of the qualifier `xml`, which is in scope for every attribute and for no element. -/
def xmlSpace : String := "http://www.w3.org/XML/1998/namespace"

/-- The space of the qualifier `xmlns`, which declares other qualifiers. -/
def declarationSpace : String := "http://www.w3.org/2000/xmlns/"

/-- The qualifier that an attribute declares, if it declares one. The label `xmlns` declares the
empty qualifier, with or without a qualifier of its own. -/
def Attribute.declares? (written : Attribute) : Option String :=
  if written.name.qualifier = "xmlns" then some written.name.label
  else if written.name.label = "xmlns" then some ""
  else none

/-- Whether a qualifier may be declared for a space: the two reserved spaces are not for
declaration, but `xml` may be declared for its own. -/
def mayDeclare (qualifier space : String) : Bool :=
  space != declarationSpace && (qualifier == "xml") == (space == xmlSpace)

/-- The space of the qualifier of an attribute, if it is in scope. An attribute without a
qualifier is in no space. -/
def attributeSpace? (scope : Scope) (qualifier : String) : Option (Option String) :=
  if qualifier = "" then some none
  else if qualifier = "xml" then some (some xmlSpace)
  else (scope.lookup qualifier).map some

/-- Whether an element may have a qualifier. -/
def qualifiesElement (scope : Scope) (qualifier : String) : Bool :=
  qualifier == "" || (qualifier != "xmlns" && (scope.lookup qualifier).isSome)

/-- An attribute with its value read. -/
structure ReadAttribute where
  /-- The attribute as it is written. -/
  written : Attribute
  /-- The characters that its value stands for. -/
  value : String

/-- The values of attributes. -/
def readAttributeValues : List Attribute → Option (List ReadAttribute)
  | [] => some []
  | written :: others => do
    let value ← attributeValue? written.raw
    let rest ← readAttributeValues others
    some (⟨written, String.ofList value⟩ :: rest)

/-- The qualifiers that attributes bring into scope; nothing when one may not be declared or is
brought twice. Declarations of the empty qualifier and of `xml` bring none. -/
def declarations? (attributes : List ReadAttribute) : Option Scope :=
  let declared : Scope := attributes.filterMap fun read =>
    read.written.declares?.map (·, read.value)
  let brought : Scope := declared.filter fun (qualifier, _) => qualifier != "" && qualifier != "xml"
  if declared.all (fun (qualifier, space) => mayDeclare qualifier space) ∧
      (brought.map Prod.fst).Nodup then some brought
  else none

/-- The names that attributes have in a scope; nothing when a qualifier is not in scope. -/
def attributeNames? (scope : Scope) : List ReadAttribute → Option (List (Option String × String))
  | [] => some []
  | read :: others => do
    let rest ← attributeNames? scope others
    if read.written.declares?.isSome then some rest
    else
      let space ← attributeSpace? scope read.written.name.qualifier
      some ((space, read.written.name.label) :: rest)

/-! ## Nesting -/

/-- An element whose closing tag has not come. -/
structure OpenElement where
  /-- Full name of the opening tag. -/
  name : Name
  /-- Attributes without a qualifier. -/
  attributes : List (String × String)
  /-- Position of the opening tag. -/
  position : Position
  /-- Qualifiers in scope inside the element. -/
  scope : Scope
  /-- Content so far, the newest piece first. -/
  content : List (Content Element)

/-- How far a document is nested. -/
structure Nesting where
  /-- The open elements, the innermost first. -/
  pending : List OpenElement := []
  /-- The outermost element once it is closed. -/
  root : Option Element := none

namespace OpenElement

/-- The element with its closing tag. -/
def close (pending : OpenElement) : Element :=
  ⟨pending.name.label, pending.attributes, pending.position, pending.content.reverse⟩

/-- The open element with one more piece of content; text joins text right before it. -/
def add (pending : OpenElement) (piece : Content Element) : OpenElement :=
  match piece, pending.content with
  | .text chars, .text before :: content =>
    { pending with content := .text (before ++ chars) :: content }
  | _, content => { pending with content := piece :: content }

/-- The element that an opening tag starts inside a scope; nothing when its names break the
rules. -/
def start? (scope : Scope) (name : Name) (attributes : List Attribute) (position : Position) :
    Option OpenElement := do
  let values ← readAttributeValues attributes
  let declared ← declarations? values
  let scope := declared ++ scope
  let names ← attributeNames? scope values
  if qualifiesElement scope name.qualifier ∧ names.Nodup then
    let plain := values.filter fun read =>
      read.written.name.qualifier == "" && read.written.declares?.isNone
    some
      { name, position, scope, content := []
        attributes := plain.map fun read => (read.written.name.label, read.value) }
  else none

end OpenElement

namespace Nesting

/-- The nesting with one more piece in its innermost open element. -/
def add? (nesting : Nesting) (piece : Content Element) : Option Nesting :=
  match nesting.pending with
  | [] => none
  | inner :: outer => some { nesting with pending := inner.add piece :: outer }

/-- The nesting after one more item. Outside the outermost element there are only spaces and
notes, and there is only one outermost element. -/
def item? (nesting : Nesting) : Item → Option Nesting
  | .note => if nesting.pending.isEmpty then some nesting else nesting.add? .note
  | .literal raw => nesting.add? (.text (uniformLines raw))
  | .text raw =>
    if nesting.pending.isEmpty then if raw.all isSpace then some nesting else none
    else (textValue? raw).bind (nesting.add? <| .text ·)
  | .opening name attributes position =>
    if nesting.pending.isEmpty && nesting.root.isSome then none
    else do
      let scope := (nesting.pending.head?.map (·.scope)).getD []
      let inner ← OpenElement.start? scope name attributes position
      some { nesting with pending := inner :: nesting.pending }
  | .closing name =>
    match nesting.pending with
    | [] => none
    | inner :: outer =>
      if inner.name ≠ name then none
      else
        match outer with
        | [] => some { pending := [], root := some inner.close }
        | _ => { nesting with pending := outer }.add? (.element inner.close)

end Nesting

/-- The outermost element of nested items, when all tags pair up. -/
def nest? (items : List Item) : Option Element := do
  let nesting ← items.foldlM Nesting.item? {}
  if nesting.pending.isEmpty then nesting.root else none

/-- The outermost element of a document; nothing when the document is malformed. -/
def document? (text : String) : Option Element := (documentItems text).bind nest?

/-! ## Readers -/

/-- A library that reads markup documents. -/
structure Reader where
  /-- The outermost element of a document; nothing when the library refuses the document. -/
  document? : String → Option Element

/-- The reader that cuts a document into items and nests them. -/
def Reader.nesting : Reader := ⟨Markup.document?⟩

end Retrace.Markup
