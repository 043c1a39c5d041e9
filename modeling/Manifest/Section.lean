import Manifest.Entry
import Manifest.Log

/-!
Sections: elements reached from another one by the names of the elements on the way.

A position tells the way by rank among child elements instead of by name, so that it stays valid
when text and comments come and go. `Element.locate` finds the position of a section and
`Element.ensure` creates what is missing of it.
-/

set_option autoImplicit false

namespace Manifest

/-- The way to an element: at each step the rank among the child elements. -/
abbrev Position := List Nat

/-- Changes the element of a given rank among some nodes. -/
def modifyElement (f : Element → Element) : Nat → List Node → List Node
  | _, [] => []
  | 0, .element tag children :: rest => (f ⟨tag, children⟩).toNode :: rest
  | rank + 1, .element tag children :: rest =>
    .element tag children :: modifyElement f rank rest
  | rank, node :: rest => node :: modifyElement f rank rest

namespace Element

/-- The element at a position. -/
def at? (e : Element) : Position → Option Element
  | [] => some e
  | rank :: rest => (e.elements[rank]?).bind fun child => child.at? rest

/-- The element with a change of what is at a position. -/
def modifyAt (f : Element → Element) : Position → Element → Element
  | [], e => f e
  | rank :: rest, e => { e with children := modifyElement (modifyAt f rest) rank e.children }

/-- The first child element of a given name, with its rank. -/
def ranked? (e : Element) (name : String) : Option (Element × Nat) :=
  e.elements.zipIdx.find? fun (child, _) => child.name == name

/-- The position that a path of names leads to, the first child of each name. -/
def locate (e : Element) : List String → Option Position
  | [] => some []
  | name :: rest =>
    match e.ranked? name with
    | none => none
    | some (child, rank) => (child.locate rest).map (rank :: ·)

/-- The white space that precedes the children of an element. -/
def childIndent (e : Element) : String :=
  ((e.children.find? Node.isBlank).map Node.textValue).getD ""

/-- Text as a node, if there is any. -/
def textNodes (value : String) : List Node :=
  if value.isEmpty then [] else [.text value]

/-- The index just after the last element among some nodes. -/
def afterElements (nodes : List Node) : Nat :=
  (nodes.reverse.dropWhile fun node => !node.isElement).length

/--
An element with a new child element: right after its last child element, on white space like that
of its other children, or at the very end if it has no child element.
-/
def appendElement (e child : Element) : Element :=
  match afterElements e.children with
  | 0 => { e with children := e.children ++ [child.toNode] }
  | index + 1 =>
    { e with
      children := insertNodes (textNodes e.childIndent ++ [child.toNode]) (index + 1) e.children }

end Element

/-- The record of a section that was created. -/
def createdRecord (name parent : String) : Record :=
  .debug ("Created missing section <" ++ name ++ "> under <" ++ parent ++ ">")

/-- The record of a section that was not found. -/
def notFoundRecord (path : List String) : Record :=
  .debug ("Section not found: " ++ String.intercalate "/" path)

/-- An element in which a section exists, where it is, and the records of its creation. -/
structure Ensured where
  element : Element
  position : Position
  log : List Record := []

/-- A chain of new elements, each the only child of the one before. -/
def Element.chain (name : String) : List String → Element
  | [] => .ofName name
  | next :: rest => .ofName name [(Element.chain next rest).toNode]

/-- The records of the creation of a chain under a parent. -/
def chainRecords (parent : String) : List String → List Record
  | [] => []
  | name :: rest => createdRecord name parent :: chainRecords name rest

/-- The section at a path of names, with the elements that are missing on the way created. -/
def Element.ensure (e : Element) : List String → Ensured
  | [] => ⟨e, [], []⟩
  | name :: rest =>
    match e.ranked? name with
    | none =>
      { element := e.appendElement (.chain name rest)
        position := e.elements.length :: List.replicate rest.length 0
        log := chainRecords e.name (name :: rest) }
    | some (child, rank) =>
      let inner := child.ensure rest
      { element := { e with children := modifyElement (fun _ => inner.element) rank e.children }
        position := rank :: inner.position
        log := inner.log }

/-- Why a section cannot be worked on. -/
inductive SectionError where
  /-- The document has no root element. -/
  | noRoot
  /-- There is no such section. -/
  | absent
  deriving Repr, DecidableEq

/-- The message of a fault. -/
def SectionError.message : SectionError → String
  | .noRoot => "Document has no root element"
  | .absent => "Cannot merge into an absent section; create it with ensure_section() first"

/-- What is left of a path below the root, whose own name it may begin with. -/
def pathBelow (root : Element) : List String → List String
  | [] => []
  | name :: rest => if name == root.name then rest else name :: rest

namespace Document

/-- The element at a position below the root. -/
def at? (d : Document) (position : Position) : Option Element :=
  d.root?.bind (·.at? position)

/-- The document with a change of the element at a position. -/
def modifyAt (d : Document) (f : Element → Element) (position : Position) : Document :=
  match d.root? with
  | none => d
  | some root => d.withRoot (root.modifyAt f position)

/--
The position of the element that a path leads to: from the root, or from the element at `start`.
-/
def locate (d : Document) (start : Option Position) (path : List String) :
    Except SectionError (Option Position) :=
  match d.root? with
  | none => .error .noRoot
  | some root =>
    match start with
    | none => .ok (root.locate (pathBelow root path))
    | some start =>
      .ok (((root.at? start).bind (·.locate path)).map (start ++ ·))

/-- The position of a section, and the record that there is none. -/
def find (d : Document) (start : Option Position) (path : List String) :
    Except SectionError (Option Position × List Record) :=
  (d.locate start path).map fun
    | some position => (some position, [])
    | none => (none, [notFoundRecord path])

/-- The document with a section in it, the position of the section, and the records of its creation. -/
def ensure (d : Document) (start : Option Position) (path : List String) :
    Except SectionError (Document × Position × List Record) :=
  match d.root? with
  | none => .error .noRoot
  | some root =>
    match start with
    | none =>
      let r := root.ensure (pathBelow root path)
      .ok (d.withRoot r.element, r.position, r.log)
    | some start =>
      match root.at? start with
      | none => .error .absent
      | some e =>
        let r := e.ensure path
        .ok (d.modifyAt (fun _ => r.element) start, start ++ r.position, r.log)

end Document

end Manifest
