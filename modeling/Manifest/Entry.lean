import Manifest.Node

/-!
Entries of manifest sections, built by hand.

An entry is an element whose identity and version stand in leaves: child elements with nothing but
text. `Element.withVersion` stamps a version on an entry.
-/

set_option autoImplicit false

namespace Manifest

/-- Puts nodes at an index of a list of nodes, at its end if it is shorter. -/
def insertNodes (new : List Node) (index : Nat) (nodes : List Node) : List Node :=
  nodes.take index ++ (new ++ nodes.drop index)

namespace Element

/-- An element with nothing but a text in it. -/
def leaf (name value : String) : Element :=
  ofName name [.text value]

/-- An entry of a given kind that is identified by its group and artifact. -/
def coordinates (kind group artifact : String) (version : Option String := none) : Element :=
  ofName kind
    ((leaf "groupId" group).toNode :: (leaf "artifactId" artifact).toNode ::
      (version.map fun v => (leaf "version" v).toNode).toList)

/-- A dependency, with its fields in the customary order. -/
def dependency (group artifact : String) (version type scope : Option String := none) : Element :=
  let e := coordinates "dependency" group artifact version
  let field (name : String) (value : Option String) : List Node :=
    (value.map fun v => (leaf name v).toNode).toList
  { e with children := e.children ++ field "type" type ++ field "scope" scope }

/-- An entry that registers the module at a path. -/
def module (path : String) : Element :=
  leaf "module" path

/--
The entry with another version. The first version it has is overwritten; if it has none, one is put
right after the first artifact, or at the end if there is no artifact either.
-/
def withVersion (e : Element) (version : String) : Element :=
  match splitAtElement (·.name == "version") e.children with
  | some (before, old, after) =>
    { e with children := before ++ (old.withText version).toNode :: after }
  | none =>
    let new := (leaf "version" version).toNode
    match splitAtElement (·.name == "artifactId") e.children with
    | some (before, artifact, after) =>
      { e with children := before ++ artifact.toNode :: new :: after }
    | none => { e with children := e.children ++ [new] }

end Element

end Manifest
