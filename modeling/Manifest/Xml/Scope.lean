import Manifest.Node
import Manifest.Xml.Doctype
import Manifest.Xml.Uri

/-!
Namespaces: which prefix stands for what at a place in a document, and the names of elements and
attributes that follow from it.
-/

set_option autoImplicit false

namespace Manifest.Xml

/-- The declarations in force at a place, the innermost first. -/
abbrev Scope := List Binding

/-- What a prefix, or the absence of one, stands for. -/
def Scope.uri? (scope : Scope) (pfx : Option String) : Option String :=
  (scope.find? (·.pfx == pfx)).map (·.uri)

/-- The name of a namespace after the host and path that it is made of. -/
def namespaceAt (place : String) : String := "http://" ++ place

/-- The namespace that the prefix of the same name always stands for. -/
def xmlUri : String := namespaceAt "www.w3.org/XML/1998/namespace"

/-- The namespace of declarations, which no prefix may stand for. -/
def xmlnsUri : String := namespaceAt "www.w3.org/2000/xmlns/"

/--
A remark made while reading: a warning, or a fault in the use of namespaces. The last remark of a
document decides whether it is accepted.
-/
inductive Remark where
  | warning
  | fault
  deriving Repr, DecidableEq

/-- A name cut at its colon. A name that cannot be cut so has no prefix and is not sound. -/
structure QualifiedName where
  pfx : Option String
  name : String
  sound : Bool := true
  deriving Repr, DecidableEq

/-- Cuts a name at its first colon. -/
def QualifiedName.ofRaw (raw : List Char) : QualifiedName :=
  let front := raw.takeWhile (· != ':')
  match raw.drop front.length with
  | [] => ⟨none, String.ofList raw, true⟩
  | _ :: back =>
    if front.isEmpty || !(back.head?.any isNameStart) then ⟨none, String.ofList raw, false⟩
    else ⟨some (String.ofList front), String.ofList back, !back.contains ':'⟩

/-- A fault where a condition fails. -/
def faultUnless (sound : Bool) : List Remark :=
  if sound then [] else [.fault]

/-- An attribute key: the local name, with the namespace in braces before it if there is one. -/
def attributeKey (uri name : String) : String :=
  "\x7b" ++ uri ++ "\x7d" ++ name

/-- A declaration read from a tag: what it binds, if it is kept, and the remarks on it. -/
structure Declared where
  binding : Option Binding := none
  remarks : List Remark := []

/-- Reads the declaration of the default namespace. -/
def declareDefault (uri : String) : Declared :=
  if uri.isEmpty then ⟨some ⟨none, uri⟩, []⟩
  else
    let remarks :=
      if !Uri.isReference uri then [.fault] else if !Uri.isAbsolute uri then [.warning] else []
    if uri == xmlUri || uri == xmlnsUri then ⟨none, remarks ++ [.fault]⟩
    else ⟨some ⟨none, uri⟩, remarks⟩

/-- Reads the declaration of a prefix. -/
def declarePrefix (pfx uri : String) : Declared :=
  if pfx == "xml" then ⟨none, faultUnless (uri == xmlUri)⟩
  else if uri == xmlUri || pfx == "xmlns" || uri == xmlnsUri || uri.isEmpty then ⟨none, [.fault]⟩
  else ⟨some ⟨some pfx, uri⟩, faultUnless (Uri.isReference uri)⟩

/-- An attribute of a start tag with its name cut at the colon. -/
structure RawAttribute where
  name : QualifiedName
  value : String

/-- The attribute as a declaration, if it is one. -/
def RawAttribute.declared? (a : RawAttribute) : Option Declared :=
  match a.name.pfx with
  | none => if a.name.name == "xmlns" then some (declareDefault a.value) else none
  | some pfx => if pfx == "xmlns" then some (declarePrefix a.name.name a.value) else none

/-- The remarks on an attribute by itself. -/
def RawAttribute.remarks (a : RawAttribute) : List Remark :=
  faultUnless a.name.sound ++
    match a.declared? with
    | some declared => declared.remarks
    | none =>
      if a.name.pfx == some "xml" && a.name.name == "space" && a.value != "default" &&
        a.value != "preserve" then [.warning] else []

/-- What a prefix stands for, the reserved one included. -/
def Scope.resolve? (scope : Scope) (pfx : String) : Option String :=
  if pfx == "xml" then some xmlUri else scope.uri? (some pfx)

/-- A qualified name as it was written. -/
def QualifiedName.raw (n : QualifiedName) : String :=
  match n.pfx with
  | none => n.name
  | some pfx => pfx ++ ":" ++ n.name

/-- The key of an attribute in a scope. One whose prefix stands for nothing keeps it. -/
def Scope.keyOf (scope : Scope) (n : QualifiedName) : String :=
  match n.pfx with
  | none => n.name
  | some pfx =>
    match scope.resolve? pfx with
    | some uri => attributeKey uri n.name
    | none => n.raw

/-- Whether the prefix of a name, if it has one, stands for something. -/
def Scope.knows (scope : Scope) (n : QualifiedName) : Bool :=
  n.pfx.all fun pfx => (scope.resolve? pfx).isSome

/-- The name and namespace of an element in a scope. One whose prefix stands for nothing keeps it. -/
def Scope.elementName (scope : Scope) (n : QualifiedName) : String × Option String :=
  match n.pfx with
  | none => (n.name, (scope.uri? none).filter (!·.isEmpty))
  | some pfx =>
    match scope.resolve? pfx with
    | some uri => (n.name, some uri)
    | none => (n.raw, none)

/-- A start tag with its names resolved, the scope inside the element, and the remarks on it. -/
structure ResolvedTag where
  tag : Tag
  scope : Scope
  remarks : List Remark

/-- Adds the attributes that the document type gives to an element and its tag does not. -/
def withDefaults (rules : List AttributeRule) (element : List Char)
    (attributes : List (List Char × List Char)) : List (List Char × List Char) :=
  let rules := rules.filter (·.element == element)
  let given := attributes.map fun (name, value) =>
    if rules.any fun rule => rule.name == name && rule.words then (name, joinWords value)
    else (name, value)
  given ++ rules.filterMap fun rule =>
    if attributes.any (·.1 == rule.name) then none else rule.value.map (rule.name, ·)

/-- Whether no two keys are equal. -/
def keysDistinct : List String → Bool
  | [] => true
  | key :: keys => !keys.contains key && keysDistinct keys

/-- Attributes without those whose key an earlier one has, given the keys that there are before them. -/
def withoutRepeats : List String → List (String × String) → List (String × String)
  | _, [] => []
  | seen, (key, value) :: rest =>
    if seen.contains key then withoutRepeats seen rest
    else (key, value) :: withoutRepeats (key :: seen) rest

/--
Resolves a start tag inside a scope. The tag keeps the declarations that change what is in force, and
the first of several attributes that come to have the same key.
-/
def resolveTag (rules : List AttributeRule) (outer : Scope) (name : List Char)
    (attributes : List (List Char × List Char)) : ResolvedTag :=
  let elementName := QualifiedName.ofRaw name
  let all := (withDefaults rules name attributes).map fun (name, value) =>
    (⟨QualifiedName.ofRaw name, String.ofList value⟩ : RawAttribute)
  let bindings := all.filterMap fun a => a.declared?.bind (·.binding)
  let plain := all.filter (·.declared?.isNone)
  let scope : Scope := bindings ++ outer
  let keys := plain.map fun a => scope.keyOf a.name
  let (local_, uri) := scope.elementName elementName
  { tag :=
      { name := local_
        uri := uri
        bindings := bindings.filter fun b => outer.uri? b.pfx != some b.uri
        attributes := withoutRepeats [] (keys.zip (plain.map (·.value))) }
    scope := scope
    remarks :=
      faultUnless elementName.sound ++ all.flatMap (·.remarks) ++
        plain.flatMap (fun a => faultUnless (scope.knows a.name)) ++
        faultUnless (keysDistinct keys) ++ faultUnless (scope.knows elementName) }

end Manifest.Xml
