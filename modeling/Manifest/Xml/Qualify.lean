import Manifest.Xml.Markup
import Manifest.Xml.Scope

/-!
Choosing the prefixes under which a tree is written.

An element keeps the declarations of its tag. It uses the first declaration in force for its
namespace; an attribute does so too, but never the default one. Where there is none, a new prefix is
declared on the element. A tree is refused if it holds a name, a text or a comment that markup
cannot express.
-/

set_option autoImplicit false

namespace Manifest.Xml

/-- Prefixes that well-known namespaces get when none is declared. -/
def customaryPrefixes : List (String × String) :=
  [(xmlUri, "xml"),
   (namespaceAt "www.w3.org/1999/xhtml", "html"),
   (namespaceAt "www.w3.org/1999/XSL/Transform", "xsl"),
   (namespaceAt "www.w3.org/1999/02/22-rdf-syntax-ns#", "rdf"),
   (namespaceAt "schemas.xmlsoap.org/wsdl/", "wsdl"),
   (namespaceAt "www.w3.org/2001/XMLSchema", "xs"),
   (namespaceAt "www.w3.org/2001/XMLSchema-instance", "xsi"),
   (namespaceAt "purl.org/dc/elements/1.1/", "dc")]

/-- A name with its namespace, if it has one. -/
structure ExpandedName where
  uri : Option String
  name : String
  deriving Repr, DecidableEq

/-- Reads a name that may carry its namespace in braces in front; both parts must be sound. -/
def ExpandedName.parse? (s : String) : Option ExpandedName :=
  if !isDocumentText s then none
  else match s.toList with
    | '\x7b' :: cs =>
      let uri := cs.takeWhile (· != '\x7d')
      match cs.drop uri.length with
      | _ :: name =>
        if isLocalName name then
          some ⟨if uri.isEmpty then none else some (String.ofList uri), String.ofList name⟩
        else none
      | [] => none
    | name => if isLocalName name then some ⟨none, s⟩ else none

/-- What a prefix stands for where a tree is written, the reserved one included. -/
def Scope.stands? (scope : Scope) (pfx : Option String) : Option String :=
  if pfx == some "xml" then some xmlUri else scope.uri? pfx

/-- The first declaration in force for a namespace, with a prefix if one is needed. -/
def Scope.binding? (scope : Scope) (uri : String) (needsPrefix : Bool) : Option Binding :=
  if uri == xmlUri then some ⟨some "xml", uri⟩
  else scope.find? fun b =>
    b.uri == uri && !(needsPrefix && b.pfx.isNone) && scope.stands? b.pfx == some uri

/-- The generated prefix of a given number. -/
def numberedPrefix (n : Nat) : String :=
  "ns" ++ toString n

/-- The first number from `n` on whose prefix is free, looking at `fuel` of them. -/
def freeNumber (scope : Scope) : Nat → Nat → Nat
  | 0, n => n
  | fuel + 1, n =>
    if (scope.uri? (some (numberedPrefix n))).isSome then freeNumber scope fuel (n + 1) else n

/-- A prefix for a namespace that has none, and the number the next generated one begins with. -/
def newPrefix (scope : Scope) (n : Nat) (uri : String) : String × Nat :=
  match (customaryPrefixes.lookup uri).filter fun pfx => (scope.stands? (some pfx)).isNone with
  | some pfx => (pfx, n)
  | none =>
    let free := freeNumber scope (scope.length + 1) n
    (numberedPrefix free, free + 1)

/--
A start tag while its names are chosen: the declarations made so far, those in force around it, and
the number of the next generated prefix.
-/
structure Naming where
  declared : List Binding := []
  outer : Scope
  next : Nat

/-- All declarations in force at the tag, its own first. -/
def Naming.scope (t : Naming) : Scope :=
  t.declared ++ t.outer

/-- Declares a binding unless it is in force already. -/
def Naming.declare (t : Naming) (b : Binding) : Naming :=
  if t.scope.stands? b.pfx == some b.uri then t else { t with declared := t.declared ++ [b] }

/-- The binding to use for a namespace, declared here if need be. -/
def Naming.use (t : Naming) (uri : String) (needsPrefix : Bool) : Binding × Naming :=
  match t.scope.binding? uri needsPrefix with
  | some b => (b, t)
  | none =>
    let (pfx, next) := newPrefix t.scope t.next uri
    let b : Binding := ⟨some pfx, uri⟩
    (b, { t with declared := t.declared ++ [b], next := next })

/-- Whether a declaration can be written. -/
def isWritable (b : Binding) : Bool :=
  Uri.isReference b.uri && isDocumentText b.uri && b.pfx.all fun pfx => isLocalName pfx.toList

/-- A name under a prefix. -/
def prefixed (pfx : Option String) (name : String) : String :=
  match pfx with
  | none => name
  | some pfx => pfx ++ ":" ++ name

/-- The attributes of a tag under the names they are written with. Repeated names count once. -/
def qualifyAttributes : Naming → List ExpandedName → List (String × String) →
    Option (Naming × List (String × String))
  | t, _, [] => some (t, [])
  | t, seen, (key, value) :: rest => do
    let name ← ExpandedName.parse? key
    if seen.contains name then qualifyAttributes t seen rest
    else if !isDocumentText value then none
    else
      match name.uri with
      | none =>
        let (t, attributes) ← qualifyAttributes t (name :: seen) rest
        return (t, (name.name, value) :: attributes)
      | some uri =>
        if !Uri.isReference uri then none
        else
          let (b, t) := t.use uri true
          let (t, attributes) ← qualifyAttributes t (name :: seen) rest
          return (t, (prefixed b.pfx name.name, value) :: attributes)

/-- A declaration as an attribute; the reserved prefix is never declared. -/
def declarationAttribute? (b : Binding) : Option (String × String) :=
  match b.pfx with
  | none => some ("xmlns", b.uri)
  | some pfx => if pfx == "xml" then none else some ("xmlns:" ++ pfx, b.uri)

/-- A start tag as it is written. -/
structure WrittenTag where
  name : String
  attributes : List (String × String)
  /-- The declarations in force for the children. -/
  scope : Scope
  /-- The namespace that children without one take. -/
  uri : Option String
  next : Nat

/-- Chooses the names of a start tag, inside an element of namespace `parent`. -/
def qualifyTag (outer : Scope) (parent : Option String) (next : Nat) (tag : Tag) :
    Option WrittenTag := do
  let uri := tag.uri.or parent
  let key := match uri with
    | some uri => if uri.isEmpty then tag.name else attributeKey uri tag.name
    | none => tag.name
  let name ← ExpandedName.parse? key
  if !tag.bindings.all isWritable then none
  else
    let t := tag.bindings.foldl Naming.declare { outer := outer, next := next }
    let (own, t) ← match name.uri with
      | none => some (none, t)
      | some uri =>
        match tag.bindings.find? (·.uri == uri) with
        | some b => some (some b, t)
        | none =>
          if Uri.isReference uri then
            let (b, t) := t.use uri false
            some (some b, t)
          else none
    let (t, attributes) ← qualifyAttributes t [] tag.attributes
    return {
      name := prefixed (own.bind (·.pfx)) name.name
      attributes := t.declared.filterMap declarationAttribute? ++ attributes
      scope := t.declared ++ own.toList ++ outer
      uri := uri
      next := t.next }

/-- Whether a text can be a comment. -/
def isComment (value : String) : Bool :=
  isDocumentText value && !hasWord ['-', '-'] value.toList && value.toList.getLast? != some '-'

/-- Whether a target and a text can be an instruction. -/
def isInstruction (target value : String) : Bool :=
  isLocalName target.toList && !isReservedTarget target.toList && isDocumentText value &&
    !hasWord ['?', '>'] value.toList

/-- Puts text in front of nodes, as one with the text they may begin with. -/
def joinText (value : String) : List Markup → List Markup
  | .text after :: rest => .text (value ++ after) :: rest
  | nodes => .text value :: nodes

mutual

/-- A node under the names it is written with, and the number of the next generated prefix. -/
def qualify (scope : Scope) (parent : Option String) (next : Nat) : Node →
    Option (Markup × Nat)
  | .text value => if isDocumentText value then some (.text value, next) else none
  | .comment value => if isComment value then some (.comment value, next) else none
  | .instruction target value =>
    if isInstruction target value then some (.instruction target value, next) else none
  | .element tag children =>
    match qualifyTag scope parent next tag with
    | none => none
    | some written =>
      match qualifyNodes written.scope written.uri written.next children with
      | none => none
      | some (nodes, next) => some (.element written.name written.attributes nodes, next)

/-- Nodes under the names they are written with. Neighbouring texts become one. -/
def qualifyNodes (scope : Scope) (parent : Option String) (next : Nat) : List Node →
    Option (List Markup × Nat)
  | [] => some ([], next)
  | node :: rest =>
    match qualify scope parent next node with
    | none => none
    | some (markup, next) =>
      match qualifyNodes scope parent next rest with
      | none => none
      | some (nodes, next) =>
        match markup with
        | .text value => some (joinText value nodes, next)
        | markup => some (markup :: nodes, next)

end

end Manifest.Xml
