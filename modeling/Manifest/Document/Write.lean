import Manifest.Xml.Layout
import Manifest.Xml.Qualify

/-!
Writing documents as text.

A document is written as its declaration, its document type declaration, and its top-level nodes,
each on lines of its own. Text between the top-level nodes and elements beside the root are not
written.
-/

set_option autoImplicit false

namespace Manifest

open Xml (Markup)

/-- Why a document cannot be written. -/
inductive WriteError where
  /-- There is no element at the top level. -/
  | noRoot
  /-- Some name, text, comment or instruction cannot be expressed in markup. -/
  | forbidden
  /-- The indentation is not text. -/
  | indentNotText
  deriving Repr, DecidableEq

/-- The message of a fault that this library states itself. -/
def WriteError.message? : WriteError → Option String
  | .noRoot => some "Document has no root element"
  | .forbidden | .indentNotText => none

/-- What is put in front of a line for every level. -/
inductive Indent where
  /-- White space stays as it is. -/
  | keep
  /-- White space between nodes is replaced by this text for every level. -/
  | unit (text : String)
  /-- A setting that is no text; it is an error only where something has to be indented. -/
  | invalid
  deriving Repr, DecidableEq, Inhabited

/-- How a document is laid out. -/
structure Style where
  indent : Indent := .unit "  "
  declaration : Bool := true
  deriving Repr, DecidableEq, Inhabited

/-- Markup with its children indented. Markup without any is left alone whatever the setting. -/
def Indent.apply (indent : Indent) : Markup → Except WriteError Markup
  | .element name attributes children =>
    if !Markup.hasNodes children then .ok (.element name attributes children)
    else match indent with
      | .keep => .ok (.element name attributes children)
      | .invalid => .error .indentNotText
      | .unit text =>
        if Xml.isDocumentText text then
          .ok (Markup.indent text 1 (.element name attributes children))
        else .error .forbidden
  | markup => .ok markup

/-- Whether a node stands at the top level of written documents, beside the root. -/
def Node.isRemark : Node → Bool
  | .comment _ | .instruction .. => true
  | _ => false

/-- The comments and instructions among the nodes beside the root, as they are written. -/
def remarks (nodes : List Node) : Except WriteError (List Markup) :=
  match Xml.qualifyNodes [] none 0 (nodes.filter Node.isRemark) with
  | some (markup, _) => .ok markup
  | none => .error .forbidden

/-- Markup on a line of its own. -/
def renderLine (m : Markup) : List Char :=
  m.render ++ ['\n']

/-- The declaration of a document that is stored in a given encoding. -/
def renderDeclaration (encoding : String) : List Char :=
  "<?xml version=\"1.0\" encoding=\"".toList ++ encoding.toList ++ "\"?>\n".toList

/-- The document type declaration of a document, on a line of its own. -/
def renderDoctype (doctype : Option String) : Except WriteError (List Char) :=
  match doctype with
  | none => .ok []
  | some text => if Xml.isDocumentText text then .ok (text.toList ++ ['\n']) else .error .forbidden

namespace Document

/-- The top level of a document as it is written, before it is put into lines. -/
def markup (d : Document) (indent : Indent) : Except WriteError (List Markup × Markup × List Markup) := do
  let some (before, root, after) := splitAtElement (fun _ => true) d.nodes | throw .noRoot
  let some (root, _) := Xml.qualify [] none 0 root.toNode | throw .forbidden
  let before ← remarks before
  let after ← remarks after
  let root ← indent.apply root
  return (before, root, after)

/-- Writes a document. -/
def render (d : Document) (style : Style := {}) : Except WriteError String := do
  let (before, root, after) ← d.markup style.indent
  let doctype ← renderDoctype d.doctype
  let declaration := if style.declaration then renderDeclaration d.encoding else []
  return String.ofList
    (declaration ++ doctype ++ before.flatMap renderLine ++ renderLine root ++
      after.flatMap renderLine)

end Document

end Manifest
