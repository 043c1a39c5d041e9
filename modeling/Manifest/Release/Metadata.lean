import Manifest.Document.Read
import Manifest.Release

/-!
Repository metadata: a document that lists the releases of an artifact.

The releases are the versions that the metadata lists. If it lists none, the latest version it names
stands for them, and if it names none, the last release.
-/

set_option autoImplicit false

namespace Manifest.Release

/-- The source given to repository metadata. -/
def metadataSource : String := "maven-metadata.xml"

/-- Text in front of the first child that is not text. -/
def leadingText (e : Element) : String :=
  String.join ((e.children.takeWhile fun node =>
    match node with
    | .text _ => true
    | _ => false).map Node.textValue)

/-- The child elements of a given name outside every namespace. -/
def plainChildren (name : String) (e : Element) : List Element :=
  e.elements.filter fun child => child.name == name && child.tag.uri.isNone

/-- The elements at the end of a path of names, in document order. -/
def descend (e : Element) : List String → List Element
  | [] => [e]
  | name :: rest => (plainChildren name e).flatMap fun child => descend child rest

/-- The text of the first element at the end of a path, if it has any. -/
def firstText? (e : Element) (path : List String) : Option String :=
  (((descend e path).head?).map leadingText).filter (!·.isEmpty)

/-- The releases that metadata names, given its root. -/
def releasesOf (root : Element) : List String :=
  let listed := (descend root ["versioning", "versions", "version"]).map fun e =>
    Text.strip (leadingText e)
  match listed.filter (!·.isEmpty) with
  | [] =>
    match (firstText? root ["versioning", "latest"]).or
        (firstText? root ["versioning", "release"]) with
    | some version => [Text.strip version]
    | none => []
  | versions => versions

/-- The releases that the contents of metadata name. -/
def releasesIn (contents : Option Xml.Contents) : Except ReadError (List String) :=
  match contents.bind fun c => (elementsOf c.nodes).head? with
  | none => .error (.malformed (some metadataSource))
  | some root => .ok (releasesOf root)

/-- The releases named by metadata that is given as text. -/
def readMetadata (text : String) : Except ReadError (List String) :=
  releasesIn (Xml.readDocument text.toList)

/-- The releases named by metadata that is given as bytes. -/
def readStoredMetadata (bytes : ByteArray) : Except ReadError (List String) :=
  releasesIn (readStored bytes)

end Manifest.Release
