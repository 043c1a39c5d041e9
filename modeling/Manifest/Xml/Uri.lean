import Manifest.Text.Ranges

/-!
References to resources, by the generic syntax: an optional scheme, an optional authority, a path,
and an optional query and fragment.

A namespace is named by such a reference; whether it has a scheme tells an absolute one from a
relative one.
-/

set_option autoImplicit false

namespace Manifest.Xml.Uri

/-- Letters and digits of the Latin alphabet. -/
def isAlphanumeric (c : Char) : Bool :=
  c.isAlpha || c.isDigit

/-- Characters that always stand for themselves. -/
def isUnreserved (c : Char) : Bool :=
  isAlphanumeric c || "-._~".toList.contains c

/-- Characters that delimit parts inside a component. -/
def isDelimiter (c : Char) : Bool :=
  "!$&'()*+,;=".toList.contains c

/-- Whether a character is a hexadecimal digit. -/
def isHex (c : Char) : Bool :=
  c.isDigit || ('a' ≤ c && c ≤ 'f') || ('A' ≤ c && c ≤ 'F')

/-- Whether a text consists of characters of a class and of percent escapes. -/
def escapedAll (p : Char → Bool) : List Char → Bool
  | [] => true
  | '%' :: a :: b :: rest => isHex a && isHex b && escapedAll p rest
  | c :: rest => c != '%' && p c && escapedAll p rest

/-- Characters of a path segment. -/
def isSegmentChar (c : Char) : Bool :=
  isUnreserved c || isDelimiter c || c == ':' || c == '@'

/-- Whether a text is a scheme: a letter, then letters, digits, plus, minus and dots. -/
def isScheme : List Char → Bool
  | [] => false
  | c :: cs => c.isAlpha && cs.all fun d => isAlphanumeric d || "+-.".toList.contains d

/-- The largest number of an endpoint at a host. -/
def maxEndpoint : Nat := 99999999

/-- Whether a text numbers an endpoint: nothing, or a number that is not too large. -/
def isEndpoint (cs : List Char) : Bool :=
  cs.all Char.isDigit && cs.foldl (fun n c => 10 * n + (c.toNat - 48)) 0 ≤ maxEndpoint

/-- Whether a text names a host and an endpoint, after the part that names a user. -/
def isHostEndpoint : List Char → Bool
  | '[' :: rest =>
    let inside := rest.takeWhile (· != ']')
    match rest.drop inside.length with
    | ']' :: ':' :: endpoint => isEndpoint endpoint
    | [']'] => true
    | _ => false
  | cs =>
    let host := cs.takeWhile (· != ':')
    escapedAll (fun c => isUnreserved c || isDelimiter c) host &&
      match cs.drop host.length with
      | [] => true
      | _ :: endpoint => isEndpoint endpoint

/-- Whether a text is an authority: an optional user, a host, an optional endpoint. -/
def isAuthority (cs : List Char) : Bool :=
  let user := cs.takeWhile (· != '@')
  match cs.drop user.length with
  | '@' :: rest =>
    escapedAll (fun c => isUnreserved c || isDelimiter c || c == ':') user && isHostEndpoint rest
  | _ => isHostEndpoint cs

/-- Whether a text is a path of segments. -/
def isPath (cs : List Char) : Bool :=
  escapedAll (fun c => isSegmentChar c || c == '/') cs

/-- Whether a text is what follows a scheme: an authority with a path, or a path alone. -/
def isHierarchy : List Char → Bool
  | '/' :: '/' :: rest =>
    let authority := rest.takeWhile (· != '/')
    isAuthority authority && isPath (rest.drop authority.length)
  | cs => isPath cs

/-- A reference cut into its scheme, if it has one, and the rest up to the query. -/
structure Parts where
  scheme : Option (List Char)
  body : List Char
  deriving Repr, DecidableEq

/-- Splits a text at its first colon if what stands before it is a scheme. -/
def splitScheme (cs : List Char) : Parts :=
  let front := cs.takeWhile fun c => c != ':' && c != '/'
  match cs.drop front.length with
  | ':' :: rest => if isScheme front then ⟨some front, rest⟩ else ⟨none, cs⟩
  | _ => ⟨none, cs⟩

/-- Characters of a query or a fragment. -/
def isQueryChar (c : Char) : Bool :=
  isSegmentChar c || c == '/' || c == '?'

/-- Characters of a fragment. -/
def isFragmentChar (c : Char) : Bool :=
  isQueryChar c || c == '[' || c == ']'

/-- Whether the first segment of a relative path holds no colon. -/
def firstSegmentPlain (cs : List Char) : Bool :=
  !(cs.takeWhile (· != '/')).contains ':'

/-- The parts of a reference, if the text is one. -/
def parse? (cs : List Char) : Option Parts :=
  let front := cs.takeWhile (· != '#')
  let fragment := (cs.drop front.length).drop 1
  let body := front.takeWhile (· != '?')
  let query := (front.drop body.length).drop 1
  let parts := splitScheme body
  if escapedAll isFragmentChar fragment && escapedAll isQueryChar query && isHierarchy parts.body &&
      (parts.scheme.isSome || firstSegmentPlain parts.body) then
    some parts
  else none

/-- Whether a text is a reference to a resource. -/
def isReference (s : String) : Bool :=
  (parse? s.toList).isSome

/-- Whether a text is a reference with a scheme. -/
def isAbsolute (s : String) : Bool :=
  (parse? s.toList).any (·.scheme.isSome)

end Manifest.Xml.Uri
