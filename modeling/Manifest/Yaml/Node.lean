import Manifest.Yaml.Token

/-!
Trees of settings texts: scalars, lists and tables, each with a tag that tells its kind. Inside a list or a
table, its anchor may stand for the whole of it.

A plain scalar without a tag gets one from its text: truth values, numbers, dates, nothing, and the
sign that merges tables have forms of their own, and any other text is just text.
-/

set_option autoImplicit false

namespace Manifest.Yaml

/-- Kinds of nodes. -/
inductive Kind where
  | text
  | list
  | table
  | nothing
  | truth
  | integer
  | real
  | date
  | binary
  /-- A table of which only the keys count. -/
  | set
  /-- A list of pairs, written as a list of tables with one key each. -/
  | pairs
  /-- The key under which a table takes over the entries of others. -/
  | merge
  /-- The key of a table's plain value. -/
  | default
  | unknown
  deriving Repr, DecidableEq, Inhabited

/-- The tags of kinds that can be written out, without what they all begin with. -/
def kindTags : List (String × Kind) :=
  [("str", .text), ("seq", .list), ("map", .table), ("null", .nothing), ("bool", .truth),
   ("int", .integer), ("float", .real), ("timestamp", .date), ("binary", .binary), ("set", .set),
   ("pairs", .pairs), ("omap", .pairs), ("merge", .merge), ("value", .default)]

/-- What the tags of the format begin with. -/
def tagPrefix : String := "tag:yaml.org,2002:"

/-- The kind of a tag. -/
def Kind.ofTag (tag : String) : Kind :=
  ((kindTags.find? fun (name, _) => tagPrefix ++ name == tag).map (·.2)).getD .unknown

/-- A node of a settings text. -/
inductive Node where
  | scalar (kind : Kind) (text : String)
  | list (kind : Kind) (items : List Node)
  | table (kind : Kind) (entries : List (Node × Node))
  /-- A node around this place, under its anchor. -/
  | around (anchor : String)
  deriving Inhabited

/-- The kind of a node. -/
def Node.kind : Node → Kind
  | .scalar kind _ | .list kind _ | .table kind _ => kind
  | .around _ => .unknown

/-! ### Forms of plain scalars -/

/-- Words for truth values, each also with a capital or in capitals throughout. -/
def truths : List (String × Bool) :=
  [("yes", true), ("no", false), ("true", true), ("false", false), ("on", true), ("off", false)]

/-- A word with a capital. -/
def capitalized (word : String) : String :=
  match word.toList with
  | [] => ""
  | c :: cs => String.ofList (c.toUpper :: cs)

/-- Whether a text is a word, the word with a capital, or the word in capitals. -/
def isWordForm (text word : String) : Bool :=
  text == word || text == capitalized word || text == word.map Char.toUpper

/-- Whether a text is a word for a truth value. -/
def isTruth (text : String) : Bool :=
  truths.any fun (word, _) => isWordForm text word

/-- Whether a text stands for nothing. -/
def isNothing (text : String) : Bool :=
  text == "" || text == "~" || isWordForm text "null"

/-- Drops a sign in front. -/
def dropSign : List Char → List Char
  | '+' :: cs | '-' :: cs => cs
  | cs => cs

/-- Whether a character is a digit or an underscore between digits. -/
def isDigitMark (c : Char) : Bool :=
  c.isDigit || c == '_'

/-- Whether a text is parts of an hour, each after a colon: two digits, the first below six. -/
def isSixtieths : List Char → Bool
  | [] => false
  | [':', a] => a.isDigit
  | ':' :: a :: b :: rest =>
    if b == ':' then a.isDigit && isSixtieths (':' :: rest)
    else a.isDigit && a < '6' && b.isDigit && (rest.isEmpty || isSixtieths rest)
  | _ => false

/-- Whether a text is an integer: binary, octal, decimal, hexadecimal, or in sixtieths. -/
def isInteger (cs : List Char) : Bool :=
  match dropSign cs with
  | ['0'] => true
  | '0' :: 'b' :: rest => !rest.isEmpty && rest.all fun c => c == '0' || c == '1' || c == '_'
  | '0' :: 'x' :: rest => !rest.isEmpty && rest.all fun c => (hexValue? c).isSome || c == '_'
  | '0' :: rest => rest.all fun c => ('0' ≤ c && c ≤ '7') || c == '_'
  | c :: rest =>
    c.isDigit &&
      let after := rest.dropWhile isDigitMark
      after.isEmpty || isSixtieths after
  | [] => false

/-- Whether a text is an exponent with its sign, or empty. -/
def isExponent : List Char → Bool
  | [] => true
  | e :: sign :: digits =>
    (e == 'e' || e == 'E') && (sign == '+' || sign == '-') && !digits.isEmpty &&
      digits.all Char.isDigit
  | _ => false

/-- Whether a text is one of the words for what is no finite number. -/
def isSpecial (cs : List Char) : Bool :=
  let word := String.ofList cs
  [".nan", ".NaN", ".NAN"].contains word ||
    [".inf", ".Inf", ".INF"].contains (String.ofList (dropSign cs))

/-- Whether a text is a number with a point. -/
def isReal (cs : List Char) : Bool :=
  isSpecial cs ||
    match cs, dropSign cs with
    | '.' :: c :: rest, _ => c.isDigit && isExponent (rest.dropWhile isDigitMark)
    | _, c :: rest =>
      c.isDigit &&
        match rest.dropWhile isDigitMark with
        | '.' :: after => isExponent (after.dropWhile isDigitMark)
        | ':' :: after =>
          let parts := after.takeWhile (· != '.')
          match after.drop parts.length with
          | '.' :: fraction => isSixtieths (':' :: parts) && fraction.all isDigitMark
          | _ => false
        | _ => false
    | _, [] => false

/-- Takes between `least` and `most` digits. -/
def takeDigits (least most : Nat) (cs : List Char) : Option (List Char × List Char) :=
  let digits := (cs.take most).takeWhile Char.isDigit
  if digits.length < least then none else some (digits, cs.drop digits.length)

/-- Drops a given character. -/
def dropChar (x : Char) : List Char → Option (List Char)
  | c :: cs => if c == x then some cs else none
  | [] => none

/-- A date as it is written, with the time of day and the distance to the standard time, if given. -/
structure DateText where
  year : List Char
  month : List Char
  day : List Char
  time : Option (List Char × List Char × List Char × List Char) := none
  zone : Option (List Char × List Char) := none
  deriving Repr, DecidableEq

/-- Whether a character separates a date and a time. -/
def isGap (c : Char) : Bool :=
  c == ' ' || c == '\t'

/-- Reads the distance to the standard time, if there is any. -/
def zone? (cs : List Char) : Option (Option (List Char × List Char)) :=
  match cs, cs.dropWhile isGap with
  | [], _ => some none
  | _, ['Z'] => some none
  | _, sign :: rest =>
    if sign != '+' && sign != '-' then none
    else do
      let (hours, rest) ← takeDigits 1 2 rest
      match rest with
      | [] => some (some (hours, []))
      | ':' :: rest =>
        let (minutes, rest) ← takeDigits 2 2 rest
        if rest.isEmpty then some (some (hours, minutes)) else none
      | _ => none
  | _, [] => none

/-- Reads a date. Only a date without time must have two digits for month and day. -/
def dateText? (cs : List Char) : Option DateText := do
  let (year, cs) ← takeDigits 4 4 cs
  let cs ← dropChar '-' cs
  let (month, cs) ← takeDigits 1 2 cs
  let cs ← dropChar '-' cs
  let (day, cs) ← takeDigits 1 2 cs
  if cs.isEmpty then
    if month.length == 2 && day.length == 2 then some { year, month, day } else none
  else
    let cs ← match cs with
      | 'T' :: rest | 't' :: rest => some rest
      | c :: rest => if isGap c then some (rest.dropWhile isGap) else none
      | [] => none
    let (hour, cs) ← takeDigits 1 2 cs
    let cs ← dropChar ':' cs
    let (minute, cs) ← takeDigits 2 2 cs
    let cs ← dropChar ':' cs
    let (second, cs) ← takeDigits 2 2 cs
    let (fraction, cs) := match cs with
      | '.' :: rest => (rest.takeWhile Char.isDigit, rest.dropWhile Char.isDigit)
      | cs => ([], cs)
    let zone ← zone? cs
    return { year, month, day, time := some (hour, minute, second, fraction), zone }

/-- The kind of a plain scalar, by its form. -/
def Kind.ofPlain (text : String) : Kind :=
  let cs := text.toList
  if isTruth text then .truth
  else if isReal cs then .real
  else if isInteger cs then .integer
  else if text == "<<" then .merge
  else if isNothing text then .nothing
  else if (dateText? cs).isSome then .date
  else if text == "=" then .default
  else if ["!", "&", "*"].contains text then .unknown
  else .text

/-! ### Trees of tokens -/

/-- How far tokens have been read. -/
structure Reading where
  tokens : List Token
  /-- Why the tokens end before the text does. -/
  fault : Fault
  anchors : List (String × Node) := []
  /-- Anchors whose nodes are being read. -/
  pending : List String := []
  handles : List (String × String) := []

/-- Reading of tokens. -/
abbrev Read := StateT Reading (Except Fault)

/-- The next token, which stays. -/
def peek : Read Token := do
  match (← get).tokens with
  | t :: _ => return t
  | [] => throw (← get).fault

/-- Drops the next token. -/
def advance : Read Unit :=
  modify fun r => { r with tokens := r.tokens.tail }

/-- Drops the next token if it is a given one, and tells whether it was. -/
def accept (t : Token) : Read Bool := do
  if (← peek) == t then
    advance
    return true
  else return false

/-- Drops a token that must come next. -/
def expect (t : Token) : Read Unit := do
  if !(← accept t) then throw .malformed

/-- Whether the next token is one of some. -/
def sees (ts : List Token) : Read Bool :=
  return ts.contains (← peek)

/-- Nothing, where a node could have been written. -/
def emptyNode : Node :=
  .scalar .nothing ""

/-- What stands in front of a node: its anchor and its tag. -/
structure Properties where
  anchor : Option String := none
  tag : Option (Option String × String) := none

/-- Reads an anchor, if there is one. -/
def anchor? : Read (Option String) := do
  match ← peek with
  | .anchor name =>
    advance
    return some name
  | _ => return none

/-- Reads a tag, if there is one. -/
def tag? : Read (Option (Option String × String)) := do
  match ← peek with
  | .tag handle suffix =>
    advance
    return some (handle, suffix)
  | _ => return none

/-- Reads what stands in front of a node, in either order. -/
def properties : Read Properties := do
  match ← anchor? with
  | some anchor => return ⟨some anchor, ← tag?⟩
  | none =>
    match ← tag? with
    | some tag => return ⟨← anchor?, some tag⟩
    | none => return {}

/-- The full tag of a node. -/
def fullTag (tag : Option (Option String × String)) : Read (Option String) := do
  match tag with
  | none => return none
  | some (none, suffix) => return some suffix
  | some (some handle, suffix) =>
    match (← get).handles.lookup handle with
    | some pfx => return some (pfx ++ suffix)
    | none => throw .malformed

/-- The kind that a tag gives, where a tag that says nothing is none. -/
def kindOr (tag : Option String) (otherwise : Kind) : Kind :=
  match tag with
  | none => otherwise
  | some tag => if tag == "!" then otherwise else Kind.ofTag tag

/-- The kind of a scalar. -/
def scalarKind (tag : Option String) (text : String) (plain : Bool) : Kind :=
  match tag with
  | none => if plain then Kind.ofPlain text else .text
  | some tag => if tag == "!" then Kind.ofPlain text else Kind.ofTag tag

/-- Reads a node under its anchor: the anchor must be new, and it can be used after the node. -/
def anchored (anchor : Option String) (node : Read Node) : Read Node := do
  match anchor with
  | none => node
  | some name =>
    let r ← get
    if (r.anchors.lookup name).isSome || r.pending.contains name then throw .malformed
    set { r with pending := name :: r.pending }
    let node ← node
    modify fun r =>
      { r with anchors := (name, node) :: r.anchors, pending := r.pending.filter (· != name) }
    return node

/-- The node that an alias stands for. -/
def aliased (name : String) : Read Node := do
  let r ← get
  match r.anchors.lookup name with
  | some node => return node
  | none => if r.pending.contains name then return .around name else throw .malformed

mutual

/--
Reads a node; `block` tells whether it may be written by indentation, and `dashes` whether it may be
a list without indentation of its own.
-/
def node (block dashes : Bool) : Nat → Read Node
  | 0 => throw .malformed
  | fuel + 1 => do
    match ← peek with
    | .alias name =>
      advance
      aliased name
    | _ =>
      let p ← properties
      let tag ← fullTag p.tag
      anchored p.anchor (content block dashes p tag fuel)

/-- Reads a node after what stands in front of it. -/
def content (block dashes : Bool) (p : Properties) (tag : Option String) : Nat → Read Node
  | 0 => throw .malformed
  | fuel + 1 => do
    match ← peek, block with
    | .blockEntry, _ =>
      if dashes then return .list (kindOr tag .list) (← dashEntries fuel)
      else bare p tag
    | .scalar text plain, _ =>
      advance
      return .scalar (scalarKind tag text plain) text
    | .flowSequenceStart, _ =>
      advance
      return .list (kindOr tag .list) (← flowEntries true fuel)
    | .flowMappingStart, _ =>
      advance
      return .table (kindOr tag .table) (← flowPairs true fuel)
    | .blockSequenceStart, true =>
      advance
      return .list (kindOr tag .list) (← blockEntries fuel)
    | .blockMappingStart, true =>
      advance
      return .table (kindOr tag .table) (← blockPairs fuel)
    | _, _ => bare p tag

/-- A node of which there is only what stands in front of it. -/
def bare (p : Properties) (tag : Option String) : Read Node := do
  if p.anchor.isSome || p.tag.isSome then return .scalar (scalarKind tag "" true) ""
  else throw .malformed

/-- The entries of a list with indentation, up to its end. -/
def blockEntries : Nat → Read (List Node)
  | 0 => throw .malformed
  | fuel + 1 => do
    if ← accept .blockEntry then
      let item ← if ← sees [.blockEntry, .blockEnd] then pure emptyNode else node true false fuel
      return item :: (← blockEntries fuel)
    else
      expect .blockEnd
      return []

/-- The entries of a list without indentation of its own. -/
def dashEntries : Nat → Read (List Node)
  | 0 => throw .malformed
  | fuel + 1 => do
    if ← accept .blockEntry then
      let item ←
        if ← sees [.blockEntry, .key, .value, .blockEnd] then pure emptyNode
        else node true false fuel
      return item :: (← dashEntries fuel)
    else return []

/-- The entries of a table with indentation, up to its end. -/
def blockPairs : Nat → Read (List (Node × Node))
  | 0 => throw .malformed
  | fuel + 1 => do
    if ← accept .key then
      let key ←
        if ← sees [.key, .value, .blockEnd] then pure emptyNode else node true true fuel
      let value ← blockValue fuel
      return (key, value) :: (← blockPairs fuel)
    else
      expect .blockEnd
      return []

/-- The value of an entry of a table with indentation. -/
def blockValue : Nat → Read Node
  | 0 => throw .malformed
  | fuel + 1 => do
    if ← accept .value then
      if ← sees [.key, .value, .blockEnd] then return emptyNode else node true true fuel
    else return emptyNode

/-- The entries of a list in brackets, up to its end. -/
def flowEntries (first : Bool) : Nat → Read (List Node)
  | 0 => throw .malformed
  | fuel + 1 => do
    if ← accept .flowSequenceEnd then return []
    if !first then expect .flowEntry
    if ← accept .key then
      let key ←
        if ← sees [.value, .flowEntry, .flowSequenceEnd] then pure emptyNode
        else node false false fuel
      let value ← flowValue .flowSequenceEnd fuel
      return .table .table [(key, value)] :: (← flowEntries false fuel)
    else if ← accept .flowSequenceEnd then return []
    else
      let item ← node false false fuel
      return item :: (← flowEntries false fuel)

/-- The value of an entry in brackets that are closed by a given one. -/
def flowValue (close : Token) : Nat → Read Node
  | 0 => throw .malformed
  | fuel + 1 => do
    if ← accept .value then
      if ← sees [.flowEntry, close] then return emptyNode else node false false fuel
    else return emptyNode

/-- The entries of a table in brackets, up to its end. -/
def flowPairs (first : Bool) : Nat → Read (List (Node × Node))
  | 0 => throw .malformed
  | fuel + 1 => do
    if ← accept .flowMappingEnd then return []
    if !first then expect .flowEntry
    if ← accept .key then
      let key ←
        if ← sees [.value, .flowEntry, .flowMappingEnd] then pure emptyNode
        else node false false fuel
      let value ← flowValue .flowMappingEnd fuel
      return (key, value) :: (← flowPairs false fuel)
    else if ← accept .flowMappingEnd then return []
    else
      let key ← node false false fuel
      return (key, emptyNode) :: (← flowPairs false fuel)

end

/-- Handles of tags that every document has. -/
def commonHandles : List (String × String) :=
  [("!", "!"), ("!!", tagPrefix)]

/-- Reads directives: `version` tells whether one has named the version already. -/
def directives (version : Bool) (handles : List (String × String)) :
    List Token → Except Fault (List (String × String) × List Token)
  | .directive (.version major) :: rest =>
    if version || major != 1 then .error .malformed else directives true handles rest
  | .directive (.tag handle pfx) :: rest =>
    if (handles.lookup handle).isSome then .error .malformed
    else directives version (handles ++ [(handle, pfx)]) rest
  | .directive .other :: rest => directives version handles rest
  | rest => .ok (handles ++ commonHandles, rest)

/-- Whether a document begins without a mark of its own. -/
def startsBare : Token → Bool
  | .directive _ | .documentStart | .streamEnd => false
  | _ => true

/-- The node of a document, with the tokens after it. -/
def documentNode (fuel : Nat) : Read Node := do
  if ← sees [.documentStart, .documentEnd, .streamEnd] then return emptyNode
  match ← peek with
  | .directive _ => return emptyNode
  | _ => node true false fuel

/-- Reads the beginning of a document that begins with a mark; tells whether there is one. -/
def documentMark : Read Bool := do
  modify fun r => { r with tokens := r.tokens.dropWhile (· == .documentEnd) }
  if ← sees [.streamEnd] then return false
  let r ← get
  let (handles, tokens) ← directives false [] r.tokens
  set { r with handles := handles, tokens := tokens }
  expect .documentStart
  return true

/-- Reads the first document of a text, if it has one. -/
def firstDocument (fuel : Nat) : Read (Option Node) := do
  if startsBare (← peek) then
    modify fun r => { r with handles := commonHandles }
    return some (← node true false fuel)
  else if ← documentMark then return some (← documentNode fuel)
  else return none

/-- Reads the only document of a text; a text without one has no node. -/
def onlyDocument (fuel : Nat) : Read (Option Node) := do
  let found ← firstDocument fuel
  if ← documentMark then throw .malformed
  return found

/-- The tree of a text, if it has a document. -/
def Node.read? (text : List Char) : Except Fault (Option Node) :=
  let (tokens, fault) := tokens text
  (onlyDocument (8 * tokens.length + 8)).run' { tokens, fault }

end Manifest.Yaml
