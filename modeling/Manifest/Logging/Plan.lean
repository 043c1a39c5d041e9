import Manifest.Logging.Output
import Manifest.Logging.Template

/-!
Plans of logging: settings that say which templates, filters, handlers and loggers there are to be.

A plan is carried out part by part in that order. A part that makes no sense ends it, and what was
done before stays.
-/

set_option autoImplicit false

namespace Manifest.Logging

open Yaml (Value Entries)

/-- Why a plan cannot be carried out. -/
inductive PlanError where
  /-- The plan is written for another version. -/
  | version
  /-- A part is not of the form that it should have. -/
  | form
  /-- A threshold is neither a number nor the name of one. -/
  | threshold
  /-- A template has no fields, or its fields are not well formed. -/
  | template
  /-- Something is called for by a name that nothing has. -/
  | unknown
  /-- A setting is there that nobody asks for, or one is not there that is needed. -/
  | setting
  /-- A file cannot be opened. -/
  | opening (e : OpenError)
  deriving Repr, DecidableEq

/-- What a plan changes: the loggers, and where their records go. -/
structure Arrangement extends Outlets where
  loggers : Loggers := {}
  deriving Inhabited

/-- Carrying out a part of a plan. -/
abbrev Arranging (α : Type) := ExceptT PlanError (StateM Arrangement) α

namespace Plan

/-! ### Forms -/

/-- What a part goes through when it goes through a value item by item. -/
def items? : Value → Option (List Value)
  | .list items | .set items => some items
  | .bytes content => some (content.map fun b => .int b.toNat)
  | .table entries => some (entries.map (·.1))
  | .text s => some (s.toList.map fun c => .text c.toString)
  | _ => none

/-- The entries of a value that should be a table. -/
def entriesOf : Value → Except PlanError Entries
  | .table entries => .ok entries
  | _ => .error .form

/-- The entries of a part of a plan. A part that is not there has none, nor has one that is empty. -/
def part (plan : Entries) (key : String) : Except PlanError Entries :=
  match plan.get? key with
  | none | some (.text "") | some (.bytes []) | some (.list []) | some (.set []) => .ok []
  | some v => entriesOf v

/-- The value under a key, if it is there and counts as true. -/
def given? (entries : Entries) (key : String) : Option Value :=
  (entries.get? key).filter (·.isTrue)

/-- The value under a key, or nothing. -/
def valueOf (entries : Entries) (key : String) : Value :=
  (entries.get? key).getD .null

/-- What stands under a key in a table of things that have been made. -/
def made? {α : Type} (table : List (Value × α)) (key : Value) : Option α :=
  (table.find? fun (k, _) => k.sameKey key).map (·.2)

/-- The key under which settings name the maker of a thing. -/
def makerKey : String := "()"

/-- The key under which settings hold further properties of a thing. -/
def propertiesKey : String := "."

/-- Whether what should be properties can be set. -/
def areProperties (v : Value) : Bool :=
  match v with
  | .table entries => entries.all fun (k, _) => match k with
    | .text _ => true
    | _ => false
  | v => !v.isTrue

/-- What begins a setting that stands for something of the process itself. -/
def outsidePrefixes : List String := ["ext://", "cfg://"]

/-- The streams of the process. -/
def streams : List String :=
  ["stdin", "stdout", "stderr"].flatMap fun s => ["ext://sys." ++ s, "ext://sys.__" ++ s ++ "__"]

/-- Whether a setting stands for something of the process itself. -/
def isOutside : Value → Bool
  | .text s => outsidePrefixes.any (·.isPrefixOf s)
  | _ => false

/-- The text that names the maker of a thing, with or without the mark of something outside. -/
def makerName? : Value → Option String
  | .text s => some (if "ext://".isPrefixOf s then String.ofList (s.toList.drop 6) else s)
  | _ => none

/-- Makes sure that settings hold nothing but what is asked for, and all that is needed. -/
def checkSettings (allowed needed : List String) (entries : Entries) : Except PlanError Unit :=
  let known := entries.all fun (k, _) => match k with
    | .text s => s == propertiesKey || allowed.contains s
    | _ => false
  if known && needed.all fun s => (entries.get? s).isSome then .ok () else .error .setting

/-! ### Templates and filters -/

/-- Makes sure that a template can be used. -/
def checkTemplate (template marking : Value) (checked : Bool) : Except PlanError Unit :=
  match marking with
  | .text sign =>
    match Marking.signs.lookup sign with
    | none => .error .template
    | some m =>
      if !checked || !template.isTrue then .ok ()
      else match template with
        | .text s => if Template.isUsable m s then .ok () else .error .template
        | _ => .error .template
  | _ => .error .template

/-- Whether settings ask for a template to be checked; they do unless they say otherwise. -/
def asksCheck (entries : Entries) : Bool :=
  ((entries.get? "validate").map Value.isTrue).getD true

/-- The marking that settings ask for. -/
def markingOf (entries : Entries) : Value :=
  (entries.get? "style").getD (.text "%")

/-- The one kind of template there is. -/
def templateClass : String := "logging.Formatter"

/-- Makes sure that settings describe a template. -/
def checkTemplateSettings (v : Value) : Except PlanError Unit := do
  let entries ← entriesOf v
  match entries.get? makerKey with
  | some maker =>
    if makerName? maker != some templateClass then throw .unknown
    checkSettings [makerKey, "fmt", "format", "datefmt", "style", "validate", "defaults"] [] entries
    let template := ((entries.get? "format").or (entries.get? "fmt")).getD .null
    checkTemplate template (markingOf entries) (asksCheck entries)
    if !areProperties (valueOf entries propertiesKey) then throw .form
  | none =>
    match given? entries "class" with
    | none => pure ()
    | some (.text name) => if name != templateClass then throw .unknown
    | some _ => throw .unknown
    checkTemplate (valueOf entries "format") (markingOf entries) (asksCheck entries)

/-- The name of a filter. -/
def filterName : Value → Except PlanError String
  | .text s => .ok s
  | .bytes [] | .list [] | .set [] | .table [] => .ok ""
  | _ => .error .form

/-- The filter that settings describe: the name of the loggers whose records pass. -/
def filterOf (v : Value) : Except PlanError String := do
  let entries ← entriesOf v
  match entries.get? makerKey with
  | some maker =>
    if makerName? maker != some "logging.Filter" then throw .unknown
    checkSettings [makerKey, "name"] [] entries
    if !areProperties (valueOf entries propertiesKey) then throw .form
  | none => pure ()
  filterName ((entries.get? "name").getD (.text ""))

/-- The filters that a value calls for by their names. -/
def filtersNamed (filters : List (Value × String)) (v : Value) : Except PlanError (List String) :=
  match items? v with
  | none => .error .form
  | some names => names.mapM fun n =>
    match made? filters n with
    | some f => .ok f
    | none => .error .unknown

/-! ### Handlers -/

/-- The settings that a kind of handler takes, and those that it needs. -/
def settingsOf : Kind → List String × List String
  | .stream => (["stream"], [])
  | .null => ([], [])
  | .file | .watched =>
    (["filename", "mode", "encoding", "delay", "errors"], ["filename"])
  | .rotating =>
    (["filename", "mode", "maxBytes", "backupCount", "encoding", "delay", "errors"], ["filename"])
  | .timed =>
    (["filename", "when", "interval", "backupCount", "encoding", "delay", "utc", "atTime", "errors"],
      ["filename"])
  | .buffering => (["capacity"], ["capacity"])
  | .memory => (["capacity", "flushLevel", "target", "flushOnClose"], ["capacity"])

/-- Whether a value is a number. -/
def isNumber : Value → Bool
  | .bool _ | .int _ | .decimal .. | .infinity _ | .notANumber => true
  | _ => false

/-- Whether a value is a number above nought. -/
def isPositive : Value → Bool
  | .bool b => b
  | .int n => 0 < n
  | .decimal negative mantissa _ => !negative && mantissa != 0
  | .infinity negative => !negative
  | _ => false

/-- Whether a file is to be put aside when so much time has passed. -/
def isPeriod (when_ : String) : Bool :=
  let w := when_.toUpper
  ["S", "M", "H", "D", "MIDNIGHT"].contains w ||
    match w.toList with
    | ['W', d] => '0' ≤ d && d ≤ '6'
    | _ => false

/-- Whether a period ends at a time of the day. -/
def endsByClock (when_ : String) : Bool :=
  let w := when_.toUpper
  w == "MIDNIGHT" || "W".isPrefixOf w

/-- Whether a value is nothing, or holds a time of the day. -/
def isClockTime : Value → Bool
  | .null => true
  | .date d => d.time.isSome
  | _ => false

/-- Makes sure that the settings of putting a file aside make sense. -/
def checkPeriod (entries : Entries) : Except PlanError Unit :=
  match (entries.get? "when").getD (.text "h") with
  | .text w =>
    if isPeriod w && isNumber ((entries.get? "interval").getD (.int 1)) &&
        (!endsByClock w || isClockTime (valueOf entries "atTime")) then .ok ()
    else .error .setting
  | _ => .error .setting

/-- The file that settings of a handler ask for. -/
def fileUse (k : Kind) (entries : Entries) : Except PlanError FileUse := do
  let .text name := valueOf entries "filename" | throw .setting
  let mode := (entries.get? "mode").getD (.text "a")
  let largest := (entries.get? "maxBytes").getD (.int 0)
  if k == .rotating && !isNumber largest then throw .setting
  let mode := if k == .rotating && isPositive largest then .text "a" else mode
  let .text _ := mode | throw .setting
  return { name, mode, encoding := valueOf entries "encoding", errors := valueOf entries "errors" }

/-- Changes the files of an arrangement. -/
def changeTree (f : FileTree → FileTree × Except OpenError Unit) : Arranging Unit := do
  let (tree, done) := f (← get).tree
  modify fun a => { a with tree }
  match done with
  | .ok () => pure ()
  | .error e => throw (.opening e)

/-- A result that leaves everything as it is. -/
def known {α : Type} : Except PlanError α → Arranging α
  | .ok a => pure a
  | .error e => throw e

/-- Makes a handler of a kind, with its file unless that is to wait. -/
def makeHandler (number : Nat) (k : Kind) (entries : Entries) : Arranging Handler := do
  let (allowed, needed) := settingsOf k
  known (checkSettings allowed needed entries)
  if k.writesFile then
    let u ← known (fileUse k entries)
    let waits := (valueOf entries "delay").isTrue
    if !waits then changeTree u.start
    if k == .timed then known (checkPeriod entries)
    return { kind := k, pending := if waits then some ⟨number, u⟩ else none }
  else return { kind := k }

/-- What has been made so far, and what is still to be made, when a handler is made. -/
structure Workshop where
  templates : List Value
  filters : List (Value × String)
  plans : Entries
  handlers : List (Value × Handler) := []

/-- Whether a handler has to wait for the one that it keeps records for. -/
def mustWait (w : Workshop) (k : Kind) (entries : Entries) : Except PlanError Bool :=
  match k, entries.get? "target" with
  | .memory, some target =>
    if (made? w.plans target).isNone then .error .unknown
    else .ok (made? w.handlers target).isNone
  | _, _ => .ok false

/-- Entries without those under some keys. -/
def without (entries : Entries) (keys : List String) : Entries :=
  entries.filter fun (k, _) => !keys.any fun s => k.sameKey (.text s)

/-- The kind of handler that settings call for, and the settings that are left for it. -/
def kindOf (entries : Entries) : Except PlanError (Kind × Entries) := do
  let (name?, entries) ← match entries.get? makerKey with
    | some maker => .ok (makerName? maker, without entries [makerKey])
    | none =>
      match entries.get? "class" with
      | some (.text name) => .ok (some name, without entries ["class"])
      | _ => .error .setting
  match name?.bind Kind.named? with
  | some k => return (k, entries)
  | none => throw .unknown

/-- Whether all that settings take from the process itself is there for the taking. -/
def takesFromOutside (entries : Entries) : Bool :=
  entries.all fun (k, v) =>
    !isOutside v || k.sameKey (.text makerKey) ||
      (k.sameKey (.text "stream") && match v with
        | .text s => streams.contains s
        | _ => false)

/-- Makes a handler as settings describe it; none if it has to wait for another one. -/
def arrangeHandler (w : Workshop) (v : Value) : Arranging (Option Handler) := do
  let entries ← known (entriesOf v)
  if !takesFromOutside entries then throw .unknown
  if let some template := given? entries "formatter" then
    if !w.templates.any (·.sameKey template) then throw .unknown
  let left := without entries ["formatter", "level", "filters"]
  let (k, left) ← known (kindOf left)
  if ← known (mustWait w k left) then return none
  let h ← makeHandler w.handlers.length k left
  let threshold ← match entries.get? "level" with
    | none | some .null => pure .unset
    | some level =>
      match Threshold.ofValue? level with
      | some t => pure t
      | none => throw .threshold
  let scopes ← match given? entries "filters" with
    | none => pure []
    | some names => known (filtersNamed w.filters names)
  if !areProperties (valueOf entries propertiesKey) then throw .form
  return some { h with threshold, scopes }

/-- Whether a name comes before another one, or none if names of their kinds have no order. -/
def comesBefore? (a b : Value) : Option Bool :=
  match a, b with
  | .text a, .text b => some (decide (a ≤ b))
  | a, b =>
    match a.fraction?, b.fraction? with
    | some (n, d), some (n', d') => some (decide (n * (d' : Int) ≤ n' * (d : Int)))
    | _, _ => none

/-- Entries in the order of their keys. -/
def sorted (entries : Entries) : Except PlanError Entries :=
  let keys := entries.map (·.1)
  if keys.length ≤ 1 || keys.all fun a => keys.all fun b => (comesBefore? a b).isSome then
    .ok (entries.mergeSort fun a b => (comesBefore? a.1 b.1).getD true)
  else .error .form

/-- Makes handlers, and tells which of them have to wait. -/
def arrangeHandlers (w : Workshop) : Entries → Arranging (Workshop × Entries)
  | [] => return (w, [])
  | (name, v) :: rest => do
    match ← arrangeHandler w v with
    | some h => arrangeHandlers { w with handlers := w.handlers ++ [(name, h)] } rest
    | none =>
      let (w, waiting) ← arrangeHandlers w rest
      return (w, (name, v) :: waiting)

/-! ### Loggers -/

/-- Adds handlers to a logger by their names, each of them once. -/
def addHandlers (handlers : List (Value × Handler)) (n : Name) (seen : List Value) :
    List Value → Arranging Unit
  | [] => pure ()
  | name :: rest => do
    match made? handlers name with
    | none => throw .unknown
    | some h =>
      if seen.any (·.sameKey name) then addHandlers handlers n seen rest
      else
        modify fun a => { a with
          loggers := a.loggers.modify n fun l => { l with handlers := l.handlers ++ [h] } }
        addHandlers handlers n (name :: seen) rest

/-- Changes a logger. -/
def changeLogger (n : Name) (f : Logger → Logger) : Arranging Unit :=
  modify fun a => { a with loggers := a.loggers.modify n f }

/-- Does to a logger what all loggers can have done to them. -/
def arrangeCommon (w : Workshop) (additive : Bool) (n : Name) (entries : Entries) :
    Arranging Unit := do
  match entries.get? "level" with
  | none | some .null => pure ()
  | some level =>
    match Threshold.ofValue? level with
    | some threshold => changeLogger n fun l => { l with threshold }
    | none => throw .threshold
  if additive then return
  changeLogger n fun l => { l with handlers := [] }
  if let some names := given? entries "handlers" then
    match items? names with
    | some names => addHandlers w.handlers n [] names
    | none => throw .form
  if let some names := given? entries "filters" then
    let scopes ← known (filtersNamed w.filters names)
    changeLogger n fun l => { l with scopes := l.scopes ++ scopes }

/-- The logger that a key names. Whatever counts as false names the one at the top. -/
def loggerNamed (key : Value) : Except PlanError Name :=
  match key with
  | .text s => .ok (Name.ofText s)
  | key => if key.isTrue then .error .form else .ok .root

/-- Does to a logger what settings say, and tells which one it was. -/
def arrangeLogger (w : Workshop) (additive : Bool) (key v : Value) : Arranging Name := do
  let n ← known (loggerNamed key)
  let entries ← known (entriesOf v)
  arrangeCommon w additive n entries
  changeLogger n fun l => { l with silent := false }
  match entries.get? "propagate" with
  | none | some .null => pure ()
  | some v => changeLogger n fun l => { l with propagates := v.isTrue }
  return n

/-- Does to the logger at the top what settings say. -/
def arrangeRoot (w : Workshop) (additive : Bool) (plan : Entries) : Arranging Unit := do
  if let some v := given? plan "root" then
    arrangeCommon w additive .root (← known (entriesOf v))

/-- The loggers that there are before any plan is carried out: that of the program and those of its parts. -/
def standing : List Name :=
  [.program, .merging] ++ ["config.manager", "core.document", "core.normalizer", "core.paths",
    "core.services.manifest_service", "core.versions"].map fun part =>
      .below ("pom_toolkit." ++ part)

/--
Silences the standing loggers that a plan says nothing of, or lets them speak again. A plan that speaks of
a name above that of a logger says something of the logger, too.
-/
def settleStanding (spoken : List Name) (silent : Bool) (ls : Loggers) : Loggers :=
  standing.foldl (fun ls n =>
    if spoken.contains n || n.above.any fun m => m != .root && spoken.contains m then ls
    else ls.modify n fun l => { l with silent }) ls

/-! ### Whole plans -/

/-- Carries out a plan that only changes thresholds and the ways of records. -/
def arrangeAdditive (plan : Entries) : Arranging Unit := do
  let handlers ← known (part plan "handlers")
  if !handlers.isEmpty then throw .unknown
  let w : Workshop := { templates := [], filters := [], plans := [] }
  for (key, v) in ← known (part plan "loggers") do
    let _ ← arrangeLogger w true key v
  arrangeRoot w true plan

/-- Carries out a plan that puts everything in place. -/
def arrangeWhole (plan : Entries) : Arranging Unit := do
  let templates ← known (part plan "formatters")
  known (templates.forM fun (_, v) => checkTemplateSettings v)
  let filters ← known ((← known (part plan "filters")).mapM fun (k, v) => return (k, ← filterOf v))
  let plans ← known (part plan "handlers")
  let (w, waiting) ← arrangeHandlers { templates := templates.map (·.1), filters, plans }
    (← known (sorted plans))
  let (w, waiting) ← arrangeHandlers w waiting
  if !waiting.isEmpty then throw .unknown
  let spoken ← (← known (part plan "loggers")).mapM fun (key, v) => arrangeLogger w false key v
  let silent := ((plan.get? "disable_existing_loggers").map Value.isTrue).getD true
  modify fun a => { a with loggers := settleStanding spoken silent a.loggers }
  arrangeRoot w false plan

/-- Carries out a plan. -/
def arrange (plan : Entries) : Arranging Unit := do
  match plan.get? "version" with
  | some v => if !v.sameKey (.int 1) then throw .version
  | none => throw .version
  if (given? plan "incremental").isSome then arrangeAdditive plan else arrangeWhole plan

end Plan

end Manifest.Logging
