import Manifest.Proofs.Section.Path
import Manifest.Proofs.Xml.Numbering
import Manifest.Proofs.Xml.Settled
import Manifest.Proofs.Xml.Written

/-! Inside what was written. A document is written and read, and then the children of one of its elements
are replaced. What is written for it differs from what was written before only by what is written for
those children. -/

set_option autoImplicit false

namespace Manifest

open Xml (Scope Site)

/-! What is known is ordinary. -/

namespace Xml

mutual

theorem ordinary_of_known {origin : Scope} (node : Node) (h : node.known origin) :
    node.ordinary := by
  cases node with
  | element tag children =>
    obtain ⟨⟨inner, htag, hchildren⟩, ha⟩ := h
    exact ⟨htag.ordinary, ha, ordinaries_of_knownAll children hchildren⟩
  | text value => trivial
  | comment value => exact h
  | instruction target value => exact h.1

theorem ordinaries_of_knownAll {origin : Scope} (nodes : List Node) (h : knownAll origin nodes) :
    ordinaries nodes := by
  cases nodes with
  | nil => trivial
  | cons node rest => exact ⟨ordinary_of_known node h.1, ordinaries_of_knownAll rest h.2⟩

end

namespace Markup

theorem isElement_of_isText {m : Markup} (h : m.isText = true) : m.isElement = false := by
  cases m <;> first | rfl | cases h

@[simp] theorem isElement_indent (unit : String) (level : Nat) (m : Markup) :
    (m.indent unit level).isElement = m.isElement := by
  cases m with
  | element name attributes children => rw [indent]; split <;> rfl
  | _ => rfl

/-! The children of an element in front of a node among them, indented. -/

section
variable (unit : String) (level : Nat)

/-- The break that stands where white space has not been settled yet. -/
def breakIf (gap : Bool) : List Markup :=
  if gap then [lineBreak unit level] else []

/-- Nodes in front of another one, indented, without the break in front of that one. -/
def indentFront : Bool → List Markup → List Markup
  | _, [] => []
  | gap, m :: rest =>
    if m.isBlank then breakIf unit level gap ++ indentFront false rest
    else if m.isText then m :: indentFront false rest
    else breakIf unit level gap ++ m.indent unit (level + 1) :: indentFront true rest

/-- Whether the white space behind some nodes has not been settled yet. -/
def gapAfter : Bool → List Markup → Bool
  | gap, [] => gap
  | _, m :: rest => gapAfter (!m.isText) rest

theorem indentFront_blank {m : Markup} (h : m.isBlank = true) (gap : Bool) (rest : List Markup) :
    indentFront unit level gap (m :: rest) =
      breakIf unit level gap ++ indentFront unit level false rest := by
  rw [indentFront, if_pos h]

theorem indentFront_text {m : Markup} (h : m.isText = true) (hb : m.isBlank = false) (gap : Bool)
    (rest : List Markup) :
    indentFront unit level gap (m :: rest) = m :: indentFront unit level false rest := by
  rw [indentFront, hb, if_neg (by simp), if_pos h]

theorem indentFront_node {m : Markup} (h : m.isText = false) (gap : Bool) (rest : List Markup) :
    indentFront unit level gap (m :: rest) =
      breakIf unit level gap ++ m.indent unit (level + 1) :: indentFront unit level true rest := by
  rw [indentFront, not_isBlank_of_not_isText h, if_neg (by simp), h]
  exact if_neg (by simp)

/-- Indentation goes on behind a node as if there was nothing in front of it. -/
theorem indentNodes_append_node {m : Markup} (hm : m.isText = false) (front rest : List Markup)
    (gap : Bool) :
    indentNodes unit level gap (front ++ m :: rest) =
      indentFront unit level gap front ++
        (breakIf unit level (gapAfter gap front) ++
          m.indent unit (level + 1) :: indentNodes unit level true rest) := by
  induction front generalizing gap with
  | nil => exact indentNodes_node unit hm level gap rest
  | cons x front ih =>
    have hnodes : hasNodes (front ++ m :: rest) = true := by
      rw [hasNodes_append, hasNodes_cons, hm]
      simp
    rw [List.cons_append, gapAfter]
    rcases blank_or_text_or_node x with hx | ⟨hx, hb⟩ | hx
    · rw [indentNodes_blank unit hx, hnodes, indentFront_blank unit level hx, ih,
        isText_of_isBlank hx, List.append_assoc]
      rfl
    · rw [indentNodes_text unit hx hb, indentFront_text unit level hx hb, ih, hx]
      rfl
    · rw [indentNodes_node unit hx, indentFront_node unit level hx, ih, hx, List.append_assoc]
      rfl

theorem indentFront_append (gap : Bool) (front back : List Markup) :
    indentFront unit level gap (front ++ back) =
      indentFront unit level gap front ++ indentFront unit level (gapAfter gap front) back := by
  induction front generalizing gap with
  | nil => rfl
  | cons x front ih =>
    rw [List.cons_append, gapAfter]
    rcases blank_or_text_or_node x with hx | ⟨hx, hb⟩ | hx
    · rw [indentFront_blank unit level hx, indentFront_blank unit level hx, ih,
        isText_of_isBlank hx, List.append_assoc]
      rfl
    · rw [indentFront_text unit level hx hb, indentFront_text unit level hx hb, ih, hx]
      rfl
    · rw [indentFront_node unit level hx, indentFront_node unit level hx, ih, hx, List.append_assoc]
      rfl

/-- The last node in front stays the last one unless it is white space. -/
theorem getLast?_indentFront {m : Markup} (hm : m.isBlank = false) (gap : Bool)
    (front : List Markup) :
    (indentFront unit level gap (front ++ [m])).getLast? = some (m.indent unit (level + 1)) := by
  rw [indentFront_append, List.getLast?_append]
  cases htext : m.isText with
  | true =>
    have hself : m.indent unit (level + 1) = m := by cases m <;> simp_all [isText, indent]
    rw [indentFront_text unit level htext hm, hself]
    rfl
  | false =>
    rw [indentFront_node unit level htext, List.getLast?_append]
    rfl

variable {unit}

theorem bareAll_breakIf (h : isWhite unit = true) (gap : Bool) :
    bareAll (breakIf unit level gap) = [] := by
  cases gap with
  | true => rw [breakIf, if_pos rfl, bareAll, if_pos (isBlank_lineBreak h level)]; rfl
  | false => rfl

theorem bareAll_indentFront (h : isWhite unit = true) (gap : Bool) (front : List Markup) :
    bareAll (indentFront unit level gap front) = bareAll front := by
  induction front generalizing gap with
  | nil => rfl
  | cons m front ih =>
    rcases blank_or_text_or_node m with hm | ⟨hm, hb⟩ | hm
    · rw [indentFront_blank unit level hm, bareAll_append, bareAll_breakIf level h, ih, bareAll,
        if_pos hm]
      rfl
    · rw [indentFront_text unit level hm hb, bareAll, ih, bareAll]
    · have hb := not_isBlank_of_not_isText hm
      have hb' := not_isBlank_of_not_isText ((isText_indent unit (level + 1) m).trans hm)
      rw [indentFront_node unit level hm, bareAll_append, bareAll_breakIf level h, bareAll, hb',
        if_neg (by simp), bare_indent h, ih, bareAll, hb, if_neg (by simp)]
      rfl

theorem steadyAll_breakIf {scope reading : Scope} {parent : Option String} (gap : Bool) :
    steadyAll scope parent reading (breakIf unit level gap) := by
  cases gap with
  | true => exact ⟨steady_lineBreak unit level, trivial⟩
  | false => trivial

theorem steadyAll_indentFront {scope reading : Scope} {parent : Option String} {front : List Markup}
    (h : steadyAll scope parent reading front) (gap : Bool) :
    steadyAll scope parent reading (indentFront unit level gap front) := by
  induction front generalizing gap with
  | nil => trivial
  | cons m front ih =>
    rw [indentFront]
    split
    · rw [steadyAll_append]
      exact ⟨steadyAll_breakIf level gap, ih h.2 false⟩
    · split
      · exact ⟨h.1, ih h.2 false⟩
      · rw [steadyAll_append]
        exact ⟨steadyAll_breakIf level gap, steady_indent m h.1 (level + 1), ih h.2 true⟩

/-! The elements among nodes. -/

theorem filter_indentFront (gap : Bool) (front : List Markup) :
    (indentFront unit level gap front).filter isElement =
      (front.filter isElement).map (·.indent unit (level + 1)) := by
  have hbreak : ∀ gap, (breakIf unit level gap).filter isElement = [] := by
    intro gap
    cases gap <;> rfl
  induction front generalizing gap with
  | nil => rfl
  | cons m front ih =>
    rw [List.filter_cons]
    rcases blank_or_text_or_node m with hm | ⟨hm, hb⟩ | hm
    · rw [indentFront_blank unit level hm, List.filter_append, hbreak, ih,
        isElement_of_isText (isText_of_isBlank hm)]
      rfl
    · rw [indentFront_text unit level hm hb, List.filter_cons, ih, isElement_of_isText hm]
      rfl
    · rw [indentFront_node unit level hm, List.filter_append, hbreak, List.filter_cons, ih,
        isElement_indent]
      cases m.isElement <;> rfl

end

/-- What the elements among some markup are read as. -/
theorem elementsOf_resolveAll (reading : Scope) (ms : List Markup) :
    elementsOf (resolveAll reading ms) =
      (ms.filter isElement).filterMap fun m => (m.resolve reading).element? := by
  induction ms with
  | nil => rfl
  | cons m ms ih =>
    rw [resolveAll, List.filter_cons]
    cases m with
    | element name attributes children =>
      have hvoid : (element name attributes children).isVoid = false := rfl
      rw [hvoid, resolve]
      exact congrArg (List.cons _) ih
    | text value =>
      have hnone : (text value).isElement = false := rfl
      rw [hnone]
      refine Eq.trans ?_ ih
      split
      · rfl
      · rw [resolve]
        rfl
    | comment value =>
      have hvoid : (comment value).isVoid = false := rfl
      rw [hvoid, resolve]
      exact ih
    | instruction target value =>
      have hvoid : (instruction target value).isVoid = false := rfl
      rw [hvoid, resolve]
      exact ih

end Markup

/-! What is written for nodes side by side. -/

/-- What is written for a node in front of what is written for others. -/
def addMarkup : Markup → List Markup → List Markup
  | .text value, ms => joinText value ms
  | m, ms => m :: ms

theorem qualifyNodes_cons_eq_some {scope : Scope} {parent : Option String} {next next' : Nat}
    {node : Node} {rest : List Node} {ms : List Markup} :
    qualifyNodes scope parent next (node :: rest) = some (ms, next') ↔
      ∃ m n ms', qualify scope parent next node = some (m, n) ∧
        qualifyNodes scope parent n rest = some (ms', next') ∧ ms = addMarkup m ms' := by
  rw [qualifyNodes]
  cases hm : qualify scope parent next node with
  | none => simp
  | some x =>
    obtain ⟨m, n⟩ := x
    dsimp only
    cases hms : qualifyNodes scope parent n rest with
    | none =>
      refine ⟨nofun, ?_⟩
      rintro ⟨m₁, n₁, ms₁, h, hms₁, -⟩
      cases h
      rw [hms] at hms₁
      cases hms₁
    | some y =>
      obtain ⟨ms', n'⟩ := y
      dsimp only
      constructor
      · intro h
        refine ⟨m, n, ms', rfl, ?_, ?_⟩ <;> cases m <;> cases h <;> first | rfl | exact hms
      · rintro ⟨m₁, n₁, ms₁, h, hms₁, rfl⟩
        cases h
        rw [hms] at hms₁
        cases hms₁
        cases m <;> rfl

theorem isText_qualify {scope : Scope} {parent : Option String} {next next' : Nat} {node : Node}
    {m : Markup} (h : qualify scope parent next node = some (m, next')) :
    m.isText = node.isText := by
  cases node with
  | element tag children =>
    rw [qualify] at h
    split at h
    · cases h
    · split at h <;> cases h
      rfl
  | text value => rw [qualify] at h; split at h <;> cases h; rfl
  | comment value => rw [qualify] at h; split at h <;> cases h; rfl
  | instruction target value => rw [qualify] at h; split at h <;> cases h; rfl

theorem addMarkup_append {m : Markup} (front : List Markup) {x : Markup} (hx : x.isText = false)
    (back : List Markup) : addMarkup m (front ++ x :: back) = addMarkup m front ++ x :: back := by
  cases m with
  | text value =>
    rw [addMarkup, addMarkup]
    cases front with
    | nil => cases x <;> first | rfl | cases hx
    | cons y front => cases y <;> rfl
  | _ => rfl

/-- Nodes around one that is no text are written by themselves. -/
theorem qualifyNodes_append_node {scope : Scope} {parent : Option String} {next next' : Nat}
    {front back : List Node} {node : Node} (hn : node.isText = false) {ms : List Markup} :
    qualifyNodes scope parent next (front ++ node :: back) = some (ms, next') ↔
      ∃ mf n₁ m n₂ mb, qualifyNodes scope parent next front = some (mf, n₁) ∧
        qualify scope parent n₁ node = some (m, n₂) ∧
          qualifyNodes scope parent n₂ back = some (mb, next') ∧ ms = mf ++ m :: mb := by
  induction front generalizing next ms with
  | nil =>
    rw [List.nil_append, qualifyNodes_cons_eq_some]
    constructor
    · rintro ⟨m, n, ms', hm, hms, rfl⟩
      have htext := (isText_qualify hm).trans hn
      refine ⟨[], next, m, n, ms', rfl, hm, hms, ?_⟩
      cases m <;> first | rfl | cases htext
    · rintro ⟨mf, n₁, m, n₂, mb, hf, hm, hb, rfl⟩
      cases hf
      have htext := (isText_qualify hm).trans hn
      refine ⟨m, n₂, mb, hm, hb, ?_⟩
      cases m <;> first | rfl | cases htext
  | cons x front ih =>
    rw [List.cons_append, qualifyNodes_cons_eq_some]
    constructor
    · rintro ⟨mx, n, ms', hx, hms, rfl⟩
      obtain ⟨mf, n₁, m, n₂, mb, hf, hm, hb, rfl⟩ := ih.mp hms
      exact ⟨addMarkup mx mf, n₁, m, n₂, mb, qualifyNodes_cons_eq_some.mpr ⟨mx, n, mf, hx, hf, rfl⟩,
        hm, hb, addMarkup_append mf ((isText_qualify hm).trans hn) mb⟩
    · rintro ⟨mf, n₁, m, n₂, mb, hf, hm, hb, rfl⟩
      obtain ⟨mx, n, mf', hx, hf', rfl⟩ := qualifyNodes_cons_eq_some.mp hf
      exact ⟨mx, n, mf' ++ m :: mb, hx, ih.mpr ⟨mf', n₁, m, n₂, mb, hf', hm, hb, rfl⟩,
        (addMarkup_append mf' ((isText_qualify hm).trans hn) mb).symm⟩

theorem settledAll_append {scope : Scope} {parent : Option String} {next n : Nat} {front : List Node}
    {mf : List Markup} (hf : qualifyNodes scope parent next front = some (mf, n)) (rest : List Node) :
    settledAll scope parent next (front ++ rest) =
      (settledAll scope parent next front && settledAll scope parent n rest) := by
  induction front generalizing next mf with
  | nil =>
    cases hf
    rfl
  | cons x front ih =>
    obtain ⟨mx, n₁, mf', hx, hf', rfl⟩ := qualifyNodes_cons_eq_some.mp hf
    rw [List.cons_append, settledAll, settledAll, hx]
    dsimp only
    rw [ih hf', Bool.and_assoc]

theorem settledAll_append_node {scope : Scope} {parent : Option String} {next n₁ n₂ : Nat}
    {front back : List Node} {node : Node} {mf : List Markup} {m : Markup}
    (hf : qualifyNodes scope parent next front = some (mf, n₁))
    (hm : qualify scope parent n₁ node = some (m, n₂))
    (h : settledAll scope parent next (front ++ node :: back) = true) :
    settledAll scope parent next front = true ∧ node.settled scope parent n₁ = true ∧
      settledAll scope parent n₂ back = true := by
  rw [settledAll_append hf, Bool.and_eq_true, settledAll, hm, Bool.and_eq_true] at h
  exact h

/-! An element and the node of a given rank among its children. -/

namespace Markup

/-- The children of an element without the white space beside nodes. -/
def bareInside (children : List Markup) : List Markup :=
  if hasNodes children then bareAll children else children

theorem bare_element (name : String) (attributes : List (String × String))
    (children : List Markup) :
    (element name attributes children).bare = element name attributes (bareInside children) := by
  rw [bare, bareInside]
  split <;> rfl

/-- The children of an element, indented. -/
def indentInside (unit : String) (level : Nat) (children : List Markup) : List Markup :=
  if hasNodes children then indentNodes unit level true children else children

theorem indent_element (unit : String) (level : Nat) (name : String)
    (attributes : List (String × String)) (children : List Markup) :
    (element name attributes children).indent unit level =
      element name attributes (indentInside unit level children) := by
  rw [indent, indentInside]
  split <;> rfl

theorem hasNodes_append_node {m : Markup} (hm : m.isText = false) (front back : List Markup) :
    hasNodes (front ++ m :: back) = true := by
  rw [hasNodes_append, hasNodes_cons, hm]
  simp

theorem soundAll_append {a b : List Markup} (h : soundAll (a ++ b) = true) :
    soundAll a = true ∧ soundAll b = true := by
  induction a with
  | nil => exact ⟨rfl, h⟩
  | cons m a ih =>
    obtain ⟨hm, hnext, hrest⟩ := soundAll_cons.mp h
    obtain ⟨ha, hb⟩ := ih hrest
    refine ⟨soundAll_cons.mpr ⟨hm, fun htext => ?_, ha⟩, hb⟩
    cases a with
    | nil => rfl
    | cons x a => exact hnext htext

end Markup

/-- Each element is written by itself, in the order in which they stand. -/
theorem elements_qualifyNodes {scope : Scope} {parent : Option String} {next next' : Nat}
    {nodes : List Node} {ms : List Markup}
    (h : qualifyNodes scope parent next nodes = some (ms, next')) :
    List.Forall₂ (fun e m => ∃ n n', qualify scope parent n e.toNode = some (m, n'))
      (elementsOf nodes) (ms.filter Markup.isElement) := by
  have hjoin : ∀ (value : String) (ms : List Markup),
      (joinText value ms).filter Markup.isElement = ms.filter Markup.isElement := by
    intro value ms
    rw [joinText.eq_def]
    split <;> rfl
  induction nodes generalizing next ms with
  | nil =>
    cases h
    exact .nil
  | cons node rest ih =>
    obtain ⟨m, n, ms', hm, hms, rfl⟩ := qualifyNodes_cons_eq_some.mp h
    have hrest := ih hms
    cases node with
    | element tag children =>
      have helement : m.isElement = true := by
        rw [qualify] at hm
        split at hm
        · cases hm
        · split at hm <;> cases hm
          rfl
      have hadd : addMarkup m ms' = m :: ms' := by
        cases m with
        | element name attributes nodes => rfl
        | _ => cases helement
      rw [hadd, List.filter_cons_of_pos helement]
      exact .cons ⟨next, n, hm⟩ hrest
    | text value =>
      rw [qualify] at hm
      split at hm <;> cases hm
      rw [addMarkup, hjoin]
      exact hrest
    | comment value => rw [qualify] at hm; split at hm <;> cases hm; exact hrest
    | instruction target value => rw [qualify] at hm; split at hm <;> cases hm; exact hrest

theorem length_elements_qualifyNodes {scope : Scope} {parent : Option String} {next next' : Nat}
    {nodes : List Node} {ms : List Markup}
    (h : qualifyNodes scope parent next nodes = some (ms, next')) :
    (ms.filter Markup.isElement).length = (elementsOf nodes).length :=
  (elements_qualifyNodes h).length_eq.symm

theorem length_elements_resolveAll (reading : Scope) (ms : List Markup) :
    (elementsOf (Markup.resolveAll reading ms)).length = (ms.filter Markup.isElement).length := by
  rw [Markup.elementsOf_resolveAll]
  induction ms with
  | nil => rfl
  | cons m ms ih =>
    rw [List.filter_cons]
    split
    · next hm =>
      cases m with
      | element name attributes children =>
        rw [List.filterMap_cons, Markup.resolve, List.length_cons, ← ih]
        rfl
      | _ => cases hm
    · exact ih

end Xml

namespace Xml

open Markup (bareInside indentInside resolveAll)

/-- An element that was written, read, and written again with other children. -/
theorem Site.qualify_reread {scope reading origin inner : Scope} {parent : Option String}
    (hsite : Site scope reading origin parent) {tag : Tag} (ht : tag.Known origin inner)
    (hsettled : tag.settled scope parent = true) {next : Nat} {w : WrittenTag}
    (hw : qualifyTag scope parent next tag = some w) {children : List Node} {ms : List Markup} (k : Nat)
    (h : qualifyNodes w.scope w.uri k children = some (ms, k)) :
    qualify scope parent k (.element (w.read reading).tag children) = some (.element w.name w.attributes ms, k) := by
  obtain ⟨-, -, -, -, hagain⟩ := hsite.enter ht hw
  rw [qualify, hagain hsettled k]
  dsimp only
  rw [h]

/--
The declarations in force in the section at a path, and the namespace that its children take, when tags are
written from a number of the next generated prefix that they do not use up.
-/
def siteOf? (next : Nat) : List String → Element → Scope → Option String →
    Option (Scope × Option String)
  | [], e, scope, parent => (qualifyTag scope parent next e.tag).map fun w => (w.scope, w.uri)
  | name :: rest, e, scope, parent =>
    (qualifyTag scope parent next e.tag).bind fun w =>
      (e.child? name).bind fun child => siteOf? next rest child w.scope w.uri

/-- A place in markup where the children of an element stand, and what is written for them. -/
structure Spot where
  scope : Scope
  reading : Scope
  origin : Scope
  parent : Option String
  next : Nat
  level : Nat
  markup : List Markup

/--
Whether children that were put into an element at a position are written at a spot of the markup of the
whole, which is indented and read as another element. That element has one of the same name at the
position, and other children of it change what is written as they change what is written at the spot.
-/
structure Spot.Holds (spot : Spot) (unit : String) (position : Position) (owner : Element)
    (children : List Node) (scope : Scope) (parent : Option String) (m : Markup) (e : Element) :
    Prop where
  site : Site spot.scope spot.reading spot.origin spot.parent
  known : knownAll spot.origin owner.children
  settled : settledAll spot.scope spot.parent spot.next children = true
  written : ∃ n, qualifyNodes spot.scope spot.parent spot.next children = some (spot.markup, n)
  read : ∃ o, e.at? position = some o ∧ o.name = owner.name ∧
    o.children = resolveAll spot.reading (indentInside unit spot.level spot.markup)
  again : ∀ nodes ms, (∀ k, qualifyNodes spot.scope spot.parent k nodes = some (ms, k)) →
    bareInside ms = bareInside spot.markup →
      ∃ m', (∀ k, qualify scope parent k (e.setAt position nodes).toNode = some (m', k)) ∧
        m'.bare = m.bare

/-- An element that needs no more declarations than there are can be written with other children in it. -/
theorem exists_spot {unit : String} (hwhite : Markup.isWhite unit = true)
    (htext : isDocumentText unit = true) {position : Position} {x owner : Element}
    (hat : x.at? position = some owner) {scope reading origin : Scope} {parent : Option String}
    (hsite : Site scope reading origin parent) (hx : x.toNode.known origin) {children : List Node}
    {next next' : Nat}
    (hsettled : (x.setAt position children).toNode.settled scope parent next = true) {m : Markup}
    (hm : qualify scope parent next (x.setAt position children).toNode = some (m, next'))
    (level : Nat) :
    ∃ (spot : Spot) (e : Element), (m.indent unit level).resolve reading = e.toNode ∧
      spot.Holds unit position owner children scope parent m e ∧
        (next' = next → spot.next = next ∧
          qualifyNodes spot.scope spot.parent next children = some (spot.markup, next) ∧
            ∀ path, x.locate path = some position →
              siteOf? next path x scope parent = some (spot.scope, spot.parent)) := by
  induction position generalizing x scope reading origin parent next next' m level with
  | nil =>
    cases hat
    obtain ⟨⟨inner, htag, hchildren⟩, -⟩ := hx
    have hset : owner.setAt [] children = ⟨owner.tag, children⟩ := rfl
    rw [hset, Element.toNode] at hsettled hm
    rw [Node.settled, Bool.and_eq_true] at hsettled
    rw [qualify] at hm
    split at hm
    · cases hm
    · next w hw =>
      rw [hw] at hsettled
      obtain ⟨hinner, hname, -⟩ := hsite.enter htag hw
      split at hm
      · cases hm
      · next ms n hms =>
        cases hm
        refine ⟨⟨w.scope, (w.read reading).scope, inner, w.uri, w.next, level, ms⟩,
          ⟨(w.read reading).tag, resolveAll (w.read reading).scope (indentInside unit level ms)⟩,
          ?_, ⟨hinner, hchildren, hsettled.2, ⟨_, hms⟩, ⟨_, rfl, hname, rfl⟩,
          fun nodes ms' hnodes hbare => ⟨.element w.name w.attributes ms', fun k => ?_, ?_⟩⟩, ?_⟩
        · rw [Markup.indent_element, Markup.resolve]
          rfl
        · exact hsite.qualify_reread htag hsettled.1 hw k (hnodes k)
        · rw [Markup.bare_element, Markup.bare_element, hbare]
        · rintro rfl
          have hnext := Nat.le_antisymm (le_of_qualifyNodes _ hms) (le_next_qualifyTag hw)
          refine ⟨hnext, hnext ▸ hms, fun path hpath => ?_⟩
          obtain rfl := Element.eq_nil_of_locate hpath
          rw [siteOf?, hw]
          rfl
  | cons rank rest ih =>
    obtain ⟨front, c, back, hxeq, hrank, hat⟩ := Element.at?_cons hat
    rw [hxeq, Element.setAt_cons hrank] at hsettled hm
    rw [hxeq] at hx
    obtain ⟨⟨inner, htag, hchildren⟩, -⟩ := hx
    rw [Element.toNode, Node.settled, Bool.and_eq_true] at hsettled
    have hsound := Markup.sound_indent htext m (sound_qualify hsite.sound _ hm) level
    rw [Element.toNode, qualify] at hm
    split at hm
    · cases hm
    · next w hw =>
      rw [hw] at hsettled
      obtain ⟨hinner, -⟩ := hsite.enter htag hw
      split at hm
      · cases hm
      · next ms n hms =>
        cases hm
        -- the child on the way and what stands around it
        obtain ⟨hknownFront, hknownChild, hknownBack⟩ := knownAll_append.mp hchildren
        obtain ⟨mf, n₁, mc, n₂, mb, hf, hmc, hb, rfl⟩ := (qualifyNodes_append_node rfl).mp hms
        obtain ⟨hsettledFront, hsettledChild, hsettledBack⟩ :=
          settledAll_append_node hf hmc hsettled.2
        have hnode : mc.isText = false := isText_qualify hmc
        obtain ⟨spot, e, he, hspot, hsiteOf⟩ := ih hat hinner hknownChild hsettledChild hmc (level + 1)
        have hinside : indentInside unit level (mf ++ mc :: mb) =
            (Markup.indentFront unit level true mf ++
              Markup.breakIf unit level (Markup.gapAfter true mf)) ++
                mc.indent unit (level + 1) :: Markup.indentNodes unit level true mb := by
          rw [indentInside, if_pos (Markup.hasNodes_append_node hnode mf mb),
            Markup.indentNodes_append_node unit level hnode, List.append_assoc]
        generalize hfront : Markup.indentFront unit level true mf ++
          Markup.breakIf unit level (Markup.gapAfter true mf) = mf' at hinside
        have hnodes : resolveAll (w.read reading).scope (indentInside unit level (mf ++ mc :: mb)) =
            resolveAll (w.read reading).scope mf' ++ e.toNode ::
              resolveAll (w.read reading).scope (Markup.indentNodes unit level true mb) := by
          have hvoid : (mc.indent unit (level + 1)).isVoid = false := by
            have hnode' := (Markup.isText_indent unit (level + 1) mc).trans hnode
            cases hi : mc.indent unit (level + 1) with
            | text value => rw [hi] at hnode'; cases hnode'
            | _ => rfl
          rw [hinside, Markup.resolveAll_append, resolveAll, hvoid, if_neg (by simp), he]
        rw [Markup.indent_element, Markup.sound, Bool.and_eq_true, hinside] at hsound
        obtain ⟨hsoundFront, hsoundBack⟩ := Markup.soundAll_append hsound.2
        have hsteadyFront : Markup.steadyAll w.scope w.uri (w.read reading).scope mf' := by
          rw [← hfront, Markup.steadyAll_append]
          exact ⟨Markup.steadyAll_indentFront level
            (Markup.steadyAll_qualifyNodes hinner front hknownFront hsettledFront hf) true,
            Markup.steadyAll_breakIf level _⟩
        have hsteadyBack := @Markup.steadyAll_indentNodes _ _ _ unit mb
          (Markup.steadyAll_qualifyNodes hinner back hknownBack hsettledBack hb) level true
        have hlength : (elementsOf (resolveAll (w.read reading).scope mf')).length = rank := by
          have hbreak : (Markup.breakIf unit level (Markup.gapAfter true mf)).filter
              Markup.isElement = [] := by
            rw [Markup.breakIf]
            split <;> rfl
          rw [length_elements_resolveAll, ← hfront, List.filter_append, hbreak, List.append_nil,
            Markup.filter_indentFront, List.length_map, length_elements_qualifyNodes hf, hrank]
        refine ⟨spot, ⟨(w.read reading).tag,
            resolveAll (w.read reading).scope (indentInside unit level (mf ++ mc :: mb))⟩, ?_,
          { hspot with
            read := ?_
            again := fun nodes ms₁ hms₁ hbare => ?_ }, ?_⟩
        · rw [Markup.indent_element, Markup.resolve]
          rfl
        · obtain ⟨o, hato, ho⟩ := hspot.read
          refine ⟨o, ?_, ho⟩
          rw [Element.at?, Element.elements]
          dsimp only
          rw [hnodes, elementsOf_append, elementsOf_toNode_cons, ← hlength,
            List.getElem?_append_right (Nat.le_refl _), Nat.sub_self, List.getElem?_cons_zero,
            Option.bind_some]
          exact hato
        · obtain ⟨m', hm', hbare'⟩ := hspot.again nodes ms₁ hms₁ hbare
          refine ⟨.element w.name w.attributes
            (mf' ++ m' :: Markup.indentNodes unit level true mb), fun k => ?_, ?_⟩
          · refine hsite.qualify_reread htag hsettled.1 hw k ?_
            rw [hnodes, Element.setAt_cons hlength]
            exact (qualifyNodes_append_node rfl).mpr ⟨mf', k, m', k, _,
              Markup.qualifyNodes_resolveAll mf' hsoundFront hsteadyFront k, hm' k,
              Markup.qualifyNodes_resolveAll _ (Markup.soundAll_cons.mp hsoundBack).2.2 hsteadyBack k,
              rfl⟩
          · have hnode' : m'.isText = false := isText_qualify (hm' 0)
            rw [Markup.bare_element, Markup.bare_element, bareInside,
              if_pos (Markup.hasNodes_append_node hnode' mf' _), bareInside,
              if_pos (Markup.hasNodes_append_node hnode mf mb), Markup.bareAll_append,
              Markup.bareAll_append, ← hfront, Markup.bareAll_append,
              Markup.bareAll_indentFront level hwhite, Markup.bareAll_breakIf level hwhite,
              List.append_nil, Markup.bareAll, Markup.bareAll,
              if_neg (by simp [Markup.not_isBlank_of_not_isText hnode']),
              if_neg (by simp [Markup.not_isBlank_of_not_isText hnode]), hbare',
              Markup.bareAll_indentNodes hwhite]
        · rintro rfl
          -- no number is used up in front of the child on the way
          have hle := le_next_qualifyTag hw
          have hleFront := le_of_qualifyNodes _ hf
          have hleChild := le_of_qualify _ hmc
          have hleBack := le_of_qualifyNodes _ hb
          obtain ⟨hnext, hwritten, hpaths⟩ := hsiteOf (by omega)
          obtain rfl : n₁ = next' := by omega
          refine ⟨hnext, hwritten, fun path hpath => ?_⟩
          obtain ⟨name, path', child, rfl, hranked, hlocate⟩ := Element.exists_of_locate_cons hpath
          obtain ⟨hchild, -, hrankAt, -⟩ := Element.ranked?_eq_some hranked
          obtain rfl : c = child := by
            rw [hxeq, Element.elements, ← hrank, elementsOf_append, elementsOf_toNode_cons,
              List.getElem?_append_right (Nat.le_refl _), Nat.sub_self] at hrankAt
            exact Option.some.inj hrankAt
          have hpath' := hpaths path' hlocate
          rw [siteOf?, hxeq, hw, Option.bind_some, ← hxeq, hchild, Option.bind_some, hpath']

end Xml

end Manifest
