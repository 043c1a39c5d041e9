import Manifest.Proofs.Xml.LineEnd

/-! What the tokens of written markup are read as. `resolve` gives the node for markup in a scope;
reading its tokens where an element is open adds that node to its children. -/

set_option autoImplicit false

namespace Manifest.Xml

namespace Markup

/-- Whether markup leaves nothing in the text. -/
def isVoid : Markup → Bool
  | .text value => value.isEmpty
  | _ => false

mutual

/-- The node that markup is read as inside a scope. -/
def resolve (scope : Scope) : Markup → Node
  | .text value => .text value
  | .comment value => .comment value
  | .instruction target value => .instruction target (String.ofList (skipSpace value.toList))
  | .element name attributes children =>
    let r := resolveTag [] scope name.toList (attributes.map rawAttribute)
    .element r.tag (resolveAll r.scope children)

/-- The nodes that markup side by side is read as. -/
def resolveAll (scope : Scope) : List Markup → List Node
  | [] => []
  | m :: rest => if m.isVoid then resolveAll scope rest else m.resolve scope :: resolveAll scope rest

end

theorem resolveAll_append (scope : Scope) (a b : List Markup) :
    resolveAll scope (a ++ b) = resolveAll scope a ++ resolveAll scope b := by
  induction a with
  | nil => rfl
  | cons m a ih =>
    rw [List.cons_append, resolveAll, resolveAll, ih]
    split <;> rfl

/-- Nodes added to children in reverse order. -/
def addResolved (scope : Scope) (ms : List Markup) (children : List Node) : List Node :=
  ms.foldl (fun children m => addNode (m.resolve scope) children) children

theorem addNode_of_isVoid {m : Markup} (h : m.isVoid = true) (scope : Scope)
    (children : List Node) : addNode (m.resolve scope) children = children := by
  cases m with
  | text value =>
    rw [isVoid, String.isEmpty_iff] at h
    subst h
    rw [resolve]
    cases children with
    | nil => rfl
    | cons node rest => cases node <;> simp [addNode]
  | _ => cases h

theorem addNode_of_not_isText {m : Markup} (h : m.isText = false) (scope : Scope)
    (children : List Node) : addNode (m.resolve scope) children = m.resolve scope :: children := by
  cases m with
  | text value => cases h
  | _ => rw [resolve, addNode] <;> simp

/-- Whether the last of some nodes in reverse order is a text. -/
def endsWithText : List Node → Bool
  | .text _ :: _ => true
  | _ => false

theorem addNode_of_isText {m : Markup} (h : m.isText = true) (hv : m.isVoid = false) (scope : Scope)
    {children : List Node} (hc : endsWithText children = false) :
    addNode (m.resolve scope) children = m.resolve scope :: children := by
  cases m with
  | text value =>
    rw [isVoid] at hv
    rw [resolve]
    cases children with
    | nil => simp [addNode, hv]
    | cons node rest => cases node <;> simp_all [addNode, endsWithText]
  | _ => cases h

theorem endsWithText_resolve {m : Markup} (h : m.isText = false) (scope : Scope)
    (children : List Node) : endsWithText (m.resolve scope :: children) = false := by
  cases m with
  | text value => cases h
  | _ => rw [resolve]; rfl

/-- No text is joined to another one where no two stand side by side. -/
theorem addResolved_eq {scope : Scope} {ms : List Markup} (h : soundAll ms = true)
    {children : List Node} (hc : startsWithText ms = true → endsWithText children = false) :
    addResolved scope ms children = (resolveAll scope ms).reverse ++ children := by
  induction ms generalizing children with
  | nil => rfl
  | cons m ms ih =>
    obtain ⟨-, hnext, hms⟩ := soundAll_cons.mp h
    rw [addResolved, List.foldl_cons, resolveAll]
    cases hv : m.isVoid with
    | true =>
      have htext : m.isText = true := by cases m <;> simp_all [isVoid, isText]
      rw [addNode_of_isVoid hv, if_pos rfl]
      exact ih hms (fun hstart => absurd hstart (by simp [hnext htext]))
    | false =>
      have hstep : addNode (m.resolve scope) children = m.resolve scope :: children := by
        cases htext : m.isText with
        | true => exact addNode_of_isText htext hv scope (hc htext)
        | false => exact addNode_of_not_isText htext scope children
      have hrest : startsWithText ms = true →
          endsWithText (m.resolve scope :: children) = false := by
        intro hstart
        cases htext : m.isText with
        | true => exact absurd hstart (by simp [hnext htext])
        | false => exact endsWithText_resolve htext scope children
      have hmore := ih hms hrest
      rw [addResolved] at hmore
      rw [hstep, hmore]
      simp

theorem reverse_addResolved {scope : Scope} {ms : List Markup} (h : soundAll ms = true) :
    (addResolved scope ms []).reverse = resolveAll scope ms := by
  rw [addResolved_eq h fun _ => rfl]
  simp

end Markup

open Markup (rawAttribute tokensOf soundAll addResolved resolveAll)

/-! Markup that is read without fault. -/

namespace Markup

mutual

/-- Whether the tags of markup are read without fault inside a scope. -/
def accepted (scope : Scope) : Markup → Prop
  | .element name attributes children =>
    let r := resolveTag [] scope name.toList (attributes.map rawAttribute)
    Remark.fault ∉ r.remarks ∧ (attributes.map Prod.fst).Nodup ∧ acceptedAll r.scope children
  | _ => True

/-- Whether the tags of markup side by side are read without fault. -/
def acceptedAll (scope : Scope) : List Markup → Prop
  | [] => True
  | m :: rest => m.accepted scope ∧ acceptedAll scope rest

end

mutual

/-- How many elements are nested in markup. -/
def depth : Markup → Nat
  | .element _ _ children => depthAll children + 1
  | _ => 0

/-- How many elements are nested in the deepest of some markup. -/
def depthAll : List Markup → Nat
  | [] => 0
  | m :: rest => max m.depth (depthAll rest)

end

/-- Whether markup is an element. -/
def isElement : Markup → Bool
  | .element .. => true
  | _ => false

end Markup

open Markup (acceptedAll depthAll)

/-- An element is written as an element. -/
theorem isElement_qualify {scope : Scope} {parent : Option String} {next next' : Nat} {e : Element}
    {m : Markup} (h : qualify scope parent next e.toNode = some (m, next')) : m.isElement = true := by
  rw [Element.toNode, qualify] at h
  split at h
  · cases h
  · split at h <;> cases h
    rfl

/-! Keys that differ from each other. -/

theorem keysDistinct_iff {keys : List String} : keysDistinct keys = true ↔ keys.Nodup := by
  induction keys with
  | nil => simp [keysDistinct]
  | cons key keys ih => simp [keysDistinct, ih]

theorem remark_ne_fault {p : Progress} {remarks : List Remark} (hp : p.last ≠ some .fault)
    (h : Remark.fault ∉ remarks) : (p.remark remarks).last ≠ some .fault := by
  rw [Progress.remark]
  cases hlast : remarks.getLast? with
  | none => simpa using hp
  | some r =>
    rw [Option.some_or, ne_eq, Option.some.injEq]
    rintro rfl
    exact h (List.mem_of_getLast? hlast)

/-- The target of an instruction that can be written has no colon. -/
theorem fault_not_mem_targetRemarks {target : String} (h : isLocalName target.toList = true) :
    Remark.fault ∉ targetRemarks target.toList := by
  have hcolon : target.toList.contains ':' = false := by
    rw [List.contains_eq_mem, decide_eq_false_iff_not]
    intro hmem
    exact ne_colon_of_isNameChar
      (List.all_eq_true.mp (all_isNameChar_of_isLocalName h) _ hmem) rfl
  rw [targetRemarks, hcolon]
  simp only [faultUnless, Bool.not_false, if_true, List.append_nil]
  split <;> simp

/-! Reading tokens: only the depth of nesting can keep accepted markup from being read. -/

/-- A document that has been read up to a start tag, with the element open. -/
def Progress.opened (p : Progress) (name : List Char) (r : ResolvedTag) (last : Option Remark) :
    Progress :=
  ⟨⟨name, r.tag, r.scope, []⟩ :: p.stack, p.done, last⟩

/-- A start tag is read where another element may be opened. -/
theorem keysDistinct_rawAttribute {attributes : List (String × String)}
    (h : (attributes.map Prod.fst).Nodup) :
    keysDistinct ((attributes.map rawAttribute).map fun (name, _) => String.ofList name) = true := by
  rw [keysDistinct_iff, List.map_map]
  convert h using 2
  funext a
  simp [rawAttribute]

theorem step_startTag {p : Progress} {name : String} {attributes : List (String × String)}
    {r : ResolvedTag} (hr : resolveTag [] ((p.stack.head?.map (·.scope)).getD []) name.toList
      (attributes.map rawAttribute) = r)
    (hfault : Remark.fault ∉ r.remarks) (hnodup : (attributes.map Prod.fst).Nodup)
    (hroot : p.stack = [] → p.hasRoot = false) (hlast : p.last ≠ some .fault) :
    ∃ last, last ≠ some .fault ∧ ∀ closed,
      p.step [] (.startTag name.toList (attributes.map rawAttribute) closed) =
        if p.stack.length < maxDepth then
          if closed then (p.opened name.toList r last).close
          else some (p.opened name.toList r last)
        else none := by
  have hkeys := keysDistinct_rawAttribute hnodup
  have hfree : (p.stack.isEmpty && p.hasRoot) = false := by
    cases hs : p.stack with
    | nil => simpa using hroot hs
    | cons top below => rfl
  refine ⟨(p.remark r.remarks).last, remark_ne_fault hlast hfault, fun closed => ?_⟩
  rw [Progress.step, hkeys, hfree, hr]
  simp only [Bool.false_or, Bool.not_true, Bool.or_false, decide_eq_true_eq]
  by_cases hdepth : p.stack.length < maxDepth
  · rw [if_neg (by omega), if_pos hdepth]
    rfl
  · rw [if_pos (by omega), if_neg hdepth]

theorem close_cons (top : OpenElement) (rest : List OpenElement) (done : List Node)
    (last : Option Remark) :
    (⟨top :: rest, done, last⟩ : Progress).close =
      some ((⟨rest, done, last⟩ : Progress).add (.element top.tag top.children.reverse)) := rfl

mutual

/--
Reading the tokens of markup adds its node where the document has been read to, without fault, unless
it is nested too deeply.
-/
theorem run_tokens (m : Markup) (hm : m.sound = true) {p : Progress}
    (ha : m.accepted ((p.stack.head?.map (·.scope)).getD []))
    (hp : m.isText = true → p.stack ≠ [])
    (hroot : m.isElement = true → p.stack = [] → p.hasRoot = false)
    (hdepth : p.stack.length ≤ maxDepth) (hlast : p.last ≠ some .fault) (ts : List Token) :
    ∃ last, last ≠ some .fault ∧ Progress.run [] p (m.tokens ++ ts) =
      if p.stack.length + m.depth ≤ maxDepth then
        Progress.run [] (({ p with last := last } : Progress).add
          (m.resolve ((p.stack.head?.map (·.scope)).getD []))) ts
      else none := by
  cases m with
  | text value =>
    obtain ⟨top, below, hstack⟩ := List.exists_cons_of_ne_nil (hp rfl)
    refine ⟨p.last, hlast, ?_⟩
    rw [if_pos (by simpa [Markup.depth] using hdepth), Markup.tokens]
    split
    · next he =>
      have hvoid := Markup.addNode_of_isVoid (m := .text value) he top.scope top.children
      rw [Progress.add, hstack]
      simp only [List.head?_cons, Option.map_some, Option.getD_some, hvoid]
      rw [← hstack]
      rfl
    · have hopen : p.stack.isEmpty = false := by rw [hstack]; rfl
      rw [List.singleton_append, Progress.run, Progress.step, hopen, if_neg (by simp),
        pieceText_map_textPiece, Option.map_some, Option.bind_some, String.ofList_toList,
        Markup.resolve]
  | comment value =>
    refine ⟨p.last, hlast, ?_⟩
    rw [if_pos (by simpa [Markup.depth] using hdepth), Markup.tokens, List.singleton_append,
      Progress.run, Progress.step, Option.bind_some, String.ofList_toList, Markup.resolve]
  | instruction target value =>
    simp only [Markup.sound, isInstruction, Bool.and_eq_true] at hm
    refine ⟨(p.remark (targetRemarks target.toList)).last,
      remark_ne_fault hlast (fault_not_mem_targetRemarks hm.1.1.1), ?_⟩
    rw [if_pos (by simpa [Markup.depth] using hdepth), Markup.tokens, List.singleton_append,
      Progress.run, Progress.step, Option.bind_some, String.ofList_toList, Markup.resolve]
    congr 1
    rw [Progress.remark, Progress.remark, Progress.add, Progress.add]
    cases p.stack <;> rfl
  | element name attributes children =>
    obtain ⟨hfault, hnodup, hchildren⟩ := ha
    rw [Markup.sound, Bool.and_eq_true] at hm
    rw [Markup.resolve, ← Markup.reverse_addResolved hm.2, Markup.tokens, Markup.depth]
    generalize hr : resolveTag [] ((p.stack.head?.map (·.scope)).getD []) name.toList
      (attributes.map rawAttribute) = r at hfault hchildren ⊢
    obtain ⟨last, hlast', hstep⟩ := step_startTag hr hfault hnodup (fun hs => hroot rfl hs) hlast
    simp only [Progress.opened] at hstep
    split
    · next he =>
      rw [List.isEmpty_iff.mp he, List.singleton_append, Progress.run, hstep, if_pos rfl, close_cons]
      refine ⟨last, hlast', ?_⟩
      by_cases hd : p.stack.length < maxDepth
      · rw [if_pos hd, if_pos (by rw [depthAll]; omega)]
        rfl
      · rw [if_neg hd, if_neg (by rw [depthAll]; omega)]
        rfl
    · rw [List.cons_append, List.append_assoc, Progress.run, hstep, if_neg Bool.false_ne_true]
      by_cases hd : p.stack.length < maxDepth
      · rw [if_pos hd, Option.bind_some]
        obtain ⟨last', hfair, hrun⟩ := @run_tokensOf children hm.2
          ⟨name.toList, r.tag, r.scope, []⟩ p.stack p.done _ hchildren hd hlast'
          ([Token.endTag name.toList] ++ ts)
        refine ⟨last', hfair, ?_⟩
        rw [hrun]
        by_cases hd' : p.stack.length + 1 + depthAll children ≤ maxDepth
        · rw [if_pos hd', if_pos (by omega), List.singleton_append, Progress.run, Progress.step]
          -- the end tag closes the element that the start tag opened
          simp only [List.head?_cons, Option.map_some, beq_self_eq_true, if_true]
          rw [close_cons, Option.bind_some]
        · rw [if_neg hd', if_neg (by omega)]
      · refine ⟨none, nofun, ?_⟩
        rw [if_neg hd, if_neg (by omega)]
        rfl

theorem run_tokensOf (ms : List Markup) (hms : soundAll ms = true) {top : OpenElement}
    {below : List OpenElement} {done : List Node} {last : Option Remark}
    (ha : acceptedAll top.scope ms) (hdepth : below.length < maxDepth)
    (hlast : last ≠ some .fault) (ts : List Token) :
    ∃ last', last' ≠ some .fault ∧
      Progress.run [] ⟨top :: below, done, last⟩ (tokensOf ms ++ ts) =
        if below.length + 1 + depthAll ms ≤ maxDepth then
          Progress.run [] ⟨{ top with children := addResolved top.scope ms top.children } :: below,
            done, last'⟩ ts
        else none := by
  cases ms with
  | nil => exact ⟨last, hlast, by rw [depthAll, if_pos (by omega)]; rfl⟩
  | cons m ms =>
    obtain ⟨hm, -, hms⟩ := Markup.soundAll_cons.mp hms
    rw [tokensOf, List.append_assoc, depthAll]
    obtain ⟨last₁, hfair₁, hfirst⟩ := run_tokens m hm (p := ⟨top :: below, done, last⟩) ha.1
      (by simp) nofun hdepth hlast (tokensOf ms ++ ts)
    rw [Progress.add] at hfirst
    simp only [List.head?_cons, Option.map_some, Option.getD_some, List.length_cons] at hfirst
    obtain ⟨last₂, hfair₂, hrest⟩ := @run_tokensOf ms hms
      { top with children := addNode (m.resolve top.scope) top.children } below done last₁ ha.2 hdepth
      hfair₁ ts
    refine ⟨last₂, hfair₂, ?_⟩
    rw [hfirst, hrest]
    by_cases h₁ : below.length + 1 + m.depth ≤ maxDepth
    · by_cases h₂ : below.length + 1 + depthAll ms ≤ maxDepth
      · rw [if_pos h₁, if_pos h₂, if_pos (by omega)]
        rfl
      · rw [if_pos h₁, if_neg h₂, if_neg (by omega)]
    · rw [if_neg h₁, if_neg (by omega)]

end

/-! Entities: written markup names none. -/

theorem expandTokens_eq_self (entity : List Char → Option (List Token)) {ts : List Token}
    (h : ∀ ps, Token.data ps ∈ ts → ps.any Piece.isEntity = false) :
    expandTokens entity ts = some ts := by
  induction ts with
  | nil => rfl
  | cons t ts ih =>
    have hrest := ih fun ps hps => h ps (by simp [hps])
    cases t with
    | data ps =>
      rw [expandTokens, h ps (by simp), hrest]
      rfl
    | _ => simp [expandTokens, hrest]

theorem entitiesInside_of_plain {ts : List Token}
    (h : ∀ ps, Token.data ps ∈ ts → ps.any Piece.isEntity = false) (depth : Nat) :
    entitiesInside depth ts = true := by
  induction ts generalizing depth with
  | nil => rfl
  | cons t ts ih =>
    have hrest := ih fun ps hps => h ps (by simp [hps])
    cases t with
    | data ps =>
      rw [entitiesInside, h ps (by simp), hrest]
      simp
    | _ => exact hrest _

theorem expandDocument_eq_self (d : Declarations) {ts : List Token}
    (h : ∀ ps, Token.data ps ∈ ts → ps.any Piece.isEntity = false) :
    d.expandDocument ts = some ts := by
  rw [Declarations.expandDocument, entitiesInside_of_plain h, if_pos rfl, expandTokens_eq_self _ h]

mutual

theorem isEntity_tokens (m : Markup) {ps : List Piece} (h : Token.data ps ∈ m.tokens) :
    ps.any Piece.isEntity = false := by
  cases m with
  | text value =>
    rw [Markup.tokens] at h
    split at h
    · cases h
    · rw [List.mem_singleton, Token.data.injEq] at h
      rw [h, List.any_map, List.any_eq_false]
      intro c _
      simp [isEntity_textPiece]
  | comment value => simp [Markup.tokens] at h
  | instruction target value => simp [Markup.tokens] at h
  | element name attributes children =>
    rw [Markup.tokens] at h
    split at h
    · simp at h
    · have hin : Token.data ps ∈ tokensOf children := by simpa using h
      exact isEntity_tokensOf children hin

theorem isEntity_tokensOf (ms : List Markup) {ps : List Piece} (h : Token.data ps ∈ tokensOf ms) :
    ps.any Piece.isEntity = false := by
  cases ms with
  | nil => cases h
  | cons m ms =>
    rw [tokensOf, List.mem_append] at h
    rcases h with h | h
    · exact isEntity_tokens m h
    · exact isEntity_tokensOf ms h

end

end Manifest.Xml
