import Manifest.Proofs.Xml.Opening
import Manifest.Proofs.Xml.Splice

/-! Reading inside the element around entries. What tokens do there does not depend on what that element
holds already, and no token but its end tag closes it. -/

set_option autoImplicit false

namespace Manifest.Xml

/-! Reading inside the element around entries. -/

/-- The element around entries, with the children that it has so far, the last one first. -/
def wrapper (children : List Node) : OpenElement :=
  ⟨"fragment".toList, { name := "fragment" }, [], children⟩

/-- A document that is read inside the element around entries, with elements open in it. -/
def inWrapper (inner : List OpenElement) (children : List Node) (last : Option Remark) : Progress :=
  ⟨inner ++ [wrapper children], [], last⟩

theorem isEmpty_inWrapper (inner : List OpenElement) (children : List Node) (last : Option Remark) :
    (inWrapper inner children last).stack.isEmpty = false := by
  simp [inWrapper]

/-- Nodes added one after another to children in reverse order. -/
def addNodes (nodes children : List Node) : List Node :=
  nodes.foldl (fun children node => addNode node children) children

/--
What reading tokens does inside the element around entries: the elements that are open in it afterwards,
the nodes that it gets, and the last remark. It does that whatever the element holds before, and no tag
among the tokens matches one outside.
-/
structure ReadsInside (inner : List OpenElement) (ts : List Token) (inner' : List OpenElement)
    (nodes : List Node) (remark : Option Remark) : Prop where
  run : ∀ children last, Progress.run [] (inWrapper inner children last) ts =
    some (inWrapper inner' (addNodes nodes children) (remark.or last))
  balanced : ∀ more, balanced (inner.map (·.name)) (ts ++ more) = Xml.balanced (inner'.map (·.name)) more

theorem Progress.run_append (rules : List AttributeRule) (p : Progress) (ts us : List Token) :
    p.run rules (ts ++ us) = (p.run rules ts).bind fun q => q.run rules us := by
  induction ts generalizing p with
  | nil => rfl
  | cons t ts ih =>
    rw [List.cons_append, Progress.run, Progress.run, Option.bind_assoc]
    exact congrArg _ (funext fun q => ih q)

/-- Behind the root nothing is opened any more. -/
theorem step_of_hasRoot {rules : List AttributeRule} {p q : Progress} {t : Token}
    (hstack : p.stack = []) (hroot : p.hasRoot = true) (h : p.step rules t = some q) :
    q.stack = [] ∧ q.hasRoot = true := by
  have hadd : ∀ node, (p.add node).stack = [] ∧ (p.add node).hasRoot = true := by
    intro node
    rw [Progress.hasRoot] at hroot
    rw [Progress.add, hstack]
    simp [Progress.hasRoot, hroot]
  cases t with
  | startTag name attributes closed =>
    rw [Progress.step, hstack, hroot] at h
    cases h
  | endTag name =>
    rw [Progress.step, hstack] at h
    cases h
  | data pieces =>
    rw [Progress.step, hstack] at h
    split at h
    · split at h
      · cases h
        exact ⟨hstack, hroot⟩
      · cases h
    · next hno => exact absurd rfl hno
  | verbatim chars =>
    rw [Progress.step, hstack] at h
    cases h
  | comment chars =>
    cases h
    exact hadd _
  | instruction target value =>
    cases h
    exact hadd _

theorem run_of_hasRoot {rules : List AttributeRule} {p q : Progress} {ts : List Token}
    (hstack : p.stack = []) (hroot : p.hasRoot = true) (h : p.run rules ts = some q) : q.stack = [] := by
  induction ts generalizing p with
  | nil =>
    cases h
    exact hstack
  | cons t ts ih =>
    rw [Progress.run] at h
    obtain ⟨p', hstep, hrun⟩ := Option.bind_eq_some_iff.mp h
    obtain ⟨hstack', hroot'⟩ := step_of_hasRoot hstack hroot hstep
    exact ih hstack' hroot' hrun

namespace ReadsInside

theorem nil (inner : List OpenElement) : ReadsInside inner [] inner [] none :=
  ⟨fun _ _ => rfl, fun _ => rfl⟩

theorem append {inner inner₁ inner₂ : List OpenElement} {ts us : List Token} {nodes nodes' : List Node}
    {remark remark' : Option Remark} (h : ReadsInside inner ts inner₁ nodes remark)
    (h' : ReadsInside inner₁ us inner₂ nodes' remark') :
    ReadsInside inner (ts ++ us) inner₂ (nodes ++ nodes') (remark'.or remark) := by
  refine ⟨fun children last => ?_, fun more => ?_⟩
  · rw [Progress.run_append, h.run, Option.bind_some, h'.run, addNodes, addNodes, addNodes,
      List.foldl_append, Option.or_assoc]
  · rw [List.append_assoc, h.balanced, h'.balanced]

/-- A node is added to the innermost open element. -/
theorem exists_add (inner : List OpenElement) (node : Node) : ∃ inner' nodes,
    inner'.map (·.name) = inner.map (·.name) ∧ ∀ children last,
      (inWrapper inner children last).add node = inWrapper inner' (addNodes nodes children) last := by
  cases inner with
  | nil => exact ⟨[], [node], rfl, fun _ _ => rfl⟩
  | cons top below =>
    exact ⟨{ top with children := addNode node top.children } :: below, [], rfl, fun _ _ => rfl⟩

/-- The innermost open element is closed. -/
theorem exists_close (top : OpenElement) (below : List OpenElement) : ∃ inner' nodes,
    inner'.map (·.name) = below.map (·.name) ∧ ∀ children last,
      (inWrapper (top :: below) children last).close =
        some (inWrapper inner' (addNodes nodes children) last) := by
  obtain ⟨inner', nodes, hnames, hadd⟩ := exists_add below (.element top.tag top.children.reverse)
  exact ⟨inner', nodes, hnames, fun children last => congrArg some (hadd children last)⟩

theorem of_step_eq {inner inner' : List OpenElement} {t : Token} {nodes : List Node}
    {remark : Option Remark}
    (hstep : ∀ children last, (inWrapper inner children last).step [] t =
      some (inWrapper inner' (addNodes nodes children) (remark.or last)))
    (hbalanced : ∀ more, Xml.balanced (inner.map (·.name)) (t :: more) =
      Xml.balanced (inner'.map (·.name)) more) : ReadsInside inner [t] inner' nodes remark :=
  ⟨fun children last => by rw [Progress.run, hstep]; rfl, hbalanced⟩

/-- A token that is no tag adds a node. -/
theorem exists_of_add {inner : List OpenElement} {t : Token} (node : Node) (remarks : List Remark)
    (hstep : ∀ children last, (inWrapper inner children last).step [] t =
      some (((inWrapper inner children last).add node).remark remarks))
    (hbalanced : ∀ names more, Xml.balanced names (t :: more) = Xml.balanced names more) :
    ∃ inner' nodes remark, ReadsInside inner [t] inner' nodes remark := by
  obtain ⟨inner', nodes, hnames, hadd⟩ := exists_add inner node
  refine ⟨inner', nodes, remarks.getLast?, of_step_eq (fun children last => ?_) fun more => ?_⟩
  · rw [hstep, hadd]
    rfl
  · rw [hnames, hbalanced]

/-- A start tag is read inside if it is read at all. -/
theorem step_startTag {inner : List OpenElement} {children : List Node} {last : Option Remark}
    {name : List Char} {attributes : List (List Char × List Char)} {closed : Bool} {q : Progress}
    (h : (inWrapper inner children last).step [] (.startTag name attributes closed) = some q) :
    ∀ children last, (inWrapper inner children last).step [] (.startTag name attributes closed) =
      let r := resolveTag [] ((inner.head?.map (·.scope)).getD []) name attributes
      let opened := inWrapper (⟨name, r.tag, r.scope, []⟩ :: inner) children (r.remarks.getLast?.or last)
      if closed then opened.close else some opened := by
  have hlength : ∀ children last, (inWrapper inner children last).stack.length = inner.length + 1 := by
    intro children last
    simp [inWrapper]
  have hscope : ∀ children last, ((inWrapper inner children last).stack.head?.map (·.scope)).getD [] =
      (inner.head?.map (·.scope)).getD [] := by
    intro children last
    cases inner <;> rfl
  rw [Progress.step] at h
  split at h
  · cases h
  · next hc =>
    simp only [isEmpty_inWrapper, hlength, Bool.false_and, Bool.false_or] at hc
    intro children last
    rw [Progress.step]
    simp only [isEmpty_inWrapper, hlength, hscope, Bool.false_and, Bool.false_or]
    rw [if_neg hc]
    rfl

/-- What one token does: it closes the element around the entries, or it is read inside. -/
theorem of_step {inner : List OpenElement} {children : List Node} {last : Option Remark} {t : Token}
    {q : Progress} (h : (inWrapper inner children last).step [] t = some q) :
    (q.stack = [] ∧ q.hasRoot = true) ∨
      ∃ inner' nodes remark, ReadsInside inner [t] inner' nodes remark := by
  cases t with
  | startTag name attributes closed =>
    right
    have hstep := step_startTag h
    generalize resolveTag [] ((inner.head?.map (·.scope)).getD []) name attributes = r at hstep
    cases closed with
    | false => exact ⟨_, [], r.remarks.getLast?, of_step_eq hstep fun more => rfl⟩
    | true =>
      obtain ⟨inner', nodes, hnames, hclose⟩ := exists_close ⟨name, r.tag, r.scope, []⟩ inner
      refine ⟨inner', nodes, r.remarks.getLast?, of_step_eq (fun children last => ?_) fun more => ?_⟩
      · rw [hstep, if_pos rfl, hclose]
      · rw [hnames]
        cases inner.map (·.name) <;> rfl
  | endTag name =>
    rw [Progress.step] at h
    split at h
    · next hname =>
      cases inner with
      | nil =>
        cases h
        exact .inl ⟨rfl, rfl⟩
      | cons top below =>
        obtain ⟨inner', nodes, hnames, hclose⟩ := exists_close top below
        have htop : (top.name == name) = true := hname
        refine .inr ⟨inner', nodes, none, of_step_eq (fun children last => ?_) fun more => ?_⟩
        · rw [Progress.step, ← hclose]
          exact if_pos hname
        · rw [hnames, List.map_cons, Xml.balanced, htop, Bool.true_and]
    · cases h
  | data pieces =>
    rw [Progress.step, isEmpty_inWrapper, if_neg Bool.false_ne_true] at h
    obtain ⟨chars, hchars, -⟩ := Option.map_eq_some_iff.mp h
    refine .inr (exists_of_add (.text (String.ofList chars)) [] (fun children last => ?_) fun names more => ?_)
    · rw [Progress.step, isEmpty_inWrapper, if_neg Bool.false_ne_true, hchars]
      rfl
    · cases names <;> rfl
  | verbatim chars =>
    refine .inr (exists_of_add (.text (String.ofList chars)) [] (fun children last => ?_) fun names more => ?_)
    · rw [Progress.step, isEmpty_inWrapper]
      rfl
    · cases names <;> rfl
  | comment chars =>
    exact .inr (exists_of_add (.comment (String.ofList chars)) [] (fun _ _ => rfl)
      fun names more => by cases names <;> rfl)
  | instruction target value =>
    exact .inr (exists_of_add (.instruction (String.ofList target) (String.ofList value))
      (targetRemarks target) (fun _ _ => rfl) fun names more => by cases names <;> rfl)

/-- What tokens do that leave the element around the entries open. -/
theorem of_run {inner : List OpenElement} {children : List Node} {last : Option Remark} {ts : List Token}
    {q : Progress} (h : Progress.run [] (inWrapper inner children last) ts = some q)
    (hq : q.stack ≠ []) : ∃ inner' nodes remark, ReadsInside inner ts inner' nodes remark := by
  induction ts generalizing inner children last with
  | nil => exact ⟨inner, [], none, nil inner⟩
  | cons t ts ih =>
    rw [Progress.run] at h
    obtain ⟨p, hstep, hrun⟩ := Option.bind_eq_some_iff.mp h
    rcases of_step hstep with ⟨hstack, hroot⟩ | ⟨inner₁, nodes, remark, hfirst⟩
    · exact absurd (run_of_hasRoot hstack hroot hrun) hq
    · have hp := hfirst.run children last
      rw [Progress.run, hstep] at hp
      cases hp
      obtain ⟨inner', nodes', remark', hrest⟩ := ih hrun
      exact ⟨inner', nodes ++ nodes', remark'.or remark, hfirst.append hrest⟩

end ReadsInside

/-! Tokens of texts side by side. -/

theorem addNode_append (a b : List Char) (children : List Node) :
    addNode (.text (String.ofList b)) (addNode (.text (String.ofList a)) children) =
      addNode (.text (String.ofList (a ++ b))) children := by
  cases children with
  | nil => cases a <;> simp [addNode, isEmpty_ofList, String.append_assoc]
  | cons node rest =>
    cases node with
    | text before => simp [addNode, String.append_assoc]
    | _ => cases a <;> simp [addNode, isEmpty_ofList, String.append_assoc]

theorem pieceText_append (ps qs : List Piece) :
    pieceText (ps ++ qs) = (pieceText ps).bind fun a => (pieceText qs).map (a ++ ·) := by
  induction ps with
  | nil => simp [pieceText]
  | cons piece ps ih =>
    cases piece <;> simp [pieceText, ih, Option.map_bind, Option.bind_map, Function.comp_def]

/-- Character data in two tokens is read like that in one. -/
theorem step_data_append {rules : List AttributeRule} {p q : Progress} {ps qs : List Piece}
    (h : p.step rules (.data ps) = some q) (hq : q.stack ≠ []) :
    p.step rules (.data (ps ++ qs)) = q.step rules (.data qs) := by
  obtain ⟨stack, done, last⟩ := p
  cases stack with
  | nil =>
    rw [Progress.step] at h
    split at h
    · split at h
      · cases h
        exact absurd rfl hq
      · cases h
    · next hno => exact absurd rfl hno
  | cons top below =>
    obtain ⟨a, ha, rfl⟩ := Option.map_eq_some_iff.mp h
    have hadd : ∀ b : List Char, (⟨top :: below, done, last⟩ : Progress).add (.text (String.ofList (a ++ b))) =
        ((⟨top :: below, done, last⟩ : Progress).add (.text (String.ofList a))).add
          (.text (String.ofList b)) := by
      intro b
      simp only [Progress.add, addNode_append]
    rw [Progress.step, Progress.step, if_neg (by simp), if_neg (by simp [Progress.add]), pieceText_append, ha,
      Option.bind_some, Option.map_map]
    exact congrArg (Option.map · _) (funext hadd)

theorem run_joinTokens {rules : List AttributeRule} {p q : Progress} {ts : List Token}
    (h : p.run rules ts = some q) (hq : q.stack ≠ []) (us : List Token) :
    p.run rules (joinTokens ts us) = q.run rules us := by
  fun_induction joinTokens ts us generalizing p with
  | case1 ps qs us =>
    rw [Progress.run] at h
    obtain ⟨p', hstep, hrun⟩ := Option.bind_eq_some_iff.mp h
    cases hrun
    rw [Progress.run, Progress.run, step_data_append hstep hq]
  | case2 us =>
    cases h
    rfl
  | case3 t ts us _ ih =>
    rw [Progress.run] at h
    obtain ⟨p', hstep, hrun⟩ := Option.bind_eq_some_iff.mp h
    rw [Progress.run, hstep, Option.bind_some, ih hrun]

theorem balanced_cons_congr {ts us : List Token} (h : ∀ names, balanced names ts = balanced names us)
    (t : Token) (names : List (List Char)) : balanced names (t :: ts) = balanced names (t :: us) := by
  cases t with
  | startTag name attributes closed => exact h _
  | endTag name =>
    cases names with
    | nil => rfl
    | cons top names => rw [balanced, balanced, h]
  | _ => cases names <;> exact h _

theorem balanced_joinTokens (ts us more : List Token) (names : List (List Char)) :
    balanced names (joinTokens ts us ++ more) = balanced names (ts ++ (us ++ more)) := by
  fun_induction joinTokens ts us generalizing names with
  | case1 ps qs us => cases names <;> rfl
  | case2 us => rfl
  | case3 t ts us _ ih => exact balanced_cons_congr ih t names

theorem ReadsInside.joined {inner inner₁ inner₂ : List OpenElement} {ts us : List Token}
    {nodes nodes' : List Node} {remark remark' : Option Remark}
    (h : ReadsInside inner ts inner₁ nodes remark) (h' : ReadsInside inner₁ us inner₂ nodes' remark') :
    ReadsInside inner (joinTokens ts us) inner₂ (nodes ++ nodes') (remark'.or remark) := by
  have hboth := h.append h'
  refine ⟨fun children last => ?_, fun more => ?_⟩
  · rw [run_joinTokens (h.run children last) (by simp [inWrapper]), ← hboth.run, Progress.run_append,
      h.run, Option.bind_some]
  · rw [balanced_joinTokens, ← List.append_assoc, hboth.balanced]

/-! Entities: without a document type there are none. -/

theorem expandPieces_eq_none {entity : List Char → Option (List Token)} (hentity : ∀ name, entity name = none)
    {ps : List Piece} (h : ps.any Piece.isEntity = true) : expandPieces entity ps = none := by
  induction ps with
  | nil => cases h
  | cons piece ps ih =>
    cases piece with
    | entity name => rw [expandPieces, hentity]; rfl
    | literal c => exact Option.map_eq_none_iff.mpr (ih h)
    | referred c => exact Option.map_eq_none_iff.mpr (ih h)

theorem expandTokens_eq_some {entity : List Char → Option (List Token)} (hentity : ∀ name, entity name = none)
    {ts us : List Token} (h : expandTokens entity ts = some us) : us = ts := by
  induction ts generalizing us with
  | nil =>
    cases h
    rfl
  | cons t ts ih =>
    cases t with
    | data ps =>
      rw [expandTokens] at h
      split at h
      · next hany =>
        rw [expandPieces_eq_none hentity hany] at h
        cases h
      · obtain ⟨front, hfront, h⟩ := Option.bind_eq_some_iff.mp h
        cases hfront
        obtain ⟨back, hback, hcons⟩ := Option.bind_eq_some_iff.mp h
        cases hcons
        rw [ih hback]
        rfl
    | _ =>
      obtain ⟨back, hback, hcons⟩ := Option.map_eq_some_iff.mp h
      rw [← hcons, ih hback]

theorem isEntity_of_pieceText {ps : List Piece} {chars : List Char} (h : pieceText ps = some chars) :
    ps.any Piece.isEntity = false := by
  induction ps generalizing chars with
  | nil => rfl
  | cons piece ps ih =>
    cases piece with
    | entity name => cases h
    | literal c =>
      obtain ⟨more, hmore, -⟩ := Option.map_eq_some_iff.mp h
      exact ih hmore
    | referred c =>
      obtain ⟨more, hmore, -⟩ := Option.map_eq_some_iff.mp h
      exact ih hmore

theorem isEntity_of_isPlainSpace {ps : List Piece} (h : isPlainSpace ps = true) :
    ps.any Piece.isEntity = false := by
  induction ps with
  | nil => rfl
  | cons piece ps ih =>
    rw [isPlainSpace, List.all_cons, Bool.and_eq_true] at h
    cases piece with
    | entity name => cases h.1
    | _ => exact ih h.2

/-- Character data that is read holds no entity. -/
theorem isEntity_of_run {rules : List AttributeRule} {p q : Progress} {ts : List Token}
    (h : p.run rules ts = some q) {ps : List Piece} (hps : Token.data ps ∈ ts) :
    ps.any Piece.isEntity = false := by
  induction ts generalizing p with
  | nil => cases hps
  | cons t ts ih =>
    rw [Progress.run] at h
    obtain ⟨p', hstep, hrun⟩ := Option.bind_eq_some_iff.mp h
    rcases List.mem_cons.mp hps with rfl | hps
    · rw [Progress.step] at hstep
      split at hstep
      · split at hstep
        · next hplain => exact isEntity_of_isPlainSpace hplain
        · cases hstep
      · obtain ⟨chars, hchars, -⟩ := Option.map_eq_some_iff.mp hstep
        exact isEntity_of_pieceText hchars
    · exact ih hrun hps

/-! What a text of entries holds. -/

/-- What an entity stands for in an attribute where no document type declares any. -/
def noEntities : EntityText :=
  ({} : Declarations).attributeEntity maxEntityDepth

/-- Whether a text is read as some nodes inside the element around it, with a last remark. -/
def HoldsNodes (cs : List Char) (nodes : List Node) (remark : Option Remark) : Prop :=
  ∃ ts, Lexes noEntities cs ts ∧ ReadsInside [] ts [] nodes remark

theorem elementsOf_addNode (node : Node) (children : List Node) :
    elementsOf (addNode node children).reverse = elementsOf children.reverse ++ elementsOf [node] := by
  cases node with
  | text value =>
    cases children with
    | nil => cases h : value.isEmpty <;> simp [addNode, h]
    | cons first rest => cases first <;> cases h : value.isEmpty <;> simp [addNode, h]
  | _ => simp [addNode]

theorem elementsOf_addNodes (nodes children : List Node) :
    elementsOf (addNodes nodes children).reverse = elementsOf children.reverse ++ elementsOf nodes := by
  induction nodes generalizing children with
  | nil => simp [addNodes]
  | cons node nodes ih =>
    have hcons : addNodes (node :: nodes) children = addNodes nodes (addNode node children) := rfl
    rw [hcons, ih, elementsOf_addNode, List.append_assoc, ← elementsOf_append, List.singleton_append]

theorem inWrapper_inj {inner inner' : List OpenElement} {children children' : List Node}
    {last last' : Option Remark} (h : inWrapper inner children last = inWrapper inner' children' last') :
    inner = inner' ∧ children = children' ∧ last = last' := by
  rw [inWrapper, inWrapper, Progress.mk.injEq] at h
  obtain ⟨hstack, -, hlast⟩ := h
  obtain ⟨hinner, hwrapper⟩ := List.append_inj' hstack rfl
  exact ⟨hinner, congrArg OpenElement.children (List.cons.inj hwrapper).1, hlast⟩

theorem HoldsNodes.append {a b : List Char} {nodes nodes' : List Node} {remark remark' : Option Remark}
    (ha : HoldsNodes a nodes remark) (hb : HoldsNodes b nodes' remark')
    (hlast : a.getLast? ≠ some ']') : HoldsNodes (a ++ b) (nodes ++ nodes') (remark'.or remark) := by
  obtain ⟨ts, hts, hread⟩ := ha
  obtain ⟨us, hus, hread'⟩ := hb
  exact ⟨joinTokens ts us, hts.append hus fun h => absurd h hlast, hread.joined hread'⟩

/-- A line feed in front is text, so that the elements are the same without it. -/
theorem HoldsNodes.of_newline {cs : List Char} {nodes : List Node} {remark : Option Remark}
    (h : HoldsNodes ('\n' :: cs) nodes remark) :
    ∃ nodes', HoldsNodes cs nodes' remark ∧ elementsOf nodes' = elementsOf nodes := by
  obtain ⟨ts, hts, hread⟩ := h
  obtain ⟨ps, us, rfl, hrest⟩ := hts.of_newline
  have hrun := hread.run [] none
  rw [Progress.run] at hrun
  obtain ⟨p, hstep, hrun⟩ := Option.bind_eq_some_iff.mp hrun
  obtain ⟨chars, hchars, rfl⟩ := Option.map_eq_some_iff.mp hstep
  obtain ⟨chars, htext, rfl⟩ := Option.map_eq_some_iff.mp hchars
  -- what follows is read behind the text that the line feed begins
  have hrun' : Progress.run [] (inWrapper [] (addNodes [.text (String.ofList ('\n' :: chars))] []) none) us =
      some (inWrapper [] (addNodes nodes []) (remark.or none)) := hrun
  obtain ⟨inner', nodes', remark', hus⟩ := ReadsInside.of_run hrun' (by simp [inWrapper])
  have hend := (hus.run _ none).symm.trans hrun'
  obtain ⟨rfl, hchildren, hremark⟩ := inWrapper_inj (Option.some.inj hend)
  obtain rfl : remark' = remark := by simpa using hremark
  have helements : elementsOf nodes' = elementsOf nodes := by
    have := congrArg (fun children => elementsOf children.reverse) hchildren
    simpa [elementsOf_addNodes] using this
  rcases hrest with hdata | ⟨rfl, hus'⟩
  · have hfirst : ReadsInside [] [.data ps] [] [.text (String.ofList chars)] none := by
      refine ReadsInside.of_step_eq (fun children last => ?_) fun more => rfl
      rw [Progress.step, isEmpty_inWrapper, if_neg Bool.false_ne_true, htext]
      rfl
    have hboth := hfirst.append hus
    rw [Option.or_none] at hboth
    exact ⟨.text (String.ofList chars) :: nodes', ⟨_, hdata, hboth⟩, helements⟩
  · exact ⟨nodes', ⟨us, hus', hus⟩, helements⟩

/-! Documents that hold entries. -/

theorem expandDocument_eq_some {ts us : List Token}
    (h : ({} : Declarations).expandDocument ts = some us) : us = ts := by
  rw [Declarations.expandDocument] at h
  split at h
  · exact expandTokens_eq_some (fun name => rfl) h
  · cases h

theorem takeProlog_root {cs : List Char} (h : startsTag cs = true) : takeProlog cs = some ({}, cs) := by
  obtain ⟨c, rest, rfl, hc⟩ := startsTag_eq_true h
  have hdeclared : takeDeclared ('<' :: c :: rest) = some (none, '<' :: c :: rest) := by
    refine takeDeclared_eq_none fun d more heq => ?_
    rw [(List.cons.inj (List.cons.inj heq).2).1] at hc
    exact absurd hc (by decide)
  rw [takeProlog, hdeclared]
  simp only [Option.bind_eq_bind, Option.bind_some, takeMisc_root _ _ h, Option.pure_def]

/-- The start tag of the element around entries opens it. -/
theorem step_start : Progress.step [] {} (.startTag "fragment".toList [] false) =
    some (inWrapper [] [] none) := by
  have htag : (resolveTag [] [] "fragment".toList []).tag = { name := "fragment" } := by decide
  have hscope : (resolveTag [] [] "fragment".toList []).scope = [] := by decide
  have hremarks : (resolveTag [] [] "fragment".toList []).remarks = [] := by decide
  have hstep : Progress.step [] {} (.startTag "fragment".toList [] false) =
      some ((⟨⟨"fragment".toList, (resolveTag [] [] "fragment".toList []).tag,
        (resolveTag [] [] "fragment".toList []).scope, []⟩ :: [], [], none⟩ : Progress).remark
          (resolveTag [] [] "fragment".toList []).remarks) := rfl
  rw [hstep, htag, hscope, hremarks]
  rfl

/-- The end tag of the element around entries closes it if no other one is open. -/
theorem step_finish {inner : List OpenElement} {children : List Node} {last : Option Remark}
    {q : Progress} (h : (inWrapper inner children last).step [] (.endTag "fragment".toList) = some q)
    (hq : q.stack = []) :
    inner = [] ∧ q = ⟨[], [.element { name := "fragment" } children.reverse], last⟩ := by
  rw [Progress.step] at h
  split at h
  · cases inner with
    | nil =>
      cases h
      exact ⟨rfl, rfl⟩
    | cons top below =>
      obtain ⟨inner', nodes, -, hclose⟩ := ReadsInside.exists_close top below
      rw [hclose, Option.some.injEq] at h
      rw [← h] at hq
      simp [inWrapper] at hq
  · cases h

theorem readLines_wrapped_iff {cs : List Char} {contents : Contents} :
    readLines (wrapped cs) = some contents ↔ ∃ nodes remark, HoldsNodes cs nodes remark ∧
      remark ≠ some .fault ∧
      contents = ⟨none, none, [.element { name := "fragment" } (addNodes nodes []).reverse]⟩ := by
  have hstart : startsTag (wrapped cs) = true := by
    rfl
  rw [readLines, takeProlog_root hstart]
  simp only [Option.bind_eq_bind, Option.bind_some, Option.map_none, Option.getD_none, List.nil_append,
    Option.bind_eq_some_iff, Option.pure_def, Option.some.injEq]
  constructor
  · rintro ⟨body, hbody, all, hall, p, hrun, nodes, hfinish, rfl⟩
    obtain ⟨ts, hts, rfl⟩ := lexes_wrapped.mp (lexes_of_tokensWithin hbody)
    -- the tokens of the text leave the element around them open, and the last token closes it
    rw [expandDocument_eq_some hall, Progress.run, step_start, Option.bind_some, Progress.run_append] at hrun
    obtain ⟨q, hrun, hlast⟩ := Option.bind_eq_some_iff.mp hrun
    obtain ⟨p', hstep, hp⟩ := Option.bind_eq_some_iff.mp hlast
    cases hp
    rw [Progress.finish] at hfinish
    split at hfinish
    · next hc =>
      simp only [Bool.and_eq_true, List.isEmpty_iff, bne_iff_ne] at hc
      have hq : q.stack ≠ [] := by
        intro hnil
        rw [Progress.step, hnil] at hstep
        cases hstep
      obtain ⟨inner, nodes', remark, hread⟩ := ReadsInside.of_run hrun hq
      have hreached := (hread.run [] none).symm.trans hrun
      cases hreached
      obtain ⟨rfl, rfl⟩ := step_finish hstep hc.1.1
      cases hfinish
      exact ⟨nodes', remark, ⟨ts, hts, hread⟩, by simpa using hc.2, rfl⟩
    · cases hfinish
  · rintro ⟨nodes, remark, ⟨ts, hts, hread⟩, hremark, rfl⟩
    have hplain : ∀ ps, Token.data ps ∈ Token.startTag "fragment".toList [] false ::
        (ts ++ [.endTag "fragment".toList]) → ps.any Piece.isEntity = false := by
      intro ps hps
      have hmem : Token.data ps ∈ ts := by simpa using hps
      exact isEntity_of_run (hread.run [] none) hmem
    have hrun : Progress.run [] {} (Token.startTag "fragment".toList [] false ::
        (ts ++ [.endTag "fragment".toList])) =
        some ⟨[], [.element { name := "fragment" } (addNodes nodes []).reverse], remark⟩ := by
      rw [Progress.run, step_start, Option.bind_some, Progress.run_append, hread.run, Option.or_none]
      rfl
    refine ⟨_, (lexes_wrapped.mpr ⟨ts, hts, rfl⟩).tokens, _, expandDocument_eq_self _ hplain, _, hrun, _, ?_,
      rfl⟩
    rw [Progress.finish]
    exact if_pos (by simpa [Progress.hasRoot] using ⟨rfl, hremark⟩)

end Manifest.Xml
