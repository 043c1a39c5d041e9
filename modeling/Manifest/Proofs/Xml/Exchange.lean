import Manifest.Proofs.Section.Apart
import Manifest.Proofs.Xml.Around

/-! Exchanging the children of sections in a tree that is written without using up numbers of generated
prefixes. If what is written for the new children differs from what was written for the old ones only
by white space, so does what is written for the whole tree, however many sections are changed. -/

set_option autoImplicit false

namespace Manifest.Xml

open Markup (bareAll bareInside hasNodes indentInside indentNodes lineBreak resolveAll steadyAll)

variable {scope : Scope} {parent : Option String} {next : Nat}

/-- What a start tag and the children are written as, where no number is used up. -/
theorem qualify_toNode_eq_some {e : Element} {m : Markup}
    (h : qualify scope parent next e.toNode = some (m, next)) :
    ∃ w ms, qualifyTag scope parent next e.tag = some w ∧ w.next = next ∧
      qualifyNodes w.scope w.uri next e.children = some (ms, next) ∧
      m = .element w.name w.attributes ms := by
  rw [Element.toNode, qualify] at h
  split at h
  · cases h
  · next w hw =>
    split at h
    · cases h
    · next ms n hms =>
      cases h
      have hnext := Nat.le_antisymm (le_of_qualifyNodes _ hms) (le_next_qualifyTag hw)
      exact ⟨w, ms, hw, hnext, hnext ▸ hms, rfl⟩

theorem qualify_toNode {tag : Tag} {children : List Node} {w : WrittenTag} {ms : List Markup}
    (hw : qualifyTag scope parent next tag = some w) (hnext : w.next = next)
    (hms : qualifyNodes w.scope w.uri next children = some (ms, next)) :
    qualify scope parent next (Element.toNode ⟨tag, children⟩) =
      some (.element w.name w.attributes ms, next) := by
  rw [Element.toNode, qualify, hw]
  dsimp only
  rw [hnext, hms]

/-- Around a child no number is used up either. -/
theorem qualifyNodes_around {front back : List Node} {child : Element} {ms : List Markup}
    (h : qualifyNodes scope parent next (front ++ child.toNode :: back) = some (ms, next)) :
    ∃ mf mc mb, qualifyNodes scope parent next front = some (mf, next) ∧
      qualify scope parent next child.toNode = some (mc, next) ∧
      qualifyNodes scope parent next back = some (mb, next) ∧ ms = mf ++ mc :: mb := by
  obtain ⟨mf, n₁, mc, n₂, mb, hf, hc, hb, rfl⟩ := (qualifyNodes_append_node rfl).mp h
  have hle₁ := le_of_qualifyNodes _ hf
  have hle₂ := le_of_qualify _ hc
  have hle₃ := le_of_qualifyNodes _ hb
  obtain rfl : n₁ = next := by omega
  obtain rfl : n₂ = n₁ := by omega
  exact ⟨mf, mc, mb, hf, hc, hb, rfl⟩

/-- A section that is there, with other children. -/
theorem exists_qualify_inSection {path : List String} {x owner : Element}
    (howner : x.descend path = some owner) {s : Scope} {p : Option String}
    (hsite : siteOf? next path x scope parent = some (s, p)) {old new : List Markup}
    {children : List Node} (hold : qualifyNodes s p next owner.children = some (old, next))
    (hnew : qualifyNodes s p next children = some (new, next)) (hbare : bareInside new = bareInside old)
    {m : Markup} (hm : qualify scope parent next x.toNode = some (m, next)) :
    ∃ m', qualify scope parent next (x.inSection path (Element.holding children)).toNode =
      some (m', next) ∧ m'.bare = m.bare := by
  induction path generalizing x scope parent m with
  | nil =>
    cases howner
    obtain ⟨w, ms, hw, hnext, hms, rfl⟩ := qualify_toNode_eq_some hm
    rw [siteOf?, hw, Option.map_some, Option.some.injEq, Prod.mk.injEq] at hsite
    obtain ⟨rfl, rfl⟩ := hsite
    rw [hms] at hold
    cases hold
    exact ⟨_, qualify_toNode hw hnext hnew, by rw [Markup.bare_element, Markup.bare_element, hbare]⟩
  | cons name rest ih =>
    rw [Element.descend] at howner
    obtain ⟨child, hchild, howner⟩ := Option.bind_eq_some_iff.mp howner
    cases hr : x.ranked? name with
    | none =>
      rw [Element.ranked?_eq_none_iff.mp hr] at hchild
      cases hchild
    | some found =>
      obtain ⟨c, rank⟩ := found
      obtain ⟨hc, -, hat, -⟩ := Element.ranked?_eq_some hr
      obtain rfl : c = child := Option.some.inj (hc.symm.trans hchild)
      obtain ⟨front, back, hchildren, hrank⟩ := exists_split_of_getElem? hat
      obtain ⟨w, ms, hw, hnext, hms, rfl⟩ := qualify_toNode_eq_some hm
      rw [siteOf?, hw, Option.bind_some, hc, Option.bind_some] at hsite
      rw [hchildren] at hms
      obtain ⟨mf, mc, mb, hf, hmc, hb, rfl⟩ := qualifyNodes_around hms
      obtain ⟨mc', hmc', hbare'⟩ := ih howner hsite hmc
      have hnode : mc.isText = false := isText_qualify hmc
      have hnode' : mc'.isText = false := isText_qualify hmc'
      rw [Element.inSection_cons_of_some hr, hchildren, modifyElement_append _ hrank]
      refine ⟨_, qualify_toNode hw hnext ((qualifyNodes_append_node rfl).mpr
        ⟨mf, next, mc', next, mb, hf, hmc', hb, rfl⟩), ?_⟩
      rw [Markup.bare_element, Markup.bare_element, bareInside, bareInside,
        if_pos (Markup.hasNodes_append_node hnode mf mb),
        if_pos (Markup.hasNodes_append_node hnode' mf mb), Markup.bareAll_append, Markup.bareAll_append,
        Markup.bareAll, Markup.bareAll, Markup.not_isBlank_of_not_isText hnode,
        Markup.not_isBlank_of_not_isText hnode', if_neg (by simp), if_neg (by simp), hbare']

/-- What is in force in a section does not depend on the children of one whose path parts from its own. -/
theorem siteOf?_inSection_of_parts {path other : List String} {x : Element}
    (h : (x.descend path).isSome = true) (hparts : parts other path = true) (children : List Node)
    (scope : Scope) (parent : Option String) :
    siteOf? next other (x.inSection path (Element.holding children)) scope parent =
      siteOf? next other x scope parent := by
  induction path generalizing x other scope parent with
  | nil => cases other <;> cases hparts
  | cons name rest ih =>
    cases other with
    | nil => cases hparts
    | cons name' rest' =>
      rw [Element.descend] at h
      cases hr : x.ranked? name with
      | none =>
        rw [Element.ranked?_eq_none_iff.mp hr] at h
        cases h
      | some found =>
        obtain ⟨child, rank⟩ := found
        obtain ⟨hchild, hrank, -, -⟩ := Element.ranked?_eq_some hr
        rw [hchild, Option.bind_some] at h
        have hname := Element.name_inSection (Element.name_holding children) rest child
        rw [Element.inSection_cons_of_some hr, siteOf?, siteOf?, Element.child?_replaced hr hname]
        refine Option.bind_congr fun w _ => ?_
        by_cases hn : name' = name
        · subst hn
          rw [if_pos hrank.symm, hchild, Option.map_some, Option.bind_some, Option.bind_some]
          exact ih h (by simpa [parts_cons_cons] using hparts) w.scope w.uri
        · cases hother : x.child? name' with
          | none => simp
          | some y => rw [if_neg (Element.findIdx_ne_of_ranked? hr hn hother)]

/--
Whether children can be exchanged in a section: what is written for the new ones where the section is
differs from what is written for those that are there only by white space.
-/
def Exchangeable (x : Element) (path : List String) (children : List Node) : Prop :=
  ∃ owner s p old new, x.descend path = some owner ∧ siteOf? 0 path x [] none = some (s, p) ∧
    qualifyNodes s p 0 owner.children = some (old, 0) ∧ qualifyNodes s p 0 children = some (new, 0) ∧
    bareInside new = bareInside old

/-- Children can be exchanged in some sections one after another. -/
theorem exists_qualify_withSections {x : Element} {sections : List (List String × List Node)}
    (hparts : sections.Pairwise fun a b => parts a.1 b.1 = true)
    (hall : ∀ s ∈ sections, Exchangeable x s.1 s.2) {m : Markup}
    (hm : qualify [] none 0 x.toNode = some (m, 0)) :
    ∃ m', qualify [] none 0 (x.withSections sections).toNode = some (m', 0) ∧ m'.bare = m.bare := by
  induction sections generalizing x m with
  | nil => exact ⟨m, hm, rfl⟩
  | cons s sections ih =>
    obtain ⟨⟨owner, sc, p, old, new, howner, hsite, hold, hnew, hbare⟩, hrest⟩ :=
      List.forall_mem_cons.mp hall
    obtain ⟨hs, hsections⟩ := List.pairwise_cons.mp hparts
    obtain ⟨m₁, hm₁, hbare₁⟩ := exists_qualify_inSection howner hsite hold hnew hbare hm
    have hafter : ∀ a ∈ sections, Exchangeable (x.inSection s.1 (Element.holding s.2)) a.1 a.2 := by
      intro a ha
      obtain ⟨owner', sc', p', old', new', howner', hsite', hrest'⟩ := hrest a ha
      have hap : parts a.1 s.1 = true := by
        rw [parts_comm]
        exact hs a ha
      refine ⟨owner', sc', p', old', new', ?_, ?_, hrest'⟩
      · rw [Element.descend_inSection_of_parts (Element.name_holding s.2) x hap, howner']
      · rw [siteOf?_inSection_of_parts (by rw [howner]; rfl) hap, hsite']
    obtain ⟨m', hm', hbare'⟩ := ih hsections hafter hm₁
    exact ⟨m', hm', hbare'.trans hbare₁⟩

/-! Nodes other than text that were read where they had been written. -/

namespace Markup

theorem filter_resolveAll (reading : Scope) (ms : List Markup) :
    (resolveAll reading ms).filter (!·.isBlank) = (ms.filter (!·.isBlank)).map (·.resolve reading) := by
  induction ms with
  | nil => rfl
  | cons m ms ih =>
    rw [resolveAll, List.filter_cons]
    cases hb : m.isBlank with
    | true =>
      rw [Bool.not_true, if_neg Bool.false_ne_true, ← ih]
      split
      · rfl
      · rw [List.filter_cons_of_neg (by rw [isBlank_resolve, hb]; simp)]
    | false =>
      rw [Bool.not_false, if_pos rfl, List.map_cons, ← ih, isVoid_of_not_isBlank hb,
        if_neg Bool.false_ne_true, List.filter_cons_of_pos (by rw [isBlank_resolve, hb]; rfl)]

theorem indent_of_isText {m : Markup} (h : m.isText = true) (unit : String) (level : Nat) :
    m.indent unit level = m := by
  cases m <;> first | rfl | cases h

theorem filter_isBlank_indentNodes {unit : String} (hwhite : isWhite unit = true) (level : Nat)
    (gap : Bool) (ms : List Markup) :
    (indentNodes unit level gap ms).filter (!·.isBlank) =
      (ms.filter (!·.isBlank)).map (·.indent unit (level + 1)) := by
  have hbreak : ∀ (gap : Bool) (level : Nat),
      (if gap then [lineBreak unit level] else []).filter (!·.isBlank) = [] := by
    intro gap level
    cases gap with
    | true => rw [if_pos rfl, List.filter_singleton, isBlank_lineBreak hwhite]; rfl
    | false => rfl
  induction ms generalizing gap with
  | nil => exact hbreak gap (level - 1)
  | cons m ms ih =>
    rcases blank_or_text_or_node m with hm | ⟨hm, hb⟩ | hm
    · rw [indentNodes_blank unit hm, List.filter_append, hbreak, ih, List.filter_cons_of_neg (by simp [hm])]
      rfl
    · rw [indentNodes_text unit hm hb, List.filter_cons_of_pos (by simp [hb]), ih,
        List.filter_cons_of_pos (by simp [hb]), List.map_cons, indent_of_isText hm]
    · have hb := not_isBlank_of_not_isText hm
      have hb' := not_isBlank_of_not_isText ((isText_indent unit (level + 1) m).trans hm)
      rw [indentNodes_node unit hm, List.filter_append, hbreak, List.filter_cons_of_pos (by simp [hb']), ih,
        List.filter_cons_of_pos (by simp [hb]), List.map_cons]
      rfl

/-- But for white space, what is inside an element is read as what its parts are read as by themselves. -/
theorem filter_resolveAll_indentInside {unit : String} (hwhite : isWhite unit = true) (level : Nat)
    (reading : Scope) (ms : List Markup) :
    (resolveAll reading (indentInside unit level ms)).filter (!·.isBlank) =
      (ms.filter (!·.isBlank)).map fun m => (m.indent unit (level + 1)).resolve reading := by
  rw [filter_resolveAll, indentInside]
  split
  · rw [filter_isBlank_indentNodes hwhite, List.map_map]
    rfl
  · next hno =>
    refine List.map_congr_left fun m hm => ?_
    have htext : m.isText = true := by
      rw [hasNodes, List.any_eq_true] at hno
      exact eq_true_of_ne_false fun hm' => hno ⟨m, (List.mem_filter.mp hm).1, by simp [hm']⟩
    rw [indent_of_isText htext]

section
variable {reading : Scope} {ms : List Markup} (hnodes : ∀ m ∈ ms, m.isText = false)
include hnodes

theorem resolveAll_of_not_isText : resolveAll reading ms = ms.map (·.resolve reading) := by
  induction ms with
  | nil => rfl
  | cons m ms ih =>
    obtain ⟨hm, hms⟩ := List.forall_mem_cons.mp hnodes
    rw [resolveAll, isVoid_of_not_isBlank (not_isBlank_of_not_isText hm), if_neg Bool.false_ne_true,
      List.map_cons, ih hms]

theorem soundAll_map_indent {unit : String} (htext : isDocumentText unit = true)
    (h : soundAll ms = true) (level : Nat) : soundAll (ms.map (·.indent unit level)) = true := by
  induction ms with
  | nil => rfl
  | cons m ms ih =>
    obtain ⟨hm, hms⟩ := List.forall_mem_cons.mp hnodes
    obtain ⟨hsound, -, hrest⟩ := soundAll_cons.mp h
    refine soundAll_cons.mpr ⟨sound_indent htext m hsound level, fun hno => ?_, ih hms hrest⟩
    rw [isText_indent, hm] at hno
    cases hno

theorem hasNodes_append_nodes (hne : ms ≠ []) (front back : List Markup) :
    hasNodes (front ++ (ms ++ back)) = true := by
  obtain ⟨m, ms, rfl⟩ := List.exists_cons_of_ne_nil hne
  exact hasNodes_append_node (hnodes m List.mem_cons_self) front _

theorem bareAll_map_indent {unit : String} (hwhite : isWhite unit = true) (level : Nat) :
    bareAll (ms.map (·.indent unit level)) = bareAll ms := by
  induction ms with
  | nil => rfl
  | cons m ms ih =>
    obtain ⟨hm, hms⟩ := List.forall_mem_cons.mp hnodes
    have hm' := not_isBlank_of_not_isText ((isText_indent unit level m).trans hm)
    rw [List.map_cons, bareAll, bareAll, hm', not_isBlank_of_not_isText hm, bare_indent hwhite, ih hms]

end

theorem steadyAll_map_indent {reading : Scope} {ms : List Markup} {unit : String}
    (h : steadyAll scope parent reading ms) (level : Nat) :
    steadyAll scope parent reading (ms.map (·.indent unit level)) := by
  induction ms with
  | nil => trivial
  | cons m ms ih => exact ⟨steady_indent m h.1 level, ih h.2⟩

end Markup

/-- Nodes other than text are written one by one. -/
theorem qualifyNodes_of_not_isText {next' : Nat} {nodes : List Node}
    (hnodes : ∀ node ∈ nodes, node.isText = false) {ms : List Markup}
    (h : qualifyNodes scope parent next nodes = some (ms, next')) :
    ms.length = nodes.length ∧ ∀ m ∈ ms, m.isText = false := by
  induction nodes generalizing next ms with
  | nil =>
    cases h
    exact ⟨rfl, nofun⟩
  | cons node nodes ih =>
    obtain ⟨hn, hns⟩ := List.forall_mem_cons.mp hnodes
    obtain ⟨m, n, ms', hm, hms, rfl⟩ := qualifyNodes_cons_eq_some.mp h
    have htext := (isText_qualify hm).trans hn
    obtain ⟨hlength, hall⟩ := ih hns hms
    rw [addMarkup_of_not_isText htext]
    exact ⟨congrArg (· + 1) hlength, List.forall_mem_cons.mpr ⟨htext, hall⟩⟩

theorem isText_resolve (reading : Scope) (m : Markup) : (m.resolve reading).isText = m.isText := by
  cases m <;> rw [Markup.resolve] <;> rfl

/-- Nodes around a block of nodes other than text are written by themselves. -/
theorem qualifyNodes_around_block {next' : Nat} {front block back : List Node} (hne : block ≠ [])
    (hblock : ∀ node ∈ block, node.isText = false) {ms : List Markup} :
    qualifyNodes scope parent next (front ++ (block ++ back)) = some (ms, next') ↔
      ∃ mf n₁ mb n₂ mk, qualifyNodes scope parent next front = some (mf, n₁) ∧
        qualifyNodes scope parent n₁ block = some (mb, n₂) ∧
          qualifyNodes scope parent n₂ back = some (mk, next') ∧ ms = mf ++ (mb ++ mk) := by
  have hfirst : ∀ a ∈ front.getLast?, ∀ b ∈ (block ++ back).head?, a.isText = true → b.isText = false := by
    obtain ⟨node, block, rfl⟩ := List.exists_cons_of_ne_nil hne
    rintro a - b hb -
    cases hb
    exact hblock node List.mem_cons_self
  have hsecond : ∀ a ∈ block.getLast?, ∀ b ∈ back.head?, a.isText = true → b.isText = false := by
    intro a ha b _ hatext
    rw [hblock a (List.mem_of_getLast? ha)] at hatext
    cases hatext
  rw [qualifyNodes_append hfirst]
  constructor
  · rintro ⟨mf, n₁, mr, hf, hr, rfl⟩
    obtain ⟨mb, n₂, mk, hb, hk, rfl⟩ := (qualifyNodes_append hsecond).mp hr
    exact ⟨mf, n₁, mb, n₂, mk, hf, hb, hk, rfl⟩
  · rintro ⟨mf, n₁, mb, n₂, mk, hf, hb, hk, rfl⟩
    exact ⟨mf, n₁, mb ++ mk, hf, (qualifyNodes_append hsecond).mpr ⟨mb, n₂, mk, hb, hk, rfl⟩, rfl⟩

/--
A block of nodes other than text, in front of white space. What is read of it where it was written can be put
in its place, and the same is written but for white space.
-/
theorem Site.exists_block {reading origin : Scope} (hsite : Site scope reading origin parent) {unit : String}
    (hwhite : Markup.isWhite unit = true) (htext : isDocumentText unit = true) {front block back : List Node}
    (hknown : knownAll origin block)
    (hsettled : settledAll scope parent next (front ++ (block ++ back)) = true)
    (hne : block ≠ []) (hblock : ∀ node ∈ block, node.isText = false)
    (hback : ∀ node ∈ back, node.isBlank = true) {ms : List Markup}
    (hms : qualifyNodes scope parent next (front ++ (block ++ back)) = some (ms, next)) (level : Nat) :
    ∃ front' block' ms',
      (resolveAll reading (indentInside unit level ms)).filter (!·.isBlank) = front' ++ block' ∧
        block'.length = block.length ∧
          qualifyNodes scope parent next (front ++ (block' ++ back)) = some (ms', next) ∧
            bareInside ms' = bareInside ms := by
  obtain ⟨mf, n₁, mb, n₂, mk, hf, hb, hk, rfl⟩ := (qualifyNodes_around_block hne hblock).mp hms
  have hle₁ := le_of_qualifyNodes _ hf
  have hle₂ := le_of_qualifyNodes _ hb
  have hle₃ := le_of_qualifyNodes _ hk
  obtain rfl : n₁ = next := by omega
  obtain rfl : n₂ = n₁ := by omega
  rw [settledAll_append hf, Bool.and_eq_true, settledAll_append hb, Bool.and_eq_true] at hsettled
  obtain ⟨hlength, hnodes⟩ := qualifyNodes_of_not_isText hblock hb
  have hblank := isBlank_of_mem_qualifyNodes hback hk
  -- what is written for the block, indented, is written again when it was read
  have hnodes' : ∀ m ∈ mb.map (·.indent unit (level + 1)), m.isText = false :=
    List.forall_mem_map.mpr fun m hm => (Markup.isText_indent unit (level + 1) m).trans (hnodes m hm)
  have hsound := Markup.soundAll_map_indent hnodes htext (soundAll_qualifyNodes hsite.sound _ hb) (level + 1)
  have hsteady := @Markup.steadyAll_map_indent _ _ _ _ unit
    (Markup.steadyAll_qualifyNodes hsite block hknown hsettled.2.1 hb) (level + 1)
  have hagain := Markup.qualifyNodes_resolveAll _ hsound hsteady n₂
  rw [Markup.resolveAll_of_not_isText hnodes'] at hagain
  have hblock' : ∀ node ∈ (mb.map (·.indent unit (level + 1))).map (·.resolve reading),
      node.isText = false :=
    List.forall_mem_map.mpr fun m hm => (isText_resolve reading m).trans (hnodes' m hm)
  have hneMarkup : mb ≠ [] := by
    rwa [ne_eq, ← List.length_eq_zero_iff, hlength, List.length_eq_zero_iff]
  have hne' : mb.map (·.indent unit (level + 1)) ≠ [] := by simpa using hneMarkup
  refine ⟨(mf.filter (!·.isBlank)).map fun m => (m.indent unit (level + 1)).resolve reading,
    (mb.map (·.indent unit (level + 1))).map (·.resolve reading), _, ?_, by simp [hlength],
    (qualifyNodes_around_block (by simpa using hneMarkup) hblock').mpr
      ⟨mf, n₂, _, n₂, mk, hf, hagain, hk, rfl⟩, ?_⟩
  · have hall : mb.filter (!·.isBlank) = mb :=
      List.filter_eq_self.mpr fun m hm => by simp [Markup.not_isBlank_of_not_isText (hnodes m hm)]
    have hnone : mk.filter (!·.isBlank) = [] := List.filter_eq_nil_iff.mpr fun m hm => by simp [hblank m hm]
    rw [Markup.filter_resolveAll_indentInside hwhite, List.filter_append, List.filter_append, hall, hnone,
      List.append_nil, List.map_append, List.map_map]
    rfl
  · rw [bareInside, bareInside, if_pos (Markup.hasNodes_append_nodes hnodes' hne' _ _),
      if_pos (Markup.hasNodes_append_nodes hnodes hneMarkup _ _), Markup.bareAll_append,
      Markup.bareAll_append, Markup.bareAll_map_indent hnodes hwhite, Markup.bareAll_append,
      Markup.bareAll_append]

end Manifest.Xml
