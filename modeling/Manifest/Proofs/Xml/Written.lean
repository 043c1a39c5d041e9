import Manifest.Node.Same
import Manifest.Proofs.Xml.Loaded

/-! What is written for ordinary nodes. It is read without fault and as deeply nested, as nodes that are
the same but for the white space between them, and layout keeps it so. -/

set_option autoImplicit false

namespace Manifest

open Xml (Scope Ordinary Remark)
open Xml.Markup (rawAttribute)

mutual

/--
Whether a node could have been read somewhere: its tags are ordinary, no texts stand side by side in
it, and its comments and instructions hold no carriage returns.
-/
def Node.ordinary : Node → Prop
  | .element tag children => Ordinary tag ∧ apart children ∧ ordinaries children
  | .text _ => True
  | .comment value => '\r' ∉ value.toList
  | .instruction _ value => '\r' ∉ value.toList

/-- Whether some nodes could have been read somewhere. -/
def ordinaries : List Node → Prop
  | [] => True
  | node :: rest => node.ordinary ∧ ordinaries rest

end

theorem ordinaries_append {a b : List Node} :
    ordinaries (a ++ b) ↔ ordinaries a ∧ ordinaries b := by
  induction a with
  | nil => simp [ordinaries]
  | cons node a ih => rw [List.cons_append, ordinaries, ordinaries, ih, and_assoc]

namespace Xml

mutual

/-- Nodes that were read are ordinary, unless an entity brought other line ends into them. -/
theorem ordinary_of_readIn {outer : Scope} (houter : ∀ b ∈ outer, Allowed b) (node : Node)
    (h : node.readIn outer) (hcalm : node.calm) : node.ordinary := by
  cases node with
  | element tag children =>
    obtain ⟨⟨name, attributes, hname, hattributes, hnodup, rfl, hchildren⟩, ha⟩ := h
    obtain ⟨hordinary, -, -, hinner, -⟩ := native_resolveTag houter hname hattributes hnodup
    exact ⟨hordinary, ha, ordinaries_of_readsIn hinner children hchildren hcalm⟩
  | text value => trivial
  | comment value => exact hcalm
  | instruction target value => exact hcalm

theorem ordinaries_of_readsIn {outer : Scope} (houter : ∀ b ∈ outer, Allowed b)
    (nodes : List Node) (h : readsIn outer nodes) (hcalm : calmAll nodes) : ordinaries nodes := by
  cases nodes with
  | nil => trivial
  | cons node rest =>
    exact ⟨ordinary_of_readIn houter node h.1 hcalm.1,
      ordinaries_of_readsIn houter rest h.2 hcalm.2⟩

end

/-! The attributes of an ordinary tag. -/

theorem all_lookup_of_nodup {attributes : List (String × String)}
    (h : (attributes.map Prod.fst).Nodup) :
    (attributes.all fun (key, value) => attributes.lookup key == some value) = true := by
  rw [List.all_eq_true]
  rintro ⟨key, value⟩ ha
  obtain ⟨front, back, hsplit⟩ := List.append_of_mem ha
  rw [beq_iff_eq, List.lookup_eq_some_iff]
  refine ⟨front, back, hsplit, ?_⟩
  rw [hsplit, List.map_append, List.nodup_append] at h
  intro b hb
  have hne := h.2.2 b.1 (List.mem_map_of_mem hb) key (by simp)
  simpa using fun he => hne he.symm

theorem sameAttributes_self {attributes : List (String × String)}
    (h : (attributes.map Prod.fst).Nodup) : sameAttributes attributes attributes = true := by
  rw [sameAttributes, all_lookup_of_nodup h]
  simp

/-- The names of the attributes of an ordinary tag are those that its keys were made of. -/
theorem Ordinary.keyedAttributes {tag : Tag} (ht : Ordinary tag)
    {xs : List (ExpandedName × String)} (h : expandAttributes [] tag.attributes = some xs) :
    xs.map keyedAttribute = tag.attributes := by
  have hall : ∀ (attributes : List (String × String)) (seen : List ExpandedName)
      (xs : List (ExpandedName × String)), (∀ a ∈ attributes, a ∈ tag.attributes) →
      (attributes.map Prod.fst).Nodup → (∀ x ∈ seen, ∀ a ∈ attributes, tagKey x.uri x.name ≠ a.1) →
      expandAttributes seen attributes = some xs → xs.map keyedAttribute = attributes := by
    intro attributes
    induction attributes with
    | nil =>
      intro seen xs _ _ _ h
      cases h
      rfl
    | cons a rest ih =>
      intro seen xs hmem hnodup hseen h
      obtain ⟨key, value⟩ := a
      rw [List.map_cons, List.nodup_cons] at hnodup
      rw [expandAttributes] at h
      obtain ⟨x, hx, h⟩ := Option.bind_eq_some_iff.mp h
      have hkey := (ht.keys _ (hmem _ (List.mem_cons_self ..)) x hx).1
      -- a name that was seen before would have the same key
      have hnew : seen.contains x = false := by
        rw [List.contains_eq_mem, decide_eq_false_iff_not]
        exact fun hx' => hseen x hx' _ (List.mem_cons_self ..) hkey
      rw [hnew, if_neg (by simp)] at h
      split at h
      · cases h
      · obtain ⟨ys, hys, rfl⟩ := Option.map_eq_some_iff.mp h
        rw [List.map_cons, ih (x :: seen) ys (fun b hb => hmem b (.tail _ hb)) hnodup.2 ?_ hys,
          keyedAttribute, hkey]
        intro y hy b hb
        rcases List.mem_cons.mp hy with rfl | hy
        · rw [hkey]
          exact fun he => hnodup.1 (List.mem_map.mpr ⟨b, hb, he.symm⟩)
        · exact hseen y hy b (.tail _ hb)
  exact hall tag.attributes [] xs (fun a ha => ha) ht.keysDistinct (List.forall_mem_nil _) h

namespace Markup

mutual

/-- Whether markup is read inside a scope, without fault, as a node with the same content. -/
def readsAs (reading : Scope) : Markup → Node → Prop
  | .element name attributes children, node =>
    let r := resolveTag [] reading name.toList (attributes.map rawAttribute)
    Remark.fault ∉ r.remarks ∧ (attributes.map Prod.fst).Nodup ∧
      ∃ tag nodes, node = .element tag nodes ∧ r.tag.name = tag.name ∧
        sameAttributes r.tag.attributes tag.attributes = true ∧ readAll r.scope children nodes
  | .text value, node => node = .text value
  | .comment value, node => node = .comment value ∧ '\r' ∉ value.toList
  | .instruction target value, node => node = .instruction target value ∧ '\r' ∉ value.toList

/-- Whether markup side by side is read so; white space between nodes does not count. -/
def readAll (reading : Scope) : List Markup → List Node → Prop
  | [], nodes => nodes.all Node.isBlank = true
  | m :: ms, nodes =>
    if m.isBlank then readAll reading ms nodes
    else ∃ node rest, nodes.dropWhile Node.isBlank = node :: rest ∧ m.readsAs reading node ∧
      readAll reading ms rest

end

mutual

/-- What is read with the same content has no line ends of other kinds. -/
theorem unified_of_readsAs {reading : Scope} (m : Markup) {node : Node} (h : m.readsAs reading node) :
    m.unified = m := by
  cases m with
  | text value => rfl
  | comment value => rw [unified, unifiedText_eq_self h.2]
  | instruction target value => rw [unified, unifiedText_eq_self h.2]
  | element name attributes children =>
    obtain ⟨-, -, tag, nodes, -, -, -, hchildren⟩ := h
    rw [unified, unifiedAll_of_readAll children hchildren]

theorem unifiedAll_of_readAll {reading : Scope} (ms : List Markup) {nodes : List Node}
    (h : readAll reading ms nodes) : unifiedAll ms = ms := by
  cases ms with
  | nil => rfl
  | cons m ms =>
    rw [readAll] at h
    rw [unifiedAll]
    split at h
    · next hm =>
      have hself : m.unified = m := by cases m <;> first | rfl | cases hm
      rw [hself, unifiedAll_of_readAll ms h]
    · obtain ⟨node, rest, -, hnode, hrest⟩ := h
      rw [unified_of_readsAs m hnode, unifiedAll_of_readAll ms hrest]

end

theorem readAll_blank {reading : Scope} {m : Markup} (h : m.isBlank = true) (ms : List Markup)
    (nodes : List Node) : readAll reading (m :: ms) nodes ↔ readAll reading ms nodes := by
  rw [readAll, if_pos h]

/-- White space in front of nodes does not count. -/
theorem readAll_blank_cons {reading : Scope} {node : Node} (h : node.isBlank = true)
    (ms : List Markup) (nodes : List Node) :
    readAll reading ms (node :: nodes) ↔ readAll reading ms nodes := by
  induction ms with
  | nil => rw [readAll, readAll, List.all_cons, h, Bool.true_and]
  | cons m ms ih =>
    rw [readAll, readAll, List.dropWhile_cons_of_pos h]
    split
    · exact ih
    · rfl

theorem readAll_cons {reading : Scope} {m : Markup} {ms : List Markup} {node : Node}
    {nodes : List Node} (hm : m.isBlank = false) (hn : node.isBlank = false)
    (h : m.readsAs reading node) (hrest : readAll reading ms nodes) :
    readAll reading (m :: ms) (node :: nodes) := by
  rw [readAll, hm, if_neg (by simp), List.dropWhile_cons_of_neg (by simp [hn])]
  exact ⟨node, nodes, rfl, h, hrest⟩

/-! What is read of such markup. -/

mutual

theorem accepted_of_readsAs {reading : Scope} (m : Markup) {node : Node}
    (h : m.readsAs reading node) : m.accepted reading := by
  cases m with
  | element name attributes children =>
    obtain ⟨hfault, hnodup, tag, nodes, -, -, -, hchildren⟩ := h
    exact ⟨hfault, hnodup, acceptedAll_of_readAll children hchildren⟩
  | _ => trivial

theorem acceptedAll_of_readAll {reading : Scope} (ms : List Markup) {nodes : List Node}
    (h : readAll reading ms nodes) : acceptedAll reading ms := by
  cases ms with
  | nil => trivial
  | cons m ms =>
    rw [readAll] at h
    split at h
    · next hblank =>
      refine ⟨?_, acceptedAll_of_readAll ms h⟩
      cases m with
      | element name attributes children => cases hblank
      | _ => trivial
    · obtain ⟨node, rest, -, hm, hms⟩ := h
      exact ⟨accepted_of_readsAs m hm, acceptedAll_of_readAll ms hms⟩

end

theorem depthOf_dropWhile (nodes : List Node) :
    depthOf (nodes.dropWhile Node.isBlank) = depthOf nodes := by
  induction nodes with
  | nil => rfl
  | cons node nodes ih =>
    rw [List.dropWhile_cons]
    split
    · next hblank =>
      have hdepth : node.depth = 0 := by
        cases node with
        | element tag children => cases hblank
        | _ => rfl
      rw [ih, depthOf, hdepth, Nat.zero_max]
    · rfl

mutual

/-- It is nested as deeply as the nodes that it is read as. -/
theorem depth_of_readsAs {reading : Scope} (m : Markup) {node : Node}
    (h : m.readsAs reading node) : m.depth = node.depth := by
  cases m with
  | element name attributes children =>
    obtain ⟨-, -, tag, nodes, rfl, -, -, hchildren⟩ := h
    rw [depth, Node.depth, depthAll_of_readAll children hchildren]
  | text value => rw [show node = .text value from h, depth, Node.depth] <;> nofun
  | comment value => rw [h.1, depth, Node.depth] <;> nofun
  | instruction target value => rw [h.1, depth, Node.depth] <;> nofun

theorem depthAll_of_readAll {reading : Scope} (ms : List Markup) {nodes : List Node}
    (h : readAll reading ms nodes) : depthAll ms = depthOf nodes := by
  cases ms with
  | nil =>
    have hnil : nodes.dropWhile Node.isBlank = [] := List.dropWhile_eq_nil_iff.mpr
      (List.all_eq_true.mp h)
    rw [← depthOf_dropWhile, hnil]
    rfl
  | cons m ms =>
    rw [readAll] at h
    split at h
    · next hblank =>
      have hdepth : m.depth = 0 := by
        cases m with
        | element name attributes children => cases hblank
        | _ => rfl
      rw [depthAll, hdepth, Nat.zero_max, depthAll_of_readAll ms h]
    · obtain ⟨node, rest, hdrop, hm, hms⟩ := h
      rw [← depthOf_dropWhile, hdrop, depthAll, depthOf, depth_of_readsAs m hm,
        depthAll_of_readAll ms hms]

end

/-! The nodes that it is read as are the same. -/

theorem isBlank_of_isSpace {c : Char} (h : isSpace c = true) : Text.isBlank c = true := by
  simp only [isSpace, Bool.or_eq_true, beq_iff_eq] at h
  rcases h with ((h | h) | h) | h <;> subst h <;> decide

/-- The space in front of the text of an instruction does not count. -/
theorem strip_skipSpace (value : String) :
    Text.strip (String.ofList (skipSpace value.toList)) = Text.strip value := by
  have hdrop : ∀ cs : List Char,
      (skipSpace cs).dropWhile Text.isBlank = cs.dropWhile Text.isBlank := by
    intro cs
    induction cs with
    | nil => rfl
    | cons c cs ih =>
      rw [skipSpace, List.dropWhile_cons]
      split
      · next hc => rw [List.dropWhile_cons_of_pos (isBlank_of_isSpace hc), ← ih, skipSpace]
      · rfl
  rw [Text.strip, Text.strip, Text.stripList, Text.stripList, String.toList_ofList, hdrop]

theorem isBlank_resolve_unified (reading : Scope) (m : Markup) :
    (m.unified.resolve reading).isBlank = m.isBlank := by
  cases m <;> rw [unified, resolve] <;> rfl

theorem isVoid_unified_of_isBlank {m : Markup} (h : m.isBlank = false) : m.unified.isVoid = false := by
  cases m with
  | text value =>
    rw [unified, isVoid]
    cases he : value.isEmpty with
    | false => rfl
    | true =>
      rw [String.isEmpty_iff.mp he] at h
      cases h
  | _ => rfl

mutual

theorem same_of_readsAs {reading : Scope} (m : Markup) {node : Node} (h : m.readsAs reading node) :
    (m.unified.resolve reading).same node = true := by
  cases m with
  | element name attributes children =>
    obtain ⟨-, -, tag, nodes, rfl, hname, hattributes, hchildren⟩ := h
    rw [unified, resolve, Node.same, hname, hattributes, sameNodes_of_readAll children hchildren]
    simp
  | text value =>
    rw [show node = .text value from h, unified, resolve, Node.same]
    exact beq_self_eq_true value
  | comment value =>
    rw [h.1, unified, resolve, unifiedText_eq_self h.2, Node.same]
    exact beq_self_eq_true value
  | instruction target value =>
    rw [h.1, unified, resolve, unifiedText_eq_self h.2, Node.same, strip_skipSpace]
    simp

theorem sameNodes_of_readAll {reading : Scope} (ms : List Markup) {nodes : List Node}
    (h : readAll reading ms nodes) : sameNodes (resolveAll reading (unifiedAll ms)) nodes = true := by
  cases ms with
  | nil => exact h
  | cons m ms =>
    rw [readAll] at h
    rw [unifiedAll, resolveAll]
    split at h
    · next hblank =>
      have hrest := sameNodes_of_readAll ms h
      split
      · exact hrest
      · rw [sameNodes, isBlank_resolve_unified, hblank, if_pos rfl]
        exact hrest
    · next hblank =>
      obtain ⟨node, rest, hdrop, hm, hms⟩ := h
      rw [Bool.not_eq_true] at hblank
      rw [isVoid_unified_of_isBlank hblank, if_neg (by simp), sameNodes, isBlank_resolve_unified,
        hblank, if_neg (by simp), hdrop]
      dsimp only
      rw [same_of_readsAs m hm, sameNodes_of_readAll ms hms]
      rfl

end

/-! Layout keeps what markup is read as. -/

mutual

theorem readsAs_indent {reading : Scope} {unit : String} (hunit : isWhite unit = true) (m : Markup)
    {node : Node} (h : m.readsAs reading node) (level : Nat) :
    (m.indent unit level).readsAs reading node := by
  cases m with
  | element name attributes children =>
    rw [indent]
    split
    · obtain ⟨hfault, hnodup, tag, nodes, hnode, hname, hattributes, hchildren⟩ := h
      exact ⟨hfault, hnodup, tag, nodes, hnode, hname, hattributes,
        readAll_indentNodes hunit children hchildren level true⟩
    · exact h
  | _ => exact h

theorem readAll_indentNodes {reading : Scope} {unit : String} (hunit : isWhite unit = true)
    (ms : List Markup) {nodes : List Node} (h : readAll reading ms nodes) (level : Nat)
    (gap : Bool) : readAll reading (indentNodes unit level gap ms) nodes := by
  have hbreak : ∀ (level : Nat) (rest : List Markup), readAll reading rest nodes →
      readAll reading ((if gap then [lineBreak unit level] else []) ++ rest) nodes := by
    intro level rest hrest
    cases gap with
    | true => exact (readAll_blank (isBlank_lineBreak hunit level) rest nodes).mpr hrest
    | false => exact hrest
  cases ms with
  | nil =>
    have hend := hbreak (level - 1) [] h
    rwa [List.append_nil] at hend
  | cons m ms =>
    rcases blank_or_text_or_node m with hm | ⟨hm, hb⟩ | hm
    · rw [indentNodes_blank unit hm]
      rw [readAll_blank hm] at h
      exact hbreak _ _ (readAll_indentNodes hunit ms h level false)
    · rw [readAll, hb, if_neg (by simp)] at h
      obtain ⟨node, rest, hdrop, hnode, hrest⟩ := h
      rw [indentNodes_text unit hm hb, readAll, hb, if_neg (by simp)]
      exact ⟨node, rest, hdrop, hnode, readAll_indentNodes hunit ms hrest level false⟩
    · have hb := not_isBlank_of_not_isText hm
      rw [readAll, hb, if_neg (by simp)] at h
      obtain ⟨node, rest, hdrop, hnode, hrest⟩ := h
      rw [indentNodes_node unit hm]
      apply hbreak
      rw [readAll, not_isBlank_of_not_isText ((isText_indent unit (level + 1) m).trans hm),
        if_neg (by simp)]
      exact ⟨node, rest, hdrop, readsAs_indent hunit m hnode (level + 1),
        readAll_indentNodes hunit ms hrest level true⟩

end

theorem isBlank_newLine (level : Nat) : (newLine level).isBlank = true := by
  rw [newLine, isBlank, Text.isBlankText, String.toList_ofList, List.all_cons, List.all_eq_true.mpr]
  · decide
  · intro c hc
    rw [List.eq_of_mem_replicate hc]
    decide

mutual

theorem readsAs_laid {reading : Scope} (m : Markup) {node : Node} (h : m.readsAs reading node)
    (level : Nat) : (m.laid level).readsAs reading node := by
  cases m with
  | element name attributes children =>
    rw [laid]
    split
    · exact h
    · next hc =>
      rw [Bool.or_eq_true, not_or] at hc
      obtain ⟨hfault, hnodup, tag, nodes, hnode, hname, hattributes, hchildren⟩ := h
      exact ⟨hfault, hnodup, tag, nodes, hnode, hname, hattributes,
        readAll_laidLines children (by simpa using hc.2) hchildren (level + 1)⟩
  | _ => exact h

theorem readAll_laidLines {reading : Scope} (ms : List Markup) (hms : ∀ m ∈ ms, m.isText = false)
    {nodes : List Node} (h : readAll reading ms nodes) (level : Nat) :
    readAll reading (laidLines level ms) nodes := by
  cases ms with
  | nil => exact (readAll_blank (isBlank_newLine (level - 1)) [] nodes).mpr h
  | cons m ms =>
    have hm := hms m (by simp)
    rw [readAll, not_isBlank_of_not_isText hm, if_neg (by simp)] at h
    obtain ⟨node, rest, hdrop, hnode, hrest⟩ := h
    rw [laidLines, readAll_blank (isBlank_newLine level), readAll,
      not_isBlank_of_not_isText ((isText_laid m level).trans hm), if_neg (by simp)]
    exact ⟨node, rest, hdrop, readsAs_laid m hnode level,
      readAll_laidLines ms (fun x hx => hms x (by simp [hx])) hrest level⟩

end

/-! What is written for ordinary nodes. -/

theorem startsWithText_qualifyNodes {scope : Scope} {parent : Option String} {nodes : List Node}
    (h : ∀ first ∈ nodes.head?, first.isText = false) {next next' : Nat} {ms : List Markup}
    (hms : qualifyNodes scope parent next nodes = some (ms, next')) : startsWithText ms = false := by
  cases nodes with
  | nil =>
    cases hms
    rfl
  | cons node rest =>
    rw [qualifyNodes] at hms
    split at hms
    · cases hms
    · next m n hm =>
      split at hms
      · cases hms
      · have hnode := h node rfl
        cases node with
        | text value => cases hnode
        | element tag children =>
          rw [qualify] at hm
          split at hm
          · cases hm
          · split at hm
            · cases hm
            · cases hm
              cases hms
              rfl
        | comment value =>
          rw [qualify] at hm
          split at hm
          · cases hm
            cases hms
            rfl
          · cases hm
        | instruction target value =>
          rw [qualify] at hm
          split at hm
          · cases hm
            cases hms
            rfl
          · cases hm

mutual

/-- What is written for an ordinary node is read as the same node. -/
theorem readsAs_qualify {scope reading : Scope} (hscope : scope.isSound = true)
    (hxmlns : scope.stands? (some "xmlns") = none) (hagrees : reading.Agrees scope)
    {parent : Option String} (hparent : ∀ u ∈ parent, u ≠ "" ∧ u ≠ xmlnsUri) (node : Node)
    (hn : node.ordinary) {next next' : Nat} {m : Markup}
    (h : qualify scope parent next node = some (m, next')) : m.readsAs reading node := by
  cases node with
  | element tag children =>
    obtain ⟨htag, ha, hchildren⟩ := hn
    rw [qualify] at h
    split at h
    · cases h
    · next w hw =>
      have hinner := (isSound_qualifyTag hscope hw).2.1
      obtain ⟨declared, own, xs, next₁, hc, rfl⟩ := htag.chosen hscope hparent hw
      have hsame := hc.agrees_scope next₁
      obtain ⟨hread, hresolved, hfault⟩ := hc.resolveTag_chosenTag hagrees hscope hxmlns next₁
      have hkeys := htag.keyedAttributes hc.expand
      split at h
      · cases h
      · next ms n hms =>
        cases h
        refine ⟨hfault, hc.nodup_attributes hscope hxmlns next₁, tag, children, rfl, ?_, ?_, ?_⟩
        · rw [hresolved]
        · rw [hresolved, hkeys]
          exact sameAttributes_self htag.keysDistinct
        · refine readAll_qualifyNodes hinner ?_ ?_ ?_ children ha hchildren hms
          · rw [hsame]
            exact stands?_xmlns_append (fun b hb => (hc.declares b hb).toAllowed) hxmlns
          · rw [hread]
            exact (hagrees.append declared).trans hsame.symm
          · exact htag.spaced_or hparent
  | text value =>
    rw [qualify] at h
    split at h
    · cases h
      rfl
    · cases h
  | comment value =>
    rw [qualify] at h
    split at h
    · cases h
      exact ⟨rfl, hn⟩
    · cases h
  | instruction target value =>
    rw [qualify] at h
    split at h
    · cases h
      exact ⟨rfl, hn⟩
    · cases h

theorem readAll_qualifyNodes {scope reading : Scope} (hscope : scope.isSound = true)
    (hxmlns : scope.stands? (some "xmlns") = none) (hagrees : reading.Agrees scope)
    {parent : Option String} (hparent : ∀ u ∈ parent, u ≠ "" ∧ u ≠ xmlnsUri) (nodes : List Node)
    (ha : apart nodes) (hn : ordinaries nodes) {next next' : Nat} {ms : List Markup}
    (h : qualifyNodes scope parent next nodes = some (ms, next')) : readAll reading ms nodes := by
  cases nodes with
  | nil =>
    cases h
    rfl
  | cons node rest =>
    rw [qualifyNodes] at h
    split at h
    · cases h
    · next m n hm =>
      have hfirst := readsAs_qualify hscope hxmlns hagrees hparent node hn.1 hm
      have hapart := List.isChain_cons.mp ha
      split at h
      · cases h
      · next ms' n' hms =>
        have hrest := readAll_qualifyNodes hscope hxmlns hagrees hparent rest hapart.2 hn.2 hms
        split at h
        · next value =>
          cases h
          obtain rfl : node = .text value := hfirst
          have hstart := startsWithText_qualifyNodes (fun x hx => hapart.1 x hx rfl) hms
          have hjoin : joinText value ms' = .text value :: ms' := by
            rw [joinText.eq_def]
            split
            · cases hstart
            · rfl
          rw [hjoin]
          cases hb : Text.isBlankText value with
          | true =>
            rw [readAll_blank (m := .text value) hb, @readAll_blank_cons reading (.text value) hb]
            exact hrest
          | false => exact readAll_cons hb hb rfl hrest
        · next hno =>
          cases h
          have hblank : m.isBlank = false := by
            cases m with
            | text value => exact absurd rfl (hno value)
            | _ => rfl
          have hnode : node.isBlank = false := by
            cases m with
            | text value => exact absurd rfl (hno value)
            | element name attributes children =>
              obtain ⟨-, -, tag, nodes, rfl, -⟩ := hfirst
              rfl
            | comment value => rw [hfirst.1]; rfl
            | instruction target value => rw [hfirst.1]; rfl
          exact readAll_cons hblank hnode hfirst hrest

end

end Markup

end Xml

end Manifest
