import Manifest.Proofs.Merge.Spread
import Manifest.Proofs.Xml.Local

/-! Around a block of entries. Children of an element with a block of entries among them are written and
read as what stood in front of the block, the entries on lines of their own, and what stood behind it. When
the block as it was is put between these parts once more, the same is written but for white space. -/

set_option autoImplicit false

namespace Manifest

namespace Xml

open Markup (bareAll bareInside breakIf gapAfter hasNodes indentFront indentInside indentNodes lineBreak
  resolveAll)

/-! Nodes one after another. -/

theorem addMarkup_of_not_isText {m : Markup} (h : m.isText = false) (ms : List Markup) :
    addMarkup m ms = m :: ms := by
  cases m <;> first | rfl | cases h

/-- Nodes are written by themselves if no text follows another one where they meet. -/
theorem qualifyNodes_append {scope : Scope} {parent : Option String} {next next' : Nat}
    {front rest : List Node} {ms : List Markup}
    (hapart : ∀ a ∈ front.getLast?, ∀ b ∈ rest.head?, a.isText = true → b.isText = false) :
    qualifyNodes scope parent next (front ++ rest) = some (ms, next') ↔
      ∃ mf n mr, qualifyNodes scope parent next front = some (mf, n) ∧
        qualifyNodes scope parent n rest = some (mr, next') ∧ ms = mf ++ mr := by
  rcases List.eq_nil_or_concat front with rfl | ⟨front, a, rfl⟩
  · rw [List.nil_append]
    refine ⟨fun h => ⟨[], next, ms, rfl, h, rfl⟩, ?_⟩
    rintro ⟨mf, n, mr, hf, hr, rfl⟩
    cases hf
    exact hr
  rw [List.concat_eq_append] at hapart ⊢
  cases rest with
  | nil =>
    rw [List.append_nil]
    refine ⟨fun h => ⟨ms, next', [], h, rfl, (List.append_nil ms).symm⟩, ?_⟩
    rintro ⟨mf, n, mr, hf, hr, rfl⟩
    cases hr
    rwa [List.append_nil]
  | cons b rest =>
    cases ha : a.isText with
    | false =>
      have hlast : ∀ {mf : List Markup} {n : Nat},
          qualifyNodes scope parent next (front ++ [a]) = some (mf, n) ↔
            ∃ mf' n₁ m, qualifyNodes scope parent next front = some (mf', n₁) ∧
              qualify scope parent n₁ a = some (m, n) ∧ mf = mf' ++ [m] := by
        intro mf n
        rw [qualifyNodes_append_node ha]
        constructor
        · rintro ⟨mf', n₁, m, n₂, mb, hf, hm, hb, rfl⟩
          cases hb
          exact ⟨mf', n₁, m, hf, hm, rfl⟩
        · rintro ⟨mf', n₁, m, hf, hm, rfl⟩
          exact ⟨mf', n₁, m, n, [], hf, hm, rfl, rfl⟩
      rw [List.append_assoc, List.singleton_append, qualifyNodes_append_node ha]
      constructor
      · rintro ⟨mf, n₁, m, n₂, mb, hf, hm, hb, rfl⟩
        exact ⟨mf ++ [m], n₂, mb, hlast.mpr ⟨mf, n₁, m, hf, hm, rfl⟩, hb, by simp⟩
      · rintro ⟨mf, n, mr, hf, hr, rfl⟩
        obtain ⟨mf', n₁, m, hf', hm, rfl⟩ := hlast.mp hf
        exact ⟨mf', n₁, m, n, mr, hf', hm, hr, by simp⟩
    | true =>
      have hb : b.isText = false := hapart a (by simp) b rfl ha
      rw [qualifyNodes_append_node hb]
      constructor
      · rintro ⟨mf, n₁, m, n₂, mb, hf, hm, hr, rfl⟩
        exact ⟨mf, n₁, m :: mb, hf, qualifyNodes_cons_eq_some.mpr ⟨m, n₂, mb, hm, hr,
          (addMarkup_of_not_isText ((isText_qualify hm).trans hb) mb).symm⟩, rfl⟩
      · rintro ⟨mf, n, mr, hf, hr, rfl⟩
        obtain ⟨m, n₂, mb, hm, hb', rfl⟩ := qualifyNodes_cons_eq_some.mp hr
        exact ⟨mf, n, m, n₂, mb, hf, hm, hb',
          by rw [addMarkup_of_not_isText ((isText_qualify hm).trans hb)]⟩

/-- Entries are written as elements. -/
theorem isElement_of_mem_qualifyNodes {scope : Scope} {parent : Option String} {next next' : Nat}
    {block : List Element} {ms : List Markup}
    (h : qualifyNodes scope parent next (block.map Element.toNode) = some (ms, next')) :
    ∀ m ∈ ms, m.isElement = true := by
  induction block generalizing next ms with
  | nil =>
    cases h
    exact nofun
  | cons e block ih =>
    obtain ⟨m, n, ms', hm, hms, rfl⟩ := qualifyNodes_cons_eq_some.mp h
    rw [addMarkup_of_not_isText (isText_qualify hm)]
    exact List.forall_mem_cons.mpr ⟨isElement_qualify hm, ih hms⟩

/-- The last of some nodes is written by itself. -/
theorem exists_last_qualifyNodes {scope : Scope} {parent : Option String} {next next' : Nat}
    {front : List Node} {node : Node} (ha : apart (front ++ [node])) {ms : List Markup}
    (h : qualifyNodes scope parent next (front ++ [node]) = some (ms, next')) :
    ∃ mf n m, qualify scope parent n node = some (m, next') ∧ ms = mf ++ [m] := by
  obtain ⟨-, -, hmeet⟩ := List.isChain_append.mp ha
  obtain ⟨mf, n, mr, -, hr, rfl⟩ := (qualifyNodes_append hmeet).mp h
  obtain ⟨m, n₁, mb, hm, hb, rfl⟩ := qualifyNodes_cons_eq_some.mp hr
  cases hb
  refine ⟨mf, n, m, hm, ?_⟩
  cases m <;> rfl

theorem isBlank_qualify {scope : Scope} {parent : Option String} {next next' : Nat} {node : Node}
    {m : Markup} (h : qualify scope parent next node = some (m, next')) : m.isBlank = node.isBlank := by
  cases node with
  | element tag children =>
    rw [qualify] at h
    split at h
    · cases h
    · split at h <;> cases h
      rfl
  | text value => rw [qualify] at h; split at h <;> cases h; rfl
  | comment value => rw [qualify] at h; split at h <;> cases h; rfl
  | instruction target value => rw [qualify] at h; split at h <;> cases h; rfl

/-- White space is written as white space. -/
theorem isBlank_of_mem_qualifyNodes {scope : Scope} {parent : Option String} {next next' : Nat}
    {nodes : List Node} (hblank : ∀ node ∈ nodes, node.isBlank = true) {ms : List Markup}
    (h : qualifyNodes scope parent next nodes = some (ms, next')) : ∀ m ∈ ms, m.isBlank = true := by
  induction nodes generalizing next ms with
  | nil =>
    cases h
    exact nofun
  | cons node rest ih =>
    obtain ⟨m, n, ms', hm, hms, rfl⟩ := qualifyNodes_cons_eq_some.mp h
    have hrest := ih (fun x hx => hblank x (List.mem_cons_of_mem _ hx)) hms
    have hb : m.isBlank = true := (isBlank_qualify hm).trans (hblank node List.mem_cons_self)
    cases m with
    | text value =>
      rw [addMarkup, joinText.eq_def]
      split
      · next after tail =>
        have hafter : Text.isBlankText after = true := hrest (.text after) List.mem_cons_self
        refine List.forall_mem_cons.mpr ⟨?_, fun x hx => hrest x (List.mem_cons_of_mem _ hx)⟩
        rw [Markup.isBlank, Text.isBlankText, String.toList_append, List.all_append]
        rw [Markup.isBlank, Text.isBlankText] at hb
        rw [Text.isBlankText] at hafter
        rw [hb, hafter]
        rfl
      · exact List.forall_mem_cons.mpr ⟨hb, hrest⟩
    | _ => cases hb

/-! Indented markup, as it is read. -/

namespace Markup

theorem isBlank_of_mem_indentNodes {unit : String} (hwhite : isWhite unit = true) {ms : List Markup}
    (h : ∀ m ∈ ms, m.isBlank = true) (level : Nat) (gap : Bool) :
    ∀ m ∈ indentNodes unit level gap ms, m.isBlank = true := by
  have hbreak : ∀ (gap : Bool) (level : Nat),
      ∀ m ∈ (if gap then [lineBreak unit level] else []), m.isBlank = true := by
    intro gap level m hm
    cases gap with
    | true => rw [List.mem_singleton.mp hm, isBlank_lineBreak hwhite]
    | false => cases hm
  induction ms generalizing gap with
  | nil => exact hbreak gap (level - 1)
  | cons x ms ih =>
    intro m hm
    rw [indentNodes_blank unit (h x List.mem_cons_self), List.mem_append] at hm
    exact hm.elim (hbreak _ _ m) (ih (fun y hy => h y (List.mem_cons_of_mem _ hy)) false m)

@[simp] theorem isBlank_resolve (reading : Scope) (m : Markup) :
    (m.resolve reading).isBlank = m.isBlank := by
  cases m <;> rw [resolve] <;> rfl

theorem isBlank_of_mem_resolveAll {reading : Scope} {ms : List Markup}
    (h : ∀ m ∈ ms, m.isBlank = true) : ∀ node ∈ resolveAll reading ms, node.isBlank = true := by
  induction ms with
  | nil => exact nofun
  | cons m ms ih =>
    obtain ⟨hm, hms⟩ := List.forall_mem_cons.mp h
    rw [resolveAll]
    split
    · exact ih hms
    · exact List.forall_mem_cons.mpr ⟨(isBlank_resolve reading m).trans hm, ih hms⟩

theorem getLast?_resolveAll {reading : Scope} {m : Markup} (hm : m.isVoid = false)
    (ms : List Markup) : (resolveAll reading (ms ++ [m])).getLast? = some (m.resolve reading) := by
  rw [resolveAll_append, resolveAll, hm, if_neg (by simp), resolveAll, List.getLast?_concat]

theorem isVoid_of_not_isBlank {m : Markup} (h : m.isBlank = false) : m.isVoid = false := by
  cases m with
  | text value =>
    rw [isVoid, ← Bool.not_eq_true, String.isEmpty_iff]
    rintro rfl
    cases h
  | _ => rfl

theorem exists_resolve_element {m : Markup} (h : m.isElement = true) (reading : Scope) :
    ∃ e : Element, m.resolve reading = e.toNode := by
  cases m with
  | element name attributes children => exact ⟨⟨_, _⟩, resolve.eq_4 ..⟩
  | _ => cases h

@[simp] theorem isVoid_lineBreak (unit : String) (level : Nat) :
    (lineBreak unit level).isVoid = false := by
  rw [lineBreak, isVoid, ← Bool.not_eq_true, String.isEmpty_iff, String.ofList_eq_empty_iff]
  simp

/-- Entries are read one by one, each on a line of its own. -/
theorem exists_entries {unit : String} (level : Nat) (reading : Scope) {ms : List Markup}
    (h : ∀ m ∈ ms, m.isElement = true) (rest : List Markup) :
    ∃ es : List Element, es.length = ms.length ∧
      resolveAll reading (indentNodes unit level true (ms ++ rest)) =
        (es.flatMap fun e => [(lineBreak unit level).resolve reading, e.toNode]) ++
          resolveAll reading (indentNodes unit level true rest) := by
  induction ms with
  | nil => exact ⟨[], rfl, rfl⟩
  | cons m ms ih =>
    obtain ⟨hm, hms⟩ := List.forall_mem_cons.mp h
    obtain ⟨es, hlength, hes⟩ := ih hms
    obtain ⟨e, he⟩ := exists_resolve_element ((isElement_indent unit (level + 1) m).trans hm) reading
    have htext : m.isText = false := by cases m <;> first | rfl | cases hm
    refine ⟨e :: es, by rw [List.length_cons, List.length_cons, hlength], ?_⟩
    rw [List.cons_append, indentNodes_node unit htext, if_pos rfl, List.singleton_append, resolveAll,
      isVoid_lineBreak, if_neg (by simp), resolveAll, isVoid_of_not_isBlank (not_isBlank_of_not_isText
        ((isText_indent unit (level + 1) m).trans htext)), if_neg (by simp), he, hes]
    rfl

end Markup

/-! Around a block. -/

/--
Whether nodes are what is read at a spot of nodes with a block of entries among them: a front, white space,
the entries on lines of their own, and what stands behind them.
-/
structure Spot.Relaid (spot : Spot) (unit : String) (front : List Node) (block : List Element)
    (back front' : List Node) (lead : Option Node) (gap : Node) (entries : List Element)
    (back' : List Node) : Prop where
  read : resolveAll spot.reading (indentInside unit spot.level spot.markup) =
    front' ++ (lead.toList ++ (spread gap entries ++ back'))
  lengthFront : (elementsOf front').length = (elementsOf front).length
  lengthBlock : entries.length = block.length
  last : ∀ n ∈ front'.getLast?, n.isBlank = false
  anchored : ∀ x : Element, front.getLast? = some x.toNode →
    ∃ y : Element, front'.getLast? = some y.toNode
  blank : (∀ n ∈ back, n.isBlank = true) → ∀ n ∈ back', n.isBlank = true
  leadBlank : ∀ n ∈ lead, n.isBlank = true
  gapBlank : gap.isBlank = true
  written : ∃ ms, (∀ k, qualifyNodes spot.scope spot.parent k
    (front' ++ (block.map Element.toNode ++ back')) = some (ms, k)) ∧
      bareInside ms = bareInside spot.markup

/-- The last node in front of a block is read as the last one in front of it, unless it is white space. -/
theorem exists_last_front {scope reading : Scope} {parent : Option String} {next next' : Nat}
    {front : List Node} (ha : apart front) (hlast : ∀ n ∈ front.getLast?, n.isBlank = false)
    {mf : List Markup} (hf : qualifyNodes scope parent next front = some (mf, next')) (unit : String)
    (level : Nat) :
    (∀ n ∈ (resolveAll reading (indentFront unit level true mf)).getLast?, n.isBlank = false) ∧
      ∀ x : Element, front.getLast? = some x.toNode → ∃ y : Element,
        (resolveAll reading (indentFront unit level true mf)).getLast? = some y.toNode := by
  rcases List.eq_nil_or_concat front with rfl | ⟨front, node, rfl⟩
  · cases hf
    exact ⟨nofun, nofun⟩
  rw [List.concat_eq_append] at ha hlast hf ⊢
  obtain ⟨mf, n, m, hm, rfl⟩ := exists_last_qualifyNodes ha hf
  have hblank : m.isBlank = false :=
    (isBlank_qualify hm).trans (hlast node (by simp))
  have hindent : (m.indent unit (level + 1)).isBlank = false := by
    cases m <;> first | exact hblank | (rw [Markup.indent]; split <;> rfl)
  obtain ⟨before, hbefore⟩ := List.getLast?_eq_some_iff.mp
    (Markup.getLast?_indentFront unit level hblank true mf)
  rw [hbefore, Markup.getLast?_resolveAll (Markup.isVoid_of_not_isBlank hindent)]
  refine ⟨?_, fun x hx => ?_⟩
  · rintro _ ⟨⟩
    exact (Markup.isBlank_resolve reading _).trans hindent
  · rw [List.getLast?_concat, Option.some.injEq] at hx
    rw [hx] at hm
    obtain ⟨y, hy⟩ := Markup.exists_resolve_element
      ((Markup.isElement_indent unit (level + 1) m).trans (isElement_qualify hm)) reading
    exact ⟨y, by rw [hy]⟩

/-- Entries without namespaces can be put back between what was read of the nodes around them. -/
theorem Spot.Holds.exists_relaid {spot : Spot} {unit : String} {position : Position} {owner e : Element}
    {front back : List Node} {block : List Element} {scope : Scope} {parent : Option String}
    {m : Markup} (hwhite : Markup.isWhite unit = true) (htext : isDocumentText unit = true)
    (h : spot.Holds unit position owner (front ++ (block.map Element.toNode ++ back)) scope parent m e)
    (hne : block ≠ []) (hlocal : ∀ b ∈ block, b.toNode.isLocal = true)
    (hordinary : ∀ b ∈ block, b.toNode.ordinary) (hfront : knownAll spot.origin front)
    (hback : knownAll spot.origin back) (ha : apart front)
    (hlast : ∀ n ∈ front.getLast?, n.isBlank = false) :
    ∃ front' lead gap entries back', spot.Relaid unit front block back front' lead gap entries back' := by
  obtain ⟨b, block, rfl⟩ := List.exists_cons_of_ne_nil hne
  obtain ⟨hlocalB, hlocal⟩ := List.forall_mem_cons.mp hlocal
  obtain ⟨hordinaryB, hordinary⟩ := List.forall_mem_cons.mp hordinary
  obtain ⟨n, hwritten⟩ := h.written
  have hsettled := h.settled
  have hsound := soundAll_qualifyNodes h.site.sound _ hwritten
  rw [List.map_cons, List.cons_append] at hwritten hsettled
  have hmeet : ∀ rest : List Node, ∀ x ∈ (block.map Element.toNode).getLast?, ∀ y ∈ rest.head?,
      x.isText = true → y.isText = false := by
    intro rest x hx y _ hxtext
    obtain ⟨e, -, rfl⟩ := List.mem_map.mp (List.mem_of_getLast? hx)
    cases hxtext
  -- what is written for the front, the entries and what stands behind them
  obtain ⟨mf, n₁, mb, n₂, mr, hf, hb, hr, hmarkup⟩ := (qualifyNodes_append_node rfl).mp hwritten
  obtain ⟨ms, n₃, mk, hms, hk, rfl⟩ := (qualifyNodes_append (hmeet back)).mp hr
  obtain ⟨hsettledFront, -, hsettledRest⟩ := settledAll_append_node hf hb hsettled
  rw [settledAll_append hms, Bool.and_eq_true] at hsettledRest
  have hnode : mb.isText = false := isText_qualify hb
  have hnodes : hasNodes spot.markup = true := by
    rw [hmarkup]
    exact Markup.hasNodes_append_node hnode mf _
  have hinside : indentInside unit spot.level spot.markup =
      indentFront unit spot.level true mf ++ (breakIf unit spot.level (gapAfter true mf) ++
        mb.indent unit (spot.level + 1) :: indentNodes unit spot.level true (ms ++ mk)) := by
    rw [indentInside, if_pos hnodes, hmarkup, Markup.indentNodes_append_node unit spot.level hnode]
  -- what is read of them
  obtain ⟨hlast', hanchored⟩ := @exists_last_front spot.scope spot.reading spot.parent _ _ front ha hlast
    mf hf unit spot.level
  obtain ⟨e, he⟩ := Markup.exists_resolve_element
    ((Markup.isElement_indent unit (spot.level + 1) mb).trans (isElement_qualify hb)) spot.reading
  obtain ⟨es, hlength, hes⟩ := @Markup.exists_entries unit spot.level spot.reading ms
    (isElement_of_mem_qualifyNodes hms) mk
  have hlead : ∀ gap, resolveAll spot.reading (breakIf unit spot.level gap) =
      (if gap then some ((lineBreak unit spot.level).resolve spot.reading) else none).toList := by
    intro gap
    cases gap with
    | true => rw [breakIf, if_pos rfl, resolveAll, Markup.isVoid_lineBreak]; rfl
    | false => rfl
  have hblank : ((lineBreak unit spot.level).resolve spot.reading).isBlank = true :=
    (Markup.isBlank_resolve _ _).trans (Markup.isBlank_lineBreak hwhite _)
  have hvoid : (mb.indent unit (spot.level + 1)).isVoid = false :=
    Markup.isVoid_of_not_isBlank (Markup.not_isBlank_of_not_isText
      ((Markup.isText_indent unit (spot.level + 1) mb).trans hnode))
  refine ⟨resolveAll spot.reading (indentFront unit spot.level true mf),
    if gapAfter true mf then some ((lineBreak unit spot.level).resolve spot.reading) else none,
    (lineBreak unit spot.level).resolve spot.reading, e :: es,
    resolveAll spot.reading (indentNodes unit spot.level true mk), ?_, ?_, ?_, hlast', hanchored,
    fun hback => ?_, fun x hx => ?_, hblank, ?_⟩
  · rw [hinside, Markup.resolveAll_append, Markup.resolveAll_append, hlead, resolveAll, hvoid,
      if_neg Bool.false_ne_true, he, hes]
    rfl
  · rw [length_elements_resolveAll, Markup.filter_indentFront, List.length_map,
      length_elements_qualifyNodes hf]
  · have hlengths := length_elements_qualifyNodes hms
    rw [elementsOf_map_toNode, List.filter_eq_self.mpr (isElement_of_mem_qualifyNodes hms)] at hlengths
    rw [List.length_cons, List.length_cons, hlength, hlengths]
  · exact Markup.isBlank_of_mem_resolveAll (Markup.isBlank_of_mem_indentNodes hwhite
      (isBlank_of_mem_qualifyNodes hback hk) spot.level true)
  · split at hx <;> cases hx
    exact hblank
  · have hsoundFront : Markup.soundAll (indentFront unit spot.level true mf) = true := by
      have hall := (Markup.soundAll_indentNodes htext _ hsound spot.level true (by simp)).1
      rw [indentInside, if_pos hnodes] at hinside
      rw [hinside] at hall
      exact (Markup.soundAll_append hall).1
    have hsoundBack := (Markup.soundAll_indentNodes htext mk (soundAll_qualifyNodes h.site.sound _ hk)
      spot.level true (by simp)).1
    have hsteadyFront := @Markup.steadyAll_indentFront unit spot.level _ _ _ _
      (Markup.steadyAll_qualifyNodes h.site front hfront hsettledFront hf) true
    have hsteadyBack := @Markup.steadyAll_indentNodes _ _ _ unit mk
      (Markup.steadyAll_qualifyNodes h.site back hback hsettledRest.2 hk) spot.level true
    refine ⟨indentFront unit spot.level true mf ++
      mb :: (ms ++ indentNodes unit spot.level true mk), fun k => ?_, ?_⟩
    · rw [List.map_cons, List.cons_append]
      refine (qualifyNodes_append_node rfl).mpr ⟨_, k, mb, k, _,
        Markup.qualifyNodes_resolveAll _ hsoundFront hsteadyFront k,
        qualify_local h.site.serves b.toNode hlocalB hordinaryB hb k,
        (qualifyNodes_append (hmeet _)).mpr ⟨ms, k, _, ?_,
          Markup.qualifyNodes_resolveAll _ hsoundBack hsteadyBack k, rfl⟩, rfl⟩
      exact qualifyNodes_local h.site.serves _ (localAll_iff.mpr (List.forall_mem_map.mpr hlocal))
        (ordinaries_iff.mpr (List.forall_mem_map.mpr hordinary)) hms k
    · rw [bareInside, bareInside, if_pos hnodes, if_pos (Markup.hasNodes_append_node hnode _ _), hmarkup]
      simp only [Markup.bareAll_append, Markup.bareAll_indentFront spot.level hwhite, Markup.bareAll,
        Markup.bareAll_indentNodes hwhite]

end Xml

end Manifest
