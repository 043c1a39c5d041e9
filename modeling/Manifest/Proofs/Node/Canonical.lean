import Mathlib.Data.Finmap
import Mathlib.Data.List.Perm.Subperm
import Mathlib.Logic.Relation
import Manifest.Proofs.Document.Changed

/-! The canonical form of a tree: what is left of it when blank text, namespaces and the order of
attributes are forgotten. Trees are the same exactly when they have one canonical form, so that being the
same is an equivalence, and blank text can come and go anywhere in either of two trees. -/

set_option autoImplicit false

namespace Manifest

/-- What counts of a node: its name and attributes or its text, and what counts of its children. -/
inductive Canonical where
  | element (name : String) (attributes : Finmap fun _ : String => String) (children : List Canonical)
  | text (value : String)
  | comment (value : String)
  | instruction (target value : String)

/-- The value under each key. -/
def attributeMap (attributes : List (String × String)) : Finmap fun _ : String => String :=
  (attributes.map Prod.toSigma).toFinmap

mutual

/-- The canonical form of a node. White space around the value of an instruction does not count. -/
def Node.canonical : Node → Canonical
  | .element tag children => .element tag.name (attributeMap tag.attributes) (canonicals children)
  | .text value => .text value
  | .comment value => .comment value
  | .instruction target value => .instruction target (Text.strip value)

/-- The canonical forms of some nodes, without those of blank text. -/
def canonicals : List Node → List Canonical
  | [] => []
  | node :: rest => if node.isBlank then canonicals rest else node.canonical :: canonicals rest

end

mutual

/-- Whether the attributes of each tag in a node have keys of their own, as in a mapping. -/
def Node.keyed : Node → Prop
  | .element tag children => (tag.attributes.map Prod.fst).Nodup ∧ keyedAll children
  | _ => True

/-- Whether the attributes of each tag in some nodes have keys of their own. -/
def keyedAll : List Node → Prop
  | [] => True
  | node :: rest => node.keyed ∧ keyedAll rest

end

theorem keyedAll_iff {nodes : List Node} : keyedAll nodes ↔ ∀ node ∈ nodes, node.keyed := by
  induction nodes with
  | nil => simp [keyedAll]
  | cons node rest ih => simp [keyedAll, ih]

theorem canonicals_eq (nodes : List Node) :
    canonicals nodes = (nodes.filter (!·.isBlank)).map Node.canonical := by
  induction nodes with
  | nil => rfl
  | cons node rest ih =>
    rw [canonicals, List.filter_cons]
    cases node.isBlank <;> simp [ih]

theorem canonicals_append (a b : List Node) : canonicals (a ++ b) = canonicals a ++ canonicals b := by
  simp [canonicals_eq]

theorem canonicals_cons_of_isBlank {node : Node} (h : node.isBlank = true) (rest : List Node) :
    canonicals (node :: rest) = canonicals rest := by
  rw [canonicals, if_pos h]

theorem canonicals_dropWhile (nodes : List Node) :
    canonicals (nodes.dropWhile Node.isBlank) = canonicals nodes := by
  induction nodes with
  | nil => rfl
  | cons node rest ih =>
    rw [List.dropWhile_cons]
    split
    · next h => rw [ih, canonicals_cons_of_isBlank h]
    · rfl

/-! Attributes. -/

theorem lookup_attributeMap (attributes : List (String × String)) (key : String) :
    (attributeMap attributes).lookup key = attributes.lookup key := by
  rw [attributeMap, Finmap.dlookup_list_toFinmap]
  induction attributes with
  | nil => rfl
  | cons a rest ih =>
    obtain ⟨name, value⟩ := a
    rw [List.map_cons, List.lookup_cons, Prod.toSigma_mk]
    cases hkey : key == name with
    | true =>
      rw [beq_iff_eq.mp hkey]
      exact List.dlookup_cons_eq _ _ _
    | false => rw [List.dlookup_cons_ne _ _ (beq_eq_false_iff_ne.mp hkey), ih]

/-- Attributes with keys of their own are the same if they have the same value under each key. -/
theorem sameAttributes_iff {a b : List (String × String)} (ha : (a.map Prod.fst).Nodup)
    (hb : (b.map Prod.fst).Nodup) : sameAttributes a b = true ↔ attributeMap a = attributeMap b := by
  have hsome : ∀ {attributes : List (String × String)} {key : String},
      (attributes.lookup key).isSome = true ↔ key ∈ attributes.map Prod.fst := by
    intro attributes key
    simp [List.lookup_isSome_iff]
  rw [sameAttributes, Bool.and_eq_true, beq_iff_eq, List.all_eq_true]
  constructor
  · rintro ⟨hlength, hvalues⟩
    have hsubset : a.map Prod.fst ⊆ b.map Prod.fst := by
      intro key hkey
      obtain ⟨⟨name, value⟩, hmem, rfl⟩ := List.mem_map.mp hkey
      rw [← hsome, beq_iff_eq.mp (hvalues _ hmem)]
      rfl
    -- as many keys on both sides, so they are the same keys
    have hkeys : (a.map Prod.fst).Perm (b.map Prod.fst) :=
      (List.subperm_of_subset ha hsubset).perm_of_length_le (by simp [hlength])
    refine Finmap.ext_lookup fun key => ?_
    rw [lookup_attributeMap, lookup_attributeMap]
    cases hkey : a.lookup key with
    | none =>
      rw [eq_comm, ← Option.not_isSome_iff_eq_none, hsome, ← hkeys.mem_iff, ← hsome, hkey]
      simp
    | some value =>
      obtain ⟨front, back, hsplit, -⟩ := List.lookup_eq_some_iff.mp hkey
      exact (beq_iff_eq.mp (hvalues (key, value) (by simp [hsplit]))).symm
  · intro h
    have hlookup : ∀ key, a.lookup key = b.lookup key := fun key => by
      rw [← lookup_attributeMap, h, lookup_attributeMap]
    have hkeys : (a.map Prod.fst).Perm (b.map Prod.fst) :=
      (List.perm_ext_iff_of_nodup ha hb).mpr fun key => by rw [← hsome, hlookup, hsome]
    refine ⟨by simpa using hkeys.length_eq, ?_⟩
    rintro ⟨key, value⟩ hmem
    show (b.lookup key == some value) = true
    rw [← hlookup]
    exact List.all_eq_true.mp (Xml.all_lookup_of_nodup ha) (key, value) hmem

/-! The same, and of one canonical form. -/

mutual

theorem Node.same_iff_canonical (x y : Node) (hx : x.keyed) (hy : y.keyed) :
    x.same y = true ↔ x.canonical = y.canonical := by
  cases x with
  | element tag children =>
    cases y with
    | element tag' children' =>
      rw [Node.same, Node.canonical, Node.canonical, Bool.and_eq_true, Bool.and_eq_true, beq_iff_eq,
        sameAttributes_iff hx.1 hy.1, sameNodes_iff_canonicals children children' hx.2 hy.2,
        Canonical.element.injEq, and_assoc]
    | _ => simp [Node.same, Node.canonical]
  | _ => cases y <;> simp [Node.same, Node.canonical]

theorem sameNodes_iff_canonicals (xs ys : List Node) (hxs : keyedAll xs) (hys : keyedAll ys) :
    sameNodes xs ys = true ↔ canonicals xs = canonicals ys := by
  cases xs with
  | nil =>
    rw [sameNodes, canonicals, canonicals_eq, List.all_eq_true, eq_comm (a := []), List.map_eq_nil_iff,
      List.filter_eq_nil_iff]
    simp
  | cons x xs =>
    rw [sameNodes, canonicals, ← canonicals_dropWhile ys]
    have hleft : keyedAll (ys.dropWhile Node.isBlank) :=
      keyedAll_iff.mpr fun y hy => keyedAll_iff.mp hys y ((List.dropWhile_suffix _).subset hy)
    split
    · rw [canonicals_dropWhile, sameNodes_iff_canonicals xs ys hxs.2 hys]
    · cases hdrop : ys.dropWhile Node.isBlank with
      | nil => simp [canonicals]
      | cons y rest =>
        rw [hdrop] at hleft
        rw [canonicals, isBlank_of_dropWhile hdrop]
        simp only [Bool.false_eq_true, if_false, Bool.and_eq_true, List.cons.injEq]
        rw [Node.same_iff_canonical x y hxs.1 hleft.1, sameNodes_iff_canonicals xs rest hxs.2 hleft.2]

end

/-! Blank text that comes and goes. -/

/-- Nodes that have one blank text more, among them or inside one of them at any depth. -/
inductive GainsBlank : List Node → List Node → Prop where
  | here (front : List Node) {value : String} (h : Text.isBlankText value = true) (back : List Node) :
      GainsBlank (front ++ back) (front ++ .text value :: back)
  | inside (front : List Node) (tag : Tag) {children children' : List Node}
      (h : GainsBlank children children') (back : List Node) :
      GainsBlank (front ++ .element tag children :: back) (front ++ .element tag children' :: back)

theorem GainsBlank.canonicals_eq {nodes nodes' : List Node} (h : GainsBlank nodes nodes') :
    canonicals nodes = canonicals nodes' := by
  induction h with
  | @here front value h back =>
    have hblank : (Node.text value).isBlank = true := h
    rw [canonicals_append, canonicals_append, canonicals_cons_of_isBlank hblank]
  | inside front tag _ back ih =>
    have helement : ∀ children : List Node, canonicals (.element tag children :: back) =
        .element tag.name (attributeMap tag.attributes) (canonicals children) :: canonicals back :=
      fun _ => rfl
    rw [canonicals_append, canonicals_append, helement, helement, ih]

namespace Comparand

/-- Whether the attributes of each tag have keys of their own. -/
def keyed : Comparand → Prop
  | .document d => keyedAll d.nodes
  | .node n => n.keyed

/-- The canonical forms of the nodes of a document, or that of a node. -/
def canonical : Comparand → List Canonical ⊕ Canonical
  | .document d => .inl (canonicals d.nodes)
  | .node n => .inr n.canonical

/-- One blank text more at the top level of a document or inside an element, at any depth. -/
inductive GainsBlank : Comparand → Comparand → Prop where
  | document (d : Document) {nodes : List Node} (h : Manifest.GainsBlank d.nodes nodes) :
      GainsBlank (.document d) (.document { d with nodes := nodes })
  | node (tag : Tag) {children children' : List Node} (h : Manifest.GainsBlank children children') :
      GainsBlank (.node (.element tag children)) (.node (.element tag children'))

theorem GainsBlank.canonical_eq {x x' : Comparand} (h : GainsBlank x x') :
    x.canonical = x'.canonical := by
  cases h with
  | document d h => exact congrArg Sum.inl h.canonicals_eq
  | node tag h =>
    rw [canonical, canonical, Node.canonical, Node.canonical, h.canonicals_eq]

/-- However often blank text comes and goes, the canonical form stays. -/
theorem canonical_eq_of_eqvGen {x x' : Comparand} (h : Relation.EqvGen GainsBlank x x') :
    x.canonical = x'.canonical := by
  induction h with
  | rel x x' h => exact h.canonical_eq
  | refl x => rfl
  | symm x x' _ ih => exact ih.symm
  | trans x x' x'' _ _ ih ih' => exact ih.trans ih'

theorem same_iff_canonical {x y : Comparand} (hx : x.keyed) (hy : y.keyed) :
    x.same y = true ↔ x.canonical = y.canonical := by
  cases x <;> cases y
  · next a b => simpa [same, canonical, Document.same] using sameNodes_iff_canonicals a.nodes b.nodes hx hy
  · simp [same, canonical]
  · simp [same, canonical]
  · next a b => simpa [same, canonical] using Node.same_iff_canonical a b hx hy

end Comparand

/-- Documents and nodes whose tags have attributes with keys of their own. -/
abbrev KeyedComparand := {x : Comparand // x.keyed}

/--
Being the same is an equivalence of documents and nodes: those are the same that have one canonical form,
in which blank text is left out at every level, namespaces are forgotten, attributes are the values under
their keys and the values of instructions are stripped. So blank text may be put in or taken out anywhere
on either side.
-/
theorem same_isEquivalence :
    (Equivalence fun x y : KeyedComparand => x.1.same y.1 = true) ∧
      (∀ x y : KeyedComparand, x.1.same y.1 = true ↔ x.1.canonical = y.1.canonical) ∧
      ∀ x x' y y' : KeyedComparand, Relation.EqvGen Comparand.GainsBlank x.1 x'.1 →
        Relation.EqvGen Comparand.GainsBlank y.1 y'.1 → x.1.same y.1 = x'.1.same y'.1 := by
  have hiff : ∀ x y : KeyedComparand, x.1.same y.1 = true ↔ x.1.canonical = y.1.canonical :=
    fun x y => Comparand.same_iff_canonical x.2 y.2
  refine ⟨⟨fun x => (hiff x x).mpr rfl, fun {x y} h => ?_, fun {x y z} hxy hyz => ?_⟩, hiff,
    fun x x' y y' hx hy => ?_⟩
  · exact (hiff y x).mpr ((hiff x y).mp h).symm
  · exact (hiff x z).mpr (((hiff x y).mp hxy).trans ((hiff y z).mp hyz))
  · rw [Bool.eq_iff_iff, hiff, hiff, Comparand.canonical_eq_of_eqvGen hx,
      Comparand.canonical_eq_of_eqvGen hy]

/-- A start tag with two attributes. -/
def dependencyTag : Tag :=
  { name := "dependency", attributes := [("id", "core"), ("scope", "test")] }

/-- The same tag in a namespace, its attributes the other way round. -/
def dependencyTag' : Tag :=
  { name := "dependency", uri := some "urn:manifest", attributes := [("scope", "test"), ("id", "core")] }

/-- An element on one line is the same as itself in a namespace, and still is with its child on a new line. -/
theorem same_isEquivalence_newLine :
    let flat := Comparand.node (.element dependencyTag [.element { name := "version" } []])
    let indented := Comparand.node (.element dependencyTag [.text "\n  ", .element { name := "version" } []])
    let native := Comparand.node (.element dependencyTag' [.element { name := "version" } []])
    Comparand.GainsBlank flat indented ∧ flat.same native = true ∧ indented.same native = true := by
  intro flat indented native
  have hflat : flat.keyed := by simp [flat, Comparand.keyed, Node.keyed, keyedAll, dependencyTag]
  have hindented : indented.keyed := by
    simp [indented, Comparand.keyed, Node.keyed, keyedAll, dependencyTag]
  have hnative : native.keyed := by simp [native, Comparand.keyed, Node.keyed, keyedAll, dependencyTag']
  have hgains : Comparand.GainsBlank flat indented :=
    .node dependencyTag (.here [] (by decide +kernel) [.element { name := "version" } []])
  have hsame : flat.same native = true := by decide +kernel
  obtain ⟨-, -, hstays⟩ := same_isEquivalence
  refine ⟨hgains, hsame, ?_⟩
  rw [← hstays ⟨flat, hflat⟩ ⟨indented, hindented⟩ ⟨native, hnative⟩ ⟨native, hnative⟩ (.rel _ _ hgains)
    (.refl _)]
  exact hsame

end Manifest
