import Manifest.Node.Same
import Manifest.Proofs.Identity
import Manifest.Proofs.Leaf
import Manifest.Proofs.Xml.Loaded

/-! What an entry is known by. Identities and anchors look at its name, at the text of some of its children,
and in a module at its own text. An entry has the same marks as any that it is the same as, as long as
these texts are not cut to pieces: white space between pieces of text does not count for what entries are
the same as, but is part of the text. -/

set_option autoImplicit false

namespace Manifest

/-! Text in one piece. -/

/-- The text of a node, unless it is blank. -/
def Node.piece? : Node → Option String
  | .text value => if Text.isBlankText value then none else some value
  | _ => none

/-- The pieces of text among some nodes. -/
def pieces (nodes : List Node) : List String :=
  nodes.filterMap Node.piece?

/-- Whether the text among some nodes is in one piece, but for white space. -/
def inOnePiece (nodes : List Node) : Bool :=
  (pieces nodes).length ≤ 1

namespace Text

theorem stripList_blank_append {front : List Char} (h : ∀ c ∈ front, isBlank c = true)
    (cs : List Char) : stripList (front ++ cs) = stripList cs := by
  rw [stripList, List.dropWhile_append_of_pos h, stripList]

theorem trimEndList_append_blank {back : List Char} (h : ∀ c ∈ back, isBlank c = true)
    (cs : List Char) : trimEndList (cs ++ back) = trimEndList cs := by
  rw [trimEndList, List.reverse_append, List.dropWhile_append_of_pos, trimEndList]
  exact fun c hc => h c (List.mem_reverse.mp hc)

theorem stripList_append_blank {back : List Char} (h : ∀ c ∈ back, isBlank c = true)
    (cs : List Char) : stripList (cs ++ back) = stripList cs := by
  rw [stripList, List.dropWhile_append, stripList]
  split
  · next hempty =>
    rw [List.isEmpty_iff] at hempty
    have hback : back.dropWhile isBlank = [] := List.dropWhile_eq_nil_iff.mpr h
    rw [hempty, hback]
  · exact trimEndList_append_blank h _

end Text

theorem Node.piece?_of_isBlank {node : Node} (h : node.isBlank = true) : node.piece? = none := by
  cases node with
  | text value => exact if_pos h
  | _ => cases h

theorem isBlank_textValue {node : Node} (h : node.piece? = none) :
    ∀ c ∈ node.textValue.toList, Text.isBlank c = true := by
  cases node with
  | text value =>
    rw [Node.piece?] at h
    split at h
    · next hb => exact List.all_eq_true.mp hb
    · cases h
  | _ => exact nofun

theorem textValue_of_piece? {node : Node} {value : String} (h : node.piece? = some value) :
    node.textValue = value := by
  cases node with
  | text _ =>
    rw [Node.piece?] at h
    split at h <;> cases h
    rfl
  | _ => cases h

theorem isBlank_of_no_pieces {nodes : List Node} (h : pieces nodes = []) :
    ∀ c ∈ (String.join (nodes.map Node.textValue)).toList, Text.isBlank c = true := by
  rw [pieces, List.filterMap_eq_nil_iff] at h
  intro c hc
  rw [String.toList_join, List.flatMap_map, List.mem_flatMap] at hc
  obtain ⟨node, hn, hc⟩ := hc
  exact isBlank_textValue (h node hn) c hc

theorem stripList_of_piece {nodes : List Node} {value : String} (h : pieces nodes = [value]) :
    Text.stripList (String.join (nodes.map Node.textValue)).toList = Text.stripList value.toList := by
  induction nodes with
  | nil => cases h
  | cons node rest ih =>
    rw [List.map_cons, String.join_cons, String.toList_append]
    cases hn : node.piece? with
    | none =>
      rw [Text.stripList_blank_append (isBlank_textValue hn)]
      refine ih ?_
      rwa [pieces, List.filterMap_cons_none hn] at h
    | some piece =>
      rw [pieces, List.filterMap_cons_some hn, List.cons.injEq] at h
      rw [textValue_of_piece? hn, h.1, Text.stripList_append_blank (isBlank_of_no_pieces h.2)]

/-- Text in one piece is that piece but for white space around it. -/
theorem strip_eq_of_pieces {a b : List Node} (h : pieces a = pieces b) (hb : inOnePiece b = true) :
    Text.strip (String.join (a.map Node.textValue)) =
      Text.strip (String.join (b.map Node.textValue)) := by
  have hchars : Text.stripList (String.join (a.map Node.textValue)).toList =
      Text.stripList (String.join (b.map Node.textValue)).toList := by
    rw [inOnePiece, decide_eq_true_eq] at hb
    cases hp : pieces b with
    | nil =>
      have hnil : ∀ nodes, pieces nodes = [] →
          Text.stripList (String.join (nodes.map Node.textValue)).toList = [] := by
        intro nodes hno
        rw [Text.stripList, List.dropWhile_eq_nil_iff.mpr (isBlank_of_no_pieces hno)]
        rfl
      rw [hnil a (h.trans hp), hnil b hp]
    | cons value more =>
      have hmore : more = [] := by
        rw [hp, List.length_cons] at hb
        exact List.length_eq_zero_iff.mp (by omega)
      rw [hmore] at hp
      rw [stripList_of_piece (h.trans hp), stripList_of_piece hp]
  rw [Text.strip, Text.strip, hchars]

/-! Nodes that are the same. -/

/-- White space in front does not count for what is not blank. -/
theorem filterMap_dropWhile_isBlank {α : Type} {f : Node → Option α}
    (hf : ∀ node : Node, node.isBlank = true → f node = none) (nodes : List Node) :
    (nodes.dropWhile Node.isBlank).filterMap f = nodes.filterMap f := by
  induction nodes with
  | nil => rfl
  | cons node rest ih =>
    rw [List.dropWhile_cons]
    split
    · next hb => rw [ih, List.filterMap_cons_none (hf node hb)]
    · rfl

/--
Nodes that are the same have the same parts of a kind, one by one, if the nodes of which these are the
parts are not blank and have parts that are the same.
-/
theorem forall₂_of_sameNodes {α : Type} {f : Node → Option α} {R : α → α → Prop}
    (hblank : ∀ node : Node, node.isBlank = true → f node = none)
    (hf : ∀ x y : Node, x.same y = true → Option.Rel R (f x) (f y)) {a b : List Node}
    (h : sameNodes a b = true) : List.Forall₂ R (a.filterMap f) (b.filterMap f) := by
  induction a generalizing b with
  | nil =>
    rw [sameNodes, List.all_eq_true] at h
    rw [List.filterMap_eq_nil_iff.mpr fun node hn => hblank node (h node hn)]
    exact .nil
  | cons x xs ih =>
    rw [sameNodes] at h
    split at h
    · next hb =>
      rw [List.filterMap_cons_none (hblank x hb)]
      exact ih h
    · rw [← filterMap_dropWhile_isBlank hblank b]
      split at h
      · cases h
      · next y rest hdrop =>
        rw [Bool.and_eq_true] at h
        have hrest := ih h.2
        have hxy := hf x y h.1
        rw [hdrop, List.filterMap_cons, List.filterMap_cons]
        cases hx : f x <;> cases hy : f y <;> rw [hx, hy] at hxy <;> cases hxy
        · exact hrest
        · next hR => exact .cons hR hrest

theorem pieces_of_sameNodes {a b : List Node} (h : sameNodes a b = true) : pieces a = pieces b := by
  have hpieces : List.Forall₂ (· = ·) (pieces a) (pieces b) := by
    refine forall₂_of_sameNodes (fun _ => Node.piece?_of_isBlank) (fun x y hxy => ?_) h
    cases x <;> cases y <;> simp only [Node.same, Bool.false_eq_true, beq_iff_eq] at hxy
    · exact .none
    · rw [hxy]
      cases (Node.text _).piece? with
      | none => exact .none
      | some value => exact .some rfl
    · exact .none
    · exact .none
  rwa [List.forall₂_eq_eq_eq] at hpieces

/-- The elements among nodes that are the same are the same one by one. -/
theorem elements_of_sameNodes {a b : List Node} (h : sameNodes a b = true) :
    List.Forall₂ (fun x y : Element => x.toNode.same y.toNode = true) (elementsOf a)
      (elementsOf b) := by
  refine forall₂_of_sameNodes (fun node hb => ?_) (fun x y hxy => ?_) h
  · cases node <;> first | rfl | cases hb
  · cases x <;> cases y <;> first | exact .none | exact .some hxy | simp [Node.same] at hxy

theorem Element.name_of_same {x y : Element} (h : x.toNode.same y.toNode = true) :
    x.name = y.name := by
  rw [toNode, toNode, Node.same, Bool.and_eq_true, Bool.and_eq_true, beq_iff_eq] at h
  exact h.1.1

theorem Element.sameNodes_of_same {x y : Element} (h : x.toNode.same y.toNode = true) :
    sameNodes x.children y.children = true := by
  rw [toNode, toNode, Node.same, Bool.and_eq_true] at h
  exact h.2

/-- Elements that are the same have the same text but for white space around it, if it is in one piece. -/
theorem Element.strip_text_of_same {x y : Element} (h : x.toNode.same y.toNode = true)
    (hy : inOnePiece y.children = true) : Text.strip x.text = Text.strip y.text :=
  strip_eq_of_pieces (pieces_of_sameNodes (sameNodes_of_same h)) hy

/-- Elements that are the same have the same children of each name, or none. -/
theorem Element.child?_of_same {x y : Element} (h : x.toNode.same y.toNode = true) (name : String) :
    Option.Rel (fun c d : Element => c.toNode.same d.toNode = true) (x.child? name)
      (y.child? name) := by
  rw [child?, childOf?, child?, childOf?]
  generalize hx : elementsOf x.children = xs
  generalize hy : elementsOf y.children = ys
  have helements := elements_of_sameNodes (sameNodes_of_same h)
  rw [hx, hy] at helements
  clear hx hy
  induction helements with
  | nil => exact .none
  | cons hxy _ ih =>
    rw [List.find?_cons, List.find?_cons, name_of_same hxy]
    split
    · exact .some hxy
    · exact ih

/-- Elements that are the same have the same field of a name, if its text is in one piece. -/
theorem Element.childText?_of_same {x y : Element} (h : x.toNode.same y.toNode = true) {name : String}
    (hpiece : (y.child? name).all (inOnePiece ·.children) = true) :
    x.childText? name = y.childText? name := by
  have hrel := child?_of_same h name
  rw [childText?, childText?]
  cases hc : x.child? name <;> cases hd : y.child? name <;> rw [hc, hd] at hrel <;> cases hrel
  next hcd =>
  rw [hd, Option.all_some] at hpiece
  rw [Option.bind_some, Option.bind_some, strip_text_of_same hcd hpiece]

/-! Marks. -/

/-- The names of the children that identities and anchors look at. -/
def fieldNames : List String :=
  ["groupId", "artifactId", "id"]

/-- What an entry is known by. -/
structure Marks where
  name : String
  path : Option String
  fields : List (Option String)

namespace Identity

/-- What an identity and an anchor look at in an entry. -/
def marks (identity : Identity) (e : Element) : Marks where
  name := e.name
  path := if identity = .module then some (Text.strip e.text) else none
  fields := fieldNames.map e.childText?

/-- Whether the texts that an identity and an anchor look at in an entry are in one piece each. -/
def isLegible (identity : Identity) (e : Element) : Bool :=
  (identity != .module || inOnePiece e.children) &&
    fieldNames.all fun name => (e.child? name).all (inOnePiece ·.children)

variable {identity : Identity} {e e' : Element}

theorem childText?_of_marks (h : identity.marks e = identity.marks e') {name : String}
    (hname : name ∈ fieldNames) : e.childText? name = e'.childText? name :=
  List.map_inj_left.mp (congrArg Marks.fields h) name hname

/-- An identity looks at nothing but the marks of the entry that is there. -/
theorem same_of_marks (h : identity.marks e = identity.marks e') (c : Element) :
    identity.same e c = identity.same e' c := by
  have hgroup : e.childText? "groupId" = e'.childText? "groupId" :=
    childText?_of_marks h (by simp [fieldNames])
  have hartifact : e.childText? "artifactId" = e'.childText? "artifactId" :=
    childText?_of_marks h (by simp [fieldNames])
  have hid : e.childText? "id" = e'.childText? "id" := childText?_of_marks h (by simp [fieldNames])
  have hname : e.name = e'.name := congrArg Marks.name h
  cases identity with
  | dependency => rw [same, same, sameCoordinates, sameCoordinates, hgroup, hartifact]
  | plugin => rw [same, same, samePlugin, samePlugin, hgroup, hartifact]
  | embedded => rw [same, same, sameCoordinates, sameCoordinates, hgroup, hartifact]
  | profile => rw [same, same, hid]
  | property => rw [same, same, hname]
  | module =>
    have hpath : Text.strip e.text = Text.strip e'.text := by
      simpa [marks] using congrArg Marks.path h
    rw [same, same, hpath]
  | artifactIn artifacts => rw [same, same, hartifact]

/-- An identity looks at nothing but the marks of a candidate, if it looks at the candidate at all. -/
theorem same_of_marks_right (h : identity.marks e = identity.marks e') (c : Element) :
    identity.same c e = identity.same c e' := by
  cases identity with
  | artifactIn artifacts => rfl
  | _ => rw [same_comm (by simp [comparing]), same_of_marks h, same_comm (by simp [comparing])]

theorem same_congr {a a' b b' : Element} (ha : identity.marks a = identity.marks a')
    (hb : identity.marks b = identity.marks b') : identity.same a b = identity.same a' b' :=
  (same_of_marks ha b).trans (same_of_marks_right hb a')

/-- An anchor looks at nothing but the marks of an entry. -/
theorem holds_of_marks (h : identity.marks e = identity.marks e') (anchor : Anchor) :
    anchor.holds e = anchor.holds e' := by
  have hgroup : e.childText? "groupId" = e'.childText? "groupId" :=
    childText?_of_marks h (by simp [fieldNames])
  have hartifact : e.childText? "artifactId" = e'.childText? "artifactId" :=
    childText?_of_marks h (by simp [fieldNames])
  rw [Anchor.holds, Anchor.holds, hgroup, hartifact]

theorem marks_eq (hname : e.name = e'.name)
    (hpath : identity = .module → Text.strip e.text = Text.strip e'.text)
    (hfields : ∀ name ∈ fieldNames, e.childText? name = e'.childText? name) :
    identity.marks e = identity.marks e' := by
  have hpath' : (if identity = .module then some (Text.strip e.text) else none) =
      if identity = .module then some (Text.strip e'.text) else none := by
    split
    · next hmodule => rw [hpath hmodule]
    · rfl
  rw [marks, marks, hname, hpath', List.map_congr_left hfields]

/-- Entries that are the same have the same marks, if the texts of one of them are in one piece. -/
theorem marks_of_same (h : e.toNode.same e'.toNode = true) (hlegible : identity.isLegible e' = true) :
    identity.marks e = identity.marks e' := by
  rw [isLegible, Bool.and_eq_true, List.all_eq_true] at hlegible
  refine marks_eq (Element.name_of_same h) ?_ fun name hname => ?_
  · rintro rfl
    exact Element.strip_text_of_same h (by simpa using hlegible.1)
  · exact Element.childText?_of_same h (hlegible.2 name hname)

/-- Collapsing takes away only white space around the text of a leaf. -/
theorem strip_text_collapse (e : Element) : Text.strip e.collapse.text = Text.strip e.text := by
  rw [Element.collapse_eq, Element.text, Element.text]
  dsimp only
  rcases collapsedChildren_cases e.children with ⟨-, hsame⟩ | ⟨value, -, hchildren, hleaf⟩
  · have hvalue : Node.textValue ∘ Node.collapse = Node.textValue := by
      funext node
      cases node with
      | element tag children =>
        rw [Function.comp, collapse_element]
        rfl
      | _ => rfl
    rw [hsame, List.map_map, hvalue]
  · rw [hleaf, hchildren]
    simp [Node.textValue, String.join_cons, Text.strip_strip]

/-- Text in one piece stays in one piece. -/
theorem inOnePiece_collapse {e : Element} (h : inOnePiece e.children = true) :
    inOnePiece e.collapse.children = true := by
  rw [Element.collapse_eq]
  dsimp only
  rcases collapsedChildren_cases e.children with ⟨-, hsame⟩ | ⟨value, -, -, hleaf⟩
  · have hpiece : Node.piece? ∘ Node.collapse = Node.piece? := by
      funext node
      cases node with
      | element tag children =>
        rw [Function.comp, collapse_element]
        rfl
      | _ => rfl
    rwa [hsame, inOnePiece, pieces, List.filterMap_map, hpiece]
  · rw [hleaf, inOnePiece, decide_eq_true_eq]
    exact List.length_filterMap_le _ _

theorem childText?_collapse (e : Element) (name : String) :
    e.collapse.childText? name = e.childText? name := by
  rw [Element.childText?, Element.childText?, Element.child?_collapse]
  cases e.child? name with
  | none => rfl
  | some child => simp only [Option.map_some, Option.bind_some, strip_text_collapse]

theorem marks_collapse (identity : Identity) (e : Element) :
    identity.marks e.collapse = identity.marks e :=
  marks_eq (Element.name_collapse e) (fun _ => strip_text_collapse e) fun name _ =>
    childText?_collapse e name

end Identity

end Manifest
