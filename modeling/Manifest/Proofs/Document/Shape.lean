import Manifest.Proofs.Leaf
import Manifest.Proofs.Xml.Written

/-! Properties of trees in which no two texts stand side by side. Such a property asks something of each tag,
and something of the nodes without children, though nothing of texts. Entries that are built have it; it stays
when an element in a tree is changed, when leaves are put on one line, and when a section is created. -/

set_option autoImplicit false

namespace Manifest

/-! Texts side by side. -/

/-- Whether texts stand side by side depends only on where they stand. -/
theorem apart_iff_map {nodes : List Node} :
    apart nodes ↔ (nodes.map Node.isText).IsChain fun a b => a = true → b = false := by
  rw [apart, List.isChain_map]

theorem apart_of_not_isText {nodes : List Node} (h : ∀ node ∈ nodes, node.isText = false) :
    apart nodes := by
  induction nodes with
  | nil => exact .nil
  | cons node rest ih =>
    refine List.isChain_cons.mpr ⟨fun _ _ htext => ?_, ih fun x hx => h x (by simp [hx])⟩
    rw [h node (by simp)] at htext
    cases htext

/-- An element between two nodes keeps texts apart. -/
theorem apart_insert {front back : List Node} {node : Node} (hn : node.isText = false)
    (h : apart (front ++ back)) : apart (front ++ node :: back) := by
  rw [apart, List.isChain_append] at h ⊢
  refine ⟨h.1, List.isChain_cons.mpr ⟨fun _ _ htext => ?_, h.2.1⟩, fun a _ b hb _ => ?_⟩
  · rw [hn] at htext
    cases htext
  · rw [List.head?_cons, Option.mem_some] at hb
    rw [← hb]
    exact hn

theorem isText_toNode (e : Element) : e.toNode.isText = false := rfl

/-- White space and an element behind another one keep texts apart. -/
theorem apart_behind {front tail middle : List Node} {node : Node}
    (hlast : ∀ x ∈ front.getLast?, x.isText = false) (hmiddle : apart middle)
    (hnode : node.isText = false) (h : apart (front ++ tail)) :
    apart (front ++ (middle ++ node :: tail)) := by
  obtain ⟨hfront, htail, -⟩ := List.isChain_append.mp h
  refine List.isChain_append.mpr ⟨hfront, List.isChain_append.mpr ⟨hmiddle,
    List.isChain_cons.mpr ⟨fun _ _ htext => ?_, htail⟩, fun a _ b hb _ => ?_⟩,
    fun a ha b _ htext => ?_⟩
  · rw [hnode] at htext
    cases htext
  · rw [List.head?_cons, Option.mem_some] at hb
    rw [← hb]
    exact hnode
  · rw [hlast a ha] at htext
    cases htext

/-- New nodes that are no texts keep texts apart. -/
theorem apart_insertNodes {nodes new : List Node} (h : apart nodes)
    (hnew : ∀ node ∈ new, node.isText = false) (index : Nat) : apart (insertNodes new index nodes) := by
  rw [← List.take_append_drop index nodes] at h
  rw [insertNodes]
  induction new with
  | nil => exact h
  | cons node new ih =>
    exact apart_insert (hnew node List.mem_cons_self) (ih fun x hx => hnew x (List.mem_cons_of_mem _ hx))

theorem mem_insertNodes {nodes new : List Node} {index : Nat} {node : Node}
    (h : node ∈ insertNodes new index nodes) : node ∈ new ∨ node ∈ nodes := by
  rw [insertNodes, List.mem_append, List.mem_append] at h
  rcases h with h | h | h
  · exact Or.inr (List.mem_of_mem_take h)
  · exact Or.inl h
  · exact Or.inr (List.mem_of_mem_drop h)

/-! Properties. -/

@[simp] theorem Node.isText_collapse (node : Node) : node.collapse.isText = node.isText := by
  cases node with
  | element tag children =>
    rw [collapse_element]
    rfl
  | _ => rfl

/-- A property of nodes, and what it asks of the tags in them. -/
structure Shape (good : Node → Prop) (tag : Tag → Prop) : Prop where
  element : ∀ (t : Tag) (children : List Node), good (.element t children) ↔
    tag t ∧ apart children ∧ ∀ node ∈ children, good node
  text : ∀ value : String, good (.text value)

/-- Whether a name does not begin with a bracket, behind which it would hold a namespace. -/
def isPlainName (name : String) : Prop :=
  name.toList.head? ≠ some '\x7b'

instance (name : String) : Decidable (isPlainName name) :=
  inferInstanceAs (Decidable (name.toList.head? ≠ some '\x7b'))

/-- A tag that says nothing but a name. -/
def Tag.ofName (name : String) : Tag := { name := name }

theorem ordinaries_iff {nodes : List Node} :
    ordinaries nodes ↔ ∀ node ∈ nodes, node.ordinary := by
  induction nodes with
  | nil => simp [ordinaries]
  | cons node rest ih => simp [ordinaries, ih]

theorem shape_ordinary : Shape Node.ordinary Xml.Ordinary :=
  ⟨fun _ children => by rw [Node.ordinary, ordinaries_iff], fun _ => trivial⟩

/-- A tag that has nothing but a plain name. -/
theorem ordinary_tag_ofName {name : String} (h : isPlainName name) : Xml.Ordinary (Tag.ofName name) :=
  ⟨h, .nil, nofun, nofun, .nil, nofun⟩

mutual

/-- Whether no two texts stand side by side in a node, however deep. -/
def Node.textsApart : Node → Prop
  | .element _ children => apart children ∧ textsApartIn children
  | _ => True

/-- Whether no two texts stand side by side in some nodes, however deep. -/
def textsApartIn : List Node → Prop
  | [] => True
  | node :: rest => node.textsApart ∧ textsApartIn rest

end

theorem textsApartIn_iff {nodes : List Node} :
    textsApartIn nodes ↔ ∀ node ∈ nodes, node.textsApart := by
  induction nodes with
  | nil => simp [textsApartIn]
  | cons node rest ih => simp [textsApartIn, ih]

theorem shape_textsApart : Shape Node.textsApart fun _ => True :=
  ⟨fun _ children => by rw [Node.textsApart, textsApartIn_iff, true_and], fun _ => trivial⟩

namespace Shape

variable {good : Node → Prop} {tag : Tag → Prop}

mutual

theorem node_collapse (h : Shape good tag) (node : Node) (hnode : good node) : good node.collapse := by
  cases node with
  | element t children =>
    obtain ⟨htag, ha, hchildren⟩ := (h.element t children).mp hnode
    rw [collapse_element]
    rcases collapsedChildren_cases children with ⟨-, hsame⟩ | ⟨value, -, -, hleaf⟩
    · rw [hsame]
      refine (h.element t _).mpr ⟨htag, ?_, h.map_collapse children hchildren⟩
      rw [apart_iff_map, List.map_map]
      have htext : Node.isText ∘ Node.collapse = Node.isText := by
        funext node
        exact node.isText_collapse
      rw [htext]
      exact apart_iff_map.mp ha
    · rw [hleaf]
      exact (h.element t _).mpr ⟨htag, List.isChain_singleton _, by simpa using h.text (Text.strip value)⟩
  | _ => exact hnode

theorem map_collapse (h : Shape good tag) (nodes : List Node) (hnodes : ∀ node ∈ nodes, good node) :
    ∀ node ∈ nodes.map Node.collapse, good node := by
  cases nodes with
  | nil => exact nofun
  | cons node rest =>
    obtain ⟨hnode, hrest⟩ := List.forall_mem_cons.mp hnodes
    exact List.forall_mem_cons.mpr ⟨h.node_collapse node hnode, h.map_collapse rest hrest⟩

end

variable (h : Shape good tag)
include h

theorem element_iff (e : Element) :
    good e.toNode ↔ tag e.tag ∧ apart e.children ∧ ∀ node ∈ e.children, good node :=
  h.element e.tag e.children

theorem at? {e x : Element} {position : Position} (hat : e.at? position = some x)
    (he : good e.toNode) : good x.toNode := by
  induction position generalizing e with
  | nil =>
    cases hat
    exact he
  | cons rank rest ih =>
    obtain ⟨front, c, back, heq, -, hx⟩ := Element.at?_cons hat
    rw [heq] at he
    exact ih hx (((h.element_iff _).mp he).2.2 _ (by simp))

omit h in
theorem modifyElement {f : Element → Element} (hf : ∀ x : Element, good x.toNode → good (f x).toNode)
    {rank : Nat} {nodes : List Node} (hnodes : ∀ node ∈ nodes, good node) :
    (modifyElement f rank nodes).map Node.isText = nodes.map Node.isText ∧
      ∀ node ∈ Manifest.modifyElement f rank nodes, good node := by
  cases hat : (elementsOf nodes)[rank]? with
  | none =>
    have hsame : Manifest.modifyElement f rank nodes = nodes := by
      have hlength := List.getElem?_eq_none_iff.mp hat
      clear hat hnodes
      induction nodes generalizing rank with
      | nil => cases rank <;> rfl
      | cons node rest ih =>
        cases node with
        | element t children =>
          rw [elementsOf_element_cons, List.length_cons] at hlength
          cases rank with
          | zero => omega
          | succ rank => rw [Manifest.modifyElement, ih (by omega)]
        | _ =>
          have hrest := ih hlength
          cases rank <;> rw [Manifest.modifyElement, hrest] <;> simp
    rw [hsame]
    exact ⟨rfl, hnodes⟩
  | some e =>
    obtain ⟨front, back, rfl, hrank⟩ := exists_split_of_getElem? hat
    rw [modifyElement_append f hrank]
    refine ⟨by simp [Element.toNode, Node.isText], fun node hn => ?_⟩
    rw [List.mem_append, List.mem_cons] at hn
    rcases hn with hn | rfl | hn
    · exact hnodes node (List.mem_append_left _ hn)
    · exact hf e (hnodes _ (by simp))
    · exact hnodes node (by simp [hn])

/-- The property stays when an element in a tree is changed to one that has it. -/
theorem modifyAt {f : Element → Element} (hf : ∀ x : Element, good x.toNode → good (f x).toNode)
    (position : Position) {e : Element} (he : good e.toNode) : good (e.modifyAt f position).toNode := by
  induction position generalizing e with
  | nil => exact hf e he
  | cons rank rest ih =>
    obtain ⟨htag, ha, hchildren⟩ := (h.element_iff e).mp he
    obtain ⟨htexts, hgood⟩ := @modifyElement good (Element.modifyAt f rest) (fun x hx => ih hx) rank e.children
      hchildren
    refine (h.element_iff _).mpr ⟨htag, ?_, hgood⟩
    rw [apart_iff_map] at ha ⊢
    exact htexts ▸ ha

theorem setAt {e : Element} {position : Position} (he : good e.toNode) {children : List Node}
    (ha : apart children) (hchildren : ∀ node ∈ children, good node) :
    good (e.setAt position children).toNode :=
  h.modifyAt (f := fun x => { x with children := children })
    (fun x hx => (h.element_iff _).mpr ⟨((h.element_iff x).mp hx).1, ha, hchildren⟩) position he

theorem withText {e : Element} (he : good e.toNode) (value : String) :
    good (e.withText value).toNode := by
  refine (h.element_iff _).mpr ⟨((h.element_iff e).mp he).1, ?_⟩
  rw [Element.withText]
  dsimp only
  split
  · exact ⟨.nil, nofun⟩
  · exact ⟨List.isChain_singleton _, by simpa using h.text value⟩

theorem ofName {name : String} (hname : tag (Tag.ofName name)) {children : List Node}
    (ha : apart children) (hchildren : ∀ node ∈ children, good node) :
    good (Element.ofName name children).toNode :=
  (h.element_iff _).mpr ⟨hname, ha, hchildren⟩

theorem chain {name : String} {rest : List String} (hnames : ∀ x ∈ name :: rest, tag (Tag.ofName x)) :
    good (Element.chain name rest).toNode := by
  induction rest generalizing name with
  | nil => exact h.ofName (hnames name (by simp)) .nil nofun
  | cons next rest ih =>
    refine h.ofName (hnames name (by simp)) (List.isChain_singleton _) ?_
    simpa using ih fun x hx => hnames x (List.mem_cons_of_mem _ hx)

theorem appendElement {e child : Element} (he : good e.toNode) (hchild : good child.toNode) :
    good (e.appendElement child).toNode := by
  obtain ⟨htag, ha, hchildren⟩ := (h.element_iff e).mp he
  obtain ⟨front, tail, heq, hafter, -, hlast⟩ := Element.exists_eq_append_afterElements e.children
  have hspace : ∀ node ∈ Element.textNodes e.childIndent, good node := by
    intro node hn
    rw [Element.textNodes] at hn
    split at hn
    · cases hn
    · rw [List.mem_singleton.mp hn]
      exact h.text _
  have hspaceApart : apart (Element.textNodes e.childIndent) := by
    rw [Element.textNodes]
    split
    · exact .nil
    · exact List.isChain_singleton _
  rw [Element.appendElement, hafter]
  split
  · refine (h.element_iff _).mpr ⟨htag, ?_, fun node hn => ?_⟩
    · exact @apart_insert e.children [] child.toNode rfl (by rwa [List.append_nil])
    · rcases List.mem_append.mp hn with hn | hn
      · exact hchildren node hn
      · rw [List.mem_singleton.mp hn]
        exact hchild
  · next index hindex =>
    have hlength : index + 1 = front.length := hindex.symm
    refine (h.element_iff _).mpr ⟨htag, ?_, fun node hn => ?_⟩
    · rw [heq] at ha
      dsimp only
      rw [hlength, insertNodes, heq, List.take_left, List.drop_left, List.append_assoc,
        List.singleton_append]
      refine apart_behind (fun x hx => ?_) hspaceApart rfl ha
      have helement := hlast x hx
      cases x <;> first | rfl | cases helement
    · rcases mem_insertNodes hn with hn | hn
      · rcases List.mem_append.mp hn with hn | hn
        · exact hspace node hn
        · rw [List.mem_singleton.mp hn]
          exact hchild
      · exact hchildren node hn

/-- The property stays when a section is created whose names are right. -/
theorem ensure {path : List String} (hpath : ∀ name ∈ path, tag (Tag.ofName name)) {e : Element}
    (he : good e.toNode) : good (e.ensure path).element.toNode := by
  induction path generalizing e with
  | nil => exact he
  | cons name rest ih =>
    rw [Element.ensure]
    cases hr : e.ranked? name with
    | none => exact h.appendElement he (h.chain hpath)
    | some x =>
      obtain ⟨child, rank⟩ := x
      obtain ⟨-, -, hat, -⟩ := Element.ranked?_eq_some hr
      obtain ⟨htag, ha, hchildren⟩ := (h.element_iff e).mp he
      obtain ⟨front, back, heq, -⟩ := exists_split_of_getElem? hat
      have hchild : good child.toNode := hchildren _ (by rw [heq]; simp)
      have hinner := ih (fun x hx => hpath x (List.mem_cons_of_mem _ hx)) hchild
      obtain ⟨htexts, hgood⟩ := @modifyElement good (fun _ => (child.ensure rest).element)
        (fun _ _ => hinner) rank e.children hchildren
      refine (h.element_iff _).mpr ⟨htag, ?_, hgood⟩
      rw [apart_iff_map] at ha ⊢
      exact htexts ▸ ha

theorem collapse (e : Element) (he : good e.toNode) : good e.collapse.toNode := by
  have hcollapsed := h.node_collapse e.toNode he
  rw [Element.collapse_eq]
  rwa [Element.toNode, collapse_element] at hcollapsed

/-! Entries that are built. -/

theorem leaf {name : String} (hname : tag (Tag.ofName name)) (value : String) :
    good (Element.leaf name value).toNode :=
  h.ofName hname (List.isChain_singleton _) (by simpa using h.text value)

/-- Elements side by side, in an element that has nothing but a name. -/
theorem ofName_elements {name : String} (hname : tag (Tag.ofName name)) {children : List Element}
    (hc : ∀ e ∈ children, good e.toNode) :
    good (Element.ofName name (children.map Element.toNode)).toNode := by
  refine h.ofName hname (apart_of_not_isText ?_) (List.forall_mem_map.mpr hc)
  intro node hn
  obtain ⟨e, -, rfl⟩ := List.mem_map.mp hn
  rfl

theorem coordinates (hname : ∀ name, isPlainName name → tag (Tag.ofName name)) {kind : String}
    (hkind : tag (Tag.ofName kind)) (group artifact : String) (version : Option String) :
    good (Element.coordinates kind group artifact version).toNode := by
  have hfields : ((Element.leaf "groupId" group).toNode ::
      (Element.leaf "artifactId" artifact).toNode ::
        (version.map fun v => (Element.leaf "version" v).toNode).toList) =
      (Element.leaf "groupId" group :: Element.leaf "artifactId" artifact ::
        (version.map (Element.leaf "version")).toList).map Element.toNode := by
    cases version <;> rfl
  rw [Element.coordinates, hfields]
  refine h.ofName_elements hkind fun e he => ?_
  simp only [List.mem_cons, Option.mem_toList, Option.map_eq_some_iff] at he
  rcases he with rfl | rfl | ⟨v, -, rfl⟩
  · exact h.leaf (hname _ (by simp [isPlainName])) group
  · exact h.leaf (hname _ (by simp [isPlainName])) artifact
  · exact h.leaf (hname _ (by simp [isPlainName])) v

/-- Children that are put behind those of an element, all without text in front. -/
theorem append {e : Element} (he : good e.toNode) {more : List Node}
    (hmore : ∀ node ∈ more, node.isText = false ∧ good node) :
    good ({ e with children := e.children ++ more } : Element).toNode := by
  obtain ⟨htag, ha, hc⟩ := (h.element_iff e).mp he
  refine (h.element_iff _).mpr ⟨htag, List.isChain_append.mpr
    ⟨ha, apart_of_not_isText fun node hn => (hmore node hn).1, fun a _ b hb _ => ?_⟩, fun node hn => ?_⟩
  · exact (hmore b (List.mem_of_mem_head? hb)).1
  · rcases List.mem_append.mp hn with hn | hn
    · exact hc node hn
    · exact (hmore node hn).2

theorem dependency (hname : ∀ name, isPlainName name → tag (Tag.ofName name)) (group artifact : String)
    (version type scope : Option String) :
    good (Element.dependency group artifact version type scope).toNode := by
  have hfield : ∀ (name : String) (value : Option String), isPlainName name →
      ∀ node ∈ (value.map fun v => (Element.leaf name v).toNode).toList,
        node.isText = false ∧ good node := by
    intro name value hplain node hn
    obtain ⟨v, -, rfl⟩ := Option.map_eq_some_iff.mp (Option.mem_toList.mp hn)
    exact ⟨rfl, h.leaf (hname name hplain) v⟩
  rw [Element.dependency, List.append_assoc]
  refine h.append (h.coordinates hname (hname _ (by simp [isPlainName])) _ _ _) fun node hn => ?_
  rcases List.mem_append.mp hn with hn | hn
  · exact hfield "type" type (by simp [isPlainName]) node hn
  · exact hfield "scope" scope (by simp [isPlainName]) node hn

theorem withVersion (hname : tag (Tag.ofName "version")) {e : Element} (he : good e.toNode)
    (version : String) : good (e.withVersion version).toNode := by
  obtain ⟨htag, ha, hc⟩ := (h.element_iff e).mp he
  have hleaf := h.leaf hname version
  rw [Element.withVersion]
  split
  · next before old after hsplit =>
    obtain ⟨hchildren, -, -⟩ := splitAtElement_eq_some hsplit
    rw [hchildren] at ha hc
    refine (h.element_iff _).mpr ⟨htag, ?_, fun node hn => ?_⟩
    · rw [apart_iff_map, List.map_append, List.map_cons] at ha ⊢
      exact ha
    · rw [List.mem_append, List.mem_cons] at hn
      rcases hn with hn | rfl | hn
      · exact hc node (by simp [hn])
      · exact h.withText (hc _ (by simp)) version
      · exact hc node (by simp [hn])
  · split
    · next before artifact after hsplit =>
      obtain ⟨hchildren, -, -⟩ := splitAtElement_eq_some hsplit
      have hsingle : before ++ artifact.toNode :: after = (before ++ [artifact.toNode]) ++ after := by
        simp
      rw [hchildren, hsingle] at ha hc
      have hput := @apart_insert _ _ (Element.leaf "version" version).toNode rfl ha
      rw [List.append_assoc, List.singleton_append] at hput
      refine (h.element_iff _).mpr ⟨htag, hput, fun node hn => ?_⟩
      simp only [List.mem_append, List.mem_cons] at hn
      rcases hn with hn | rfl | rfl | hn
      · exact hc node (by simp [hn])
      · exact hc _ (by simp)
      · exact hleaf
      · exact hc node (by simp [hn])
    · exact h.append he (by simpa using ⟨rfl, hleaf⟩)

end Shape

end Manifest
