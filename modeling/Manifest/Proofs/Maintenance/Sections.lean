import Manifest.Proofs.Document.Editing
import Manifest.Proofs.Document.Known
import Manifest.Proofs.Maintenance.Settling
import Manifest.Proofs.Marks

/-! Work on one section of a document, which is created if it is missing. The entries of the section become
what the work makes of them, and the document stays one that could have been read. -/

set_option autoImplicit false

namespace Manifest

open Xml (Scope)

/-- A document with a change of the section at a path, which is created if it is missing. -/
def Document.withSection (d : Document) (path : List String) (f : Element → Element) : Document :=
  (d.root?.map fun root => d.withRoot
    ((root.ensure (pathBelow root path)).element.modifyAt f (root.ensure (pathBelow root path)).position)).getD
    d

section
variable {d : Document} {root : Element} {path : List String} {f : Element → Element}

theorem Document.withSection_of_root (h : d.root? = some root) (path : List String)
    (f : Element → Element) :
    d.withSection path f = d.withRoot ((root.ensure (pathBelow root path)).element.modifyAt f
      (root.ensure (pathBelow root path)).position) := by
  rw [withSection, h]
  rfl

/-- Work on a section that is there. -/
theorem Document.withSection_of_locate (h : d.root? = some root) {position : Position}
    (hlocate : root.locate (pathBelow root path) = some position) (f : Element → Element) :
    d.withSection path f = d.withRoot (root.modifyAt f position) := by
  have hspec := root.locate_spec (pathBelow root path)
  rw [hlocate] at hspec
  obtain ⟨owner, hdescend⟩ := Option.isSome_iff_exists.mp hspec.2
  obtain ⟨helement, hposition⟩ := Element.element_ensure_of_descend hdescend
  rw [withSection_of_root h, helement, ← Option.some.inj (hlocate.symm.trans hposition)]

@[simp] theorem Document.encoding_withSection (d : Document) (path : List String) (f : Element → Element) :
    (d.withSection path f).encoding = d.encoding := by
  rw [withSection]
  cases d.root? <;> rfl

/-- The section that is worked on is the one that was there, or it is empty. -/
theorem Document.sectionAt?_withSection (h : d.root? = some root) (hf : ∀ x, (f x).name = x.name) :
    ∃ owner, (d.withSection path f).sectionAt? path = some (f owner) ∧
      (d.sectionAt? path = some owner ∨ d.sectionAt? path = none ∧ owner.children = []) := by
  obtain ⟨owner, -, hlocate, hdescend, hwas⟩ := root.at?_ensure (pathBelow root path)
  refine ⟨owner, ?_, ?_⟩
  · have hname : ((root.ensure (pathBelow root path)).element.modifyAt f
        (root.ensure (pathBelow root path)).position).name = root.name := by
      rw [Element.name_modifyAt hf, Element.name_ensure]
    rw [withSection_of_root h, sectionAt?, root?_withRoot _ _ (by rw [h]; rfl), Option.bind_some,
      pathBelow_congr hname, Element.descend_modifyAt hf hlocate, hdescend]
    rfl
  · rw [sectionAt?, h]
    exact hwas

theorem Document.elements_sectionAt? {owner : Element}
    (h : d.sectionAt? path = some owner ∨ d.sectionAt? path = none ∧ owner.children = []) :
    owner.elements = d.entriesAt path := by
  rw [entriesAt]
  rcases h with h | ⟨h, hempty⟩
  · rw [h]
    rfl
  · rw [h, Element.elements, hempty]
    rfl

/-- The root of a document with a section worked on. -/
theorem Document.root?_withSection (h : d.root? = some root) :
    (d.withSection path f).root? = some ((root.ensure (pathBelow root path)).element.modifyAt f
      (root.ensure (pathBelow root path)).position) := by
  rw [withSection_of_root h]
  exact root?_withRoot _ _ (by rw [h]; rfl)

/-- Work on a section keeps a document ordinary, if it does so with the section. -/
theorem Document.IsOrdinary.withSection {contents : Xml.Contents} (hd : d.IsOrdinary contents)
    (hpath : ∀ name ∈ path, isPlainName name) (hname : ∀ x, (f x).name = x.name)
    (hf : ∀ x : Element, x.toNode.ordinary → (f x).toNode.ordinary) :
    (d.withSection path f).IsOrdinary contents := by
  obtain ⟨root, hroot⟩ := hd.exists_root
  rw [withSection_of_root hroot]
  have hensured : (root.ensure (pathBelow root path)).element.toNode.ordinary := shape_ordinary.ensure
    (fun name hn => ordinary_tag_ofName (hpath name (mem_of_mem_pathBelow hn))) (hd.root hroot).1
  exact hd.withRoot hroot (shape_ordinary.modifyAt hf _ hensured)
    ((Element.name_modifyAt hname _ _).trans (Element.name_ensure _ _))

/-! Tags that need no more declarations than there are. -/

theorem Element.known_modifyAt
    (hf : ∀ (inner : Scope) (x : Element), (∀ b ∈ inner, Xml.Allowed b) → x.toNode.known inner →
      (f x).toNode.known inner)
    (position : Position) {origin : Scope} (horigin : ∀ b ∈ origin, Xml.Allowed b) {e : Element}
    (he : e.toNode.known origin) : (e.modifyAt f position).toNode.known origin := by
  induction position generalizing origin e with
  | nil => exact hf origin e horigin he
  | cons rank rest ih =>
    obtain ⟨⟨inner, htag, hchildren⟩, ha⟩ := he
    obtain ⟨htexts, hknown⟩ := @Shape.modifyElement (·.known inner) (Element.modifyAt f rest)
      (fun x hx => ih htag.allowed hx) rank e.children (knownAll_iff.mp hchildren)
    refine ⟨⟨inner, htag, knownAll_iff.mpr hknown⟩, ?_⟩
    rw [apart_iff_map] at ha ⊢
    exact htexts ▸ ha

theorem Document.knownAll_withRoot (hd : knownAll [] d.nodes) {new : Element}
    (hnew : new.toNode.known []) : knownAll [] (d.withRoot new).nodes := by
  refine knownAll_iff.mpr fun node hn => ?_
  rcases mem_setFirstElement hn with rfl | hn
  · exact hnew
  · exact knownAll_iff.mp hd node hn

theorem Document.known_root (hd : knownAll [] d.nodes) (h : d.root? = some root) :
    root.toNode.known [] := by
  obtain ⟨node, hn, he⟩ := List.mem_filterMap.mp (List.mem_of_mem_head? h)
  rw [Element.toNode_of_element? he]
  exact knownAll_iff.mp hd node hn

theorem Document.knownAll_withSection (hd : knownAll [] d.nodes) (hpath : ∀ name ∈ path, isPlainName name)
    (hf : ∀ (inner : Scope) (x : Element), (∀ b ∈ inner, Xml.Allowed b) → x.toNode.known inner →
      (f x).toNode.known inner) : knownAll [] (d.withSection path f).nodes := by
  cases h : d.root? with
  | none => rwa [withSection, h]
  | some root =>
    rw [withSection_of_root h]
    exact knownAll_withRoot hd (Element.known_modifyAt hf _ (by simp)
      (Element.known_ensure (known_root hd h) fun name hn => hpath name (mem_of_mem_pathBelow hn)))

end

/-! Sections of documents that are the same. -/

theorem Element.descend_of_same {x y : Element} (h : x.toNode.same y.toNode = true) (path : List String) :
    Option.Rel (fun a b : Element => a.toNode.same b.toNode = true) (x.descend path) (y.descend path) := by
  induction path generalizing x y with
  | nil => exact .some h
  | cons name rest ih =>
    have hchild := Element.child?_of_same h name
    rw [descend, descend]
    cases hx : x.child? name <;> cases hy : y.child? name <;> rw [hx, hy] at hchild <;> cases hchild
    · exact .none
    · next hab => exact ih hab

/-- Documents that are the same have nodes in the section at each path that are the same. -/
theorem Document.sameNodes_nodesAt {d d' : Document} (h : d'.same d = true) (path : List String) :
    sameNodes (d'.nodesAt path) (d.nodesAt path) = true := by
  have hroots := elements_of_sameNodes h
  rw [nodesAt, nodesAt, sectionAt?, sectionAt?, root?, root?]
  generalize elementsOf d'.nodes = roots' at hroots ⊢
  generalize elementsOf d.nodes = roots at hroots ⊢
  cases hroots with
  | nil => rfl
  | @cons a b _ _ hab =>
    have hsections := Element.descend_of_same hab (pathBelow b path)
    rw [List.head?_cons, List.head?_cons, Option.bind_some, Option.bind_some,
      pathBelow_congr (Element.name_of_same hab)]
    generalize a.descend (pathBelow b path) = x at hsections ⊢
    generalize b.descend (pathBelow b path) = y at hsections ⊢
    cases hsections with
    | none => rfl
    | some hcd => exact Element.sameNodes_of_same hcd

/-- The entries in these sections are the same one by one. -/
theorem Document.entriesAt_of_same {d d' : Document} (h : d'.same d = true) (path : List String) :
    List.Forall₂ (fun a b : Element => a.toNode.same b.toNode = true) (d'.entriesAt path)
      (d.entriesAt path) := by
  rw [← d'.elementsOf_nodesAt, ← d.elementsOf_nodesAt]
  exact elements_of_sameNodes (sameNodes_nodesAt h path)

/-- Work on the children of a section that was found or created. -/
theorem Document.setChildren_ensure {d : Document} {root owner : Element} (hroot : d.root? = some root)
    {path : List String}
    (howner : (root.ensure (pathBelow root path)).element.at? (root.ensure (pathBelow root path)).position =
      some owner) (f : Element → Element) (hf : ∀ e, f e = { e with children := (f e).children }) :
    (d.withRoot (root.ensure (pathBelow root path)).element).setChildren
        (root.ensure (pathBelow root path)).position (f owner).children = d.withSection path f := by
  rw [setChildren_of_root (root?_withRoot _ _ (by rw [hroot]; rfl)), withRoot_withRoot,
    withSection_of_root hroot, Element.setAt]
  exact congrArg d.withRoot (Element.modifyAt_congr howner (hf owner).symm)

/-! How deeply elements are nested. -/

namespace Element

theorem depth_toNode_le_iff {e : Element} {n : Nat} :
    e.toNode.depth ≤ n + 1 ↔ ∀ node ∈ e.children, node.depth ≤ n := by
  rw [toNode, Node.depth, Nat.add_le_add_iff_right, depthOf_le_iff]

/-- Work on an element makes the tree deeper only by what comes under it. -/
theorem depth_modifyAt_le {f : Element → Element} {k : Nat}
    (hf : ∀ (x : Element) (n : Nat), k ≤ n → x.toNode.depth ≤ n → (f x).toNode.depth ≤ n)
    (position : Position) {e : Element} {n : Nat} (hn : position.length + k ≤ n)
    (he : e.toNode.depth ≤ n) : (e.modifyAt f position).toNode.depth ≤ n := by
  induction position generalizing e n with
  | nil => exact hf e n (by simpa using hn) he
  | cons rank rest ih =>
    rw [List.length_cons] at hn
    obtain ⟨n, rfl⟩ : ∃ k, n = k + 1 := ⟨n - 1, by omega⟩
    rw [depth_toNode_le_iff] at he ⊢
    exact (@Shape.modifyElement (·.depth ≤ n) (modifyAt f rest) (fun x hx => ih (by omega) hx) rank
      e.children he).2

theorem depth_chain (name : String) (rest : List String) :
    (Element.chain name rest).toNode.depth = rest.length + 1 := by
  induction rest generalizing name with
  | nil => rfl
  | cons next rest ih =>
    rw [chain, ofName, toNode, Node.depth, depthOf, depthOf, ih, List.length_cons, Nat.max_zero]

theorem depth_appendElement_le {e child : Element} {n : Nat} (he : e.toNode.depth ≤ n + 1)
    (hchild : child.toNode.depth ≤ n) : (e.appendElement child).toNode.depth ≤ n + 1 := by
  rw [depth_toNode_le_iff] at he ⊢
  intro node hn
  rw [appendElement] at hn
  split at hn
  · rcases List.mem_append.mp hn with hn | hn
    · exact he node hn
    · rwa [List.mem_singleton.mp hn]
  · rcases mem_insertNodes hn with hn | hn
    · rcases List.mem_append.mp hn with hn | hn
      · rw [textNodes] at hn
        split at hn
        · cases hn
        · rw [List.mem_singleton.mp hn]
          exact Nat.zero_le n
      · rwa [List.mem_singleton.mp hn]
    · exact he node hn

/-- A section that is created makes the tree no deeper than its path is long. -/
theorem depth_ensure_le {e : Element} {path : List String} {n : Nat} (hn : path.length < n)
    (he : e.toNode.depth ≤ n) : (e.ensure path).element.toNode.depth ≤ n := by
  induction path generalizing e n with
  | nil => exact he
  | cons name rest ih =>
    rw [List.length_cons] at hn
    obtain ⟨n, rfl⟩ : ∃ k, n = k + 1 := ⟨n - 1, by omega⟩
    rw [ensure]
    cases hr : e.ranked? name with
    | none =>
      refine depth_appendElement_le he ?_
      rw [depth_chain]
      omega
    | some x =>
      obtain ⟨child, rank⟩ := x
      obtain ⟨-, -, hat, -⟩ := ranked?_eq_some hr
      obtain ⟨front, back, hchildren, -⟩ := exists_split_of_getElem? hat
      rw [depth_toNode_le_iff] at he ⊢
      have hchild := he child.toNode (by rw [hchildren]; simp)
      exact (@Shape.modifyElement (·.depth ≤ n) (fun _ => (child.ensure rest).element)
        (fun _ _ => ih (by omega) hchild) rank e.children he).2

theorem length_position_ensure (e : Element) (path : List String) :
    (e.ensure path).position.length = path.length := by
  induction path generalizing e with
  | nil => rfl
  | cons name rest ih =>
    rw [ensure]
    cases e.ranked? name with
    | none => simp
    | some x => simp [ih]

end Element

theorem length_pathBelow_le (root : Element) (path : List String) :
    (pathBelow root path).length ≤ path.length := by
  cases path with
  | nil => exact Nat.le_refl _
  | cons name rest =>
    rw [pathBelow]
    split
    · exact Nat.le_succ _
    · exact Nat.le_refl _

/-- Work on a section makes a document no deeper than the path is long, and what comes under it. -/
theorem Document.depthOf_withSection_le {f : Element → Element} {k : Nat}
    (hf : ∀ (x : Element) (n : Nat), k ≤ n → x.toNode.depth ≤ n → (f x).toNode.depth ≤ n)
    {d : Document} {path : List String} {n : Nat} (hn : path.length + k ≤ n) (hk : 0 < k)
    (hd : depthOf d.nodes ≤ n) : depthOf (d.withSection path f).nodes ≤ n := by
  cases h : d.root? with
  | none => rwa [withSection, h]
  | some root =>
    have hroot : root.toNode.depth ≤ n := by
      obtain ⟨node, hn, he⟩ := List.mem_filterMap.mp (List.mem_of_mem_head? h)
      rw [Element.toNode_of_element? he]
      exact depthOf_le_iff.mp hd node hn
    have hlength := length_pathBelow_le root path
    rw [withSection_of_root h, depthOf_le_iff]
    intro node hnode
    rcases mem_setFirstElement hnode with rfl | hnode
    · refine Element.depth_modifyAt_le hf _ ?_ (Element.depth_ensure_le (by omega) hroot)
      rw [Element.length_position_ensure]
      omega
    · exact depthOf_le_iff.mp hd node hnode

mutual

theorem Node.depth_collapse (node : Node) : node.collapse.depth = node.depth := by
  cases node with
  | element tag children =>
    rw [collapse_element, Node.depth, Node.depth]
    rcases collapsedChildren_cases children with ⟨-, hsame⟩ | ⟨value, -, rfl, hleaf⟩
    · rw [hsame, depthOf_map_collapse children]
    · rw [hleaf]
      rfl
  | _ => rfl

theorem depthOf_map_collapse (nodes : List Node) :
    depthOf (nodes.map Node.collapse) = depthOf nodes := by
  cases nodes with
  | nil => rfl
  | cons node rest =>
    rw [List.map_cons, depthOf, depthOf, Node.depth_collapse node, depthOf_map_collapse rest]

end

/-- Settled leaves are as deep as they were. -/
theorem Maintainer.depthOf_settledDocument_le (m : Maintainer) {d : Document} {n : Nat}
    (hd : depthOf d.nodes ≤ n) : depthOf (m.settledDocument d).nodes ≤ n := by
  cases h : d.root? with
  | none => rwa [settledDocument, h]
  | some root =>
    rw [m.settledDocument_of_root h, depthOf_le_iff] at *
    intro node hnode
    rcases Document.mem_setFirstElement hnode with rfl | hnode
    · obtain ⟨x, hn, he⟩ := List.mem_filterMap.mp (List.mem_of_mem_head? h)
      have hroot := hd x hn
      rw [← Element.toNode_of_element? he] at hroot
      rw [toNode_settled, settledNode]
      split
      · rwa [Node.depth_collapse]
      · exact hroot
    · exact hd node hnode

/-! Sections that stay as they are. -/

/-- Where a section is. -/
theorem Document.locate_of_sectionAt? {d : Document} {path : List String} {owner : Element}
    (h : d.sectionAt? path = some owner) :
    ∃ root position, d.root? = some root ∧ root.locate (pathBelow root path) = some position ∧
      root.at? position = some owner := by
  obtain ⟨root, hroot, hdescend⟩ := Option.bind_eq_some_iff.mp h
  obtain ⟨-, hlocate⟩ := Element.element_ensure_of_descend hdescend
  exact ⟨root, _, hroot, hlocate, (Element.at?_of_locate hlocate).trans hdescend⟩

/-- Work on a section that changes nothing in it changes nothing. -/
theorem Document.withSection_eq_self {d : Document} {path : List String} {f : Element → Element}
    {owner : Element} (hsection : d.sectionAt? path = some owner) (hf : f owner = owner) :
    d.withSection path f = d := by
  obtain ⟨root, position, hroot, hlocate, hat⟩ := locate_of_sectionAt? hsection
  rw [withSection_of_locate hroot hlocate, Element.modifyAt_self hat hf, withRoot_self hroot]

end Manifest
