import Manifest.Proofs.Document.Changed
import Manifest.Proofs.Xml.Settled

/-! What is done to a document that was read. Its tags need no more declarations than there are when a
section is created in it and when its leaves are put on one line. -/

set_option autoImplicit false

namespace Manifest

open Xml (Scope)

/-! Leaves on one line. -/

mutual

theorem Node.known_collapse {origin : Scope} (node : Node) (h : node.known origin) :
    node.collapse.known origin := by
  cases node with
  | element tag children =>
    obtain ⟨⟨inner, htag, hchildren⟩, ha⟩ := h
    rw [collapse_element]
    rcases collapsedChildren_cases children with ⟨-, hsame⟩ | ⟨value, hwrapped, -, hleaf⟩
    · rw [hsame]
      refine ⟨⟨inner, htag, knownAll_map_collapse children hchildren⟩, ?_⟩
      rw [apart_iff_map, List.map_map]
      have htext : Node.isText ∘ Node.collapse = Node.isText := by
        funext node
        exact node.isText_collapse
      rw [htext]
      exact apart_iff_map.mp ha
    · rw [hleaf]
      exact ⟨⟨inner, htag, hwrapped.1, trivial⟩, List.isChain_singleton _⟩
  | _ => exact h

theorem knownAll_map_collapse {origin : Scope} (nodes : List Node) (h : knownAll origin nodes) :
    knownAll origin (nodes.map Node.collapse) := by
  cases nodes with
  | nil => trivial
  | cons node rest => exact ⟨node.known_collapse h.1, knownAll_map_collapse rest h.2⟩

end

/-! Sections that are created. -/

/-- An element with nothing but a name and children can stand anywhere. -/
theorem known_ofName {origin : Scope} (horigin : ∀ b ∈ origin, Xml.Allowed b) {name : String}
    (hname : isPlainName name) {children : List Node} (hc : knownAll origin children)
    (ha : apart children) : (Element.ofName name children).toNode.known origin :=
  ⟨⟨origin, ⟨⟨hname, .nil, nofun, nofun, .nil, nofun⟩, horigin, Scope.Agrees.refl _, nofun,
    fun _ _ => nofun⟩, hc⟩, ha⟩

theorem known_chain {origin : Scope} (horigin : ∀ b ∈ origin, Xml.Allowed b) {name : String}
    {rest : List String} (hnames : ∀ x ∈ name :: rest, isPlainName x) :
    (Element.chain name rest).toNode.known origin := by
  induction rest generalizing name with
  | nil => exact known_ofName horigin (hnames name (by simp)) trivial .nil
  | cons next rest ih =>
    exact known_ofName horigin (hnames name (by simp))
      ⟨ih fun x hx => hnames x (List.mem_cons_of_mem _ hx), trivial⟩ (List.isChain_singleton _)

theorem Element.known_appendElement {origin : Scope} {e child : Element}
    (h : e.toNode.known origin)
    (hchild : ∀ inner : Scope, (∀ b ∈ inner, Xml.Allowed b) → child.toNode.known inner) :
    (e.appendElement child).toNode.known origin := by
  obtain ⟨⟨inner, htag, hchildren⟩, ha⟩ := h
  obtain ⟨front, tail, heq, hafter, -, hlast⟩ := exists_eq_append_afterElements e.children
  have hknown := hchild inner htag.allowed
  have hspace : knownAll inner (textNodes e.childIndent) ∧ apart (textNodes e.childIndent) := by
    rw [textNodes]
    split
    · exact ⟨trivial, .nil⟩
    · next hne => exact ⟨⟨fun he => hne (by rw [he]; rfl), trivial⟩, List.isChain_singleton _⟩
  rw [appendElement, hafter]
  rw [heq] at ha hchildren
  obtain ⟨hfront, htail⟩ := knownAll_append.mp hchildren
  split
  · next hnone =>
    have hnil : front = [] := List.length_eq_zero_iff.mp hnone
    rw [heq]
    refine ⟨⟨inner, htag, knownAll_append.mpr ⟨hchildren, hknown, trivial⟩⟩, ?_⟩
    have hend := @apart_insert (front ++ tail) [] child.toNode rfl (by rwa [List.append_nil])
    exact hend
  · next index hindex =>
    have hlength : index + 1 = front.length := hindex.symm
    rw [hlength, insertNodes, heq, List.take_left, List.drop_left, List.append_assoc,
      List.singleton_append]
    refine ⟨⟨inner, htag, knownAll_append.mpr ⟨hfront, knownAll_append.mpr
      ⟨hspace.1, hknown, htail⟩⟩⟩, apart_behind (fun x hx => ?_) hspace.2 rfl ha⟩
    have helement := hlast x hx
    cases x <;> first | rfl | cases helement

/-- The tags of an element need no more declarations when a section is created in it. -/
theorem Element.known_ensure {origin : Scope} {e : Element} (h : e.toNode.known origin)
    {path : List String} (hpath : ∀ name ∈ path, isPlainName name) :
    (e.ensure path).element.toNode.known origin := by
  induction path generalizing e origin with
  | nil => exact h
  | cons name rest ih =>
    rw [ensure]
    cases hr : e.ranked? name with
    | none => exact known_appendElement h fun inner hinner => known_chain hinner hpath
    | some x =>
      obtain ⟨child, rank⟩ := x
      obtain ⟨-, -, hat, -⟩ := ranked?_eq_some hr
      obtain ⟨front, back, hchildren, hrank⟩ := exists_split_of_getElem? hat
      obtain ⟨⟨inner, htag, hall⟩, ha⟩ := h
      rw [hchildren] at ha hall
      obtain ⟨hfront, hchild, hback⟩ := knownAll_append.mp hall
      dsimp only
      rw [hchildren, modifyElement_append _ hrank]
      refine ⟨⟨inner, htag, knownAll_append.mpr ⟨hfront,
        ih hchild fun x hx => hpath x (List.mem_cons_of_mem _ hx), hback⟩⟩, ?_⟩
      rw [apart_iff_map, List.map_append, List.map_cons] at ha ⊢
      exact ha

end Manifest
