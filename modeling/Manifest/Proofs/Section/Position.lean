import Manifest.Document.Merge

/-! Changes at a position of a tree, and what is found at that position afterwards. What is on the way to
the position, and beside it, stays. -/

set_option autoImplicit false

namespace Manifest

@[simp] theorem name_setChildren (e : Element) (children : List Node) :
    ({ e with children := children } : Element).name = e.name := rfl

theorem elementsOf_modifyElement (f : Element → Element) (rank : Nat) (nodes : List Node) :
    elementsOf (modifyElement f rank nodes) = (elementsOf nodes).modify rank f := by
  induction nodes generalizing rank with
  | nil => cases rank <;> rfl
  | cons node rest ih =>
    cases node with
    | element tag children =>
      cases rank with
      | zero => rfl
      | succ rank =>
        rw [modifyElement, elementsOf_element_cons, ih, elementsOf_element_cons,
          List.modify_succ_cons]
    | text _ | comment _ | instruction _ _ => cases rank <;> simp [modifyElement, ih]

/-- The nodes before and behind the element of a given rank. -/
theorem exists_split_of_getElem? {nodes : List Node} {rank : Nat} {e : Element}
    (h : (elementsOf nodes)[rank]? = some e) :
    ∃ front back, nodes = front ++ e.toNode :: back ∧ (elementsOf front).length = rank := by
  induction nodes generalizing rank with
  | nil => simp at h
  | cons node rest ih =>
    have hskip : ∀ {node : Node}, elementsOf (node :: rest) = elementsOf rest →
        elementsOf [node] = [] → (elementsOf (node :: rest))[rank]? = some e →
          ∃ front back, node :: rest = front ++ e.toNode :: back ∧
            (elementsOf front).length = rank := by
      intro node hsame hnone h
      rw [hsame] at h
      obtain ⟨front, back, rfl, hrank⟩ := ih h
      refine ⟨node :: front, back, rfl, ?_⟩
      rw [← List.singleton_append, elementsOf_append, hnone]
      exact hrank
    cases node with
    | element tag children =>
      cases rank with
      | zero =>
        rw [elementsOf_element_cons, List.getElem?_cons_zero, Option.some.injEq] at h
        exact ⟨[], rest, by rw [← h]; rfl, rfl⟩
      | succ rank =>
        rw [elementsOf_element_cons, List.getElem?_cons_succ] at h
        obtain ⟨front, back, rfl, hrank⟩ := ih h
        exact ⟨.element tag children :: front, back, rfl, by simp [hrank]⟩
    | _ => exact hskip rfl rfl h

theorem modifyElement_append (f : Element → Element) {front back : List Node} {e : Element}
    {rank : Nat} (h : (elementsOf front).length = rank) :
    modifyElement f rank (front ++ e.toNode :: back) = front ++ (f e).toNode :: back := by
  induction front generalizing rank with
  | nil =>
    cases h
    rfl
  | cons node front ih =>
    cases node with
    | element tag children =>
      rw [elementsOf_element_cons, List.length_cons] at h
      cases rank with
      | zero => omega
      | succ rank =>
        rw [List.cons_append, modifyElement, ih (by omega)]
        rfl
    | text _ | comment _ | instruction _ _ =>
      have hrest := ih (by simpa using h)
      cases rank <;> rw [List.cons_append, modifyElement, hrest, List.cons_append] <;> simp

theorem modifyElement_modifyElement (f g : Element → Element) (rank : Nat) (nodes : List Node) :
    modifyElement f rank (modifyElement g rank nodes) = modifyElement (fun e => f (g e)) rank nodes := by
  induction nodes generalizing rank with
  | nil => cases rank <;> rfl
  | cons node rest ih =>
    cases node with
    | element tag children =>
      cases rank with
      | zero => rfl
      | succ rank => exact congrArg (List.cons _) (ih rank)
    | text _ | comment _ | instruction _ _ => cases rank <;> exact congrArg (List.cons _) (ih _)

namespace Element

theorem at?_modifyAt (f : Element → Element) (position : Position) (e : Element) :
    (e.modifyAt f position).at? position = (e.at? position).map f := by
  induction position generalizing e with
  | nil => rfl
  | cons rank rest ih =>
    simp only [modifyAt, at?, elements, elementsOf_modifyElement, List.getElem?_modify, if_true]
    cases (elementsOf e.children)[rank]? with
    | none => rfl
    | some child => simp [ih]

/-- Only what a change makes of the element at the position counts. -/
theorem modifyAt_congr {f g : Element → Element} {e x : Element} {position : Position}
    (hx : e.at? position = some x) (hfg : f x = g x) :
    e.modifyAt f position = e.modifyAt g position := by
  induction position generalizing e with
  | nil =>
    cases hx
    exact hfg
  | cons rank rest ih =>
    rw [at?, Option.bind_eq_some_iff] at hx
    obtain ⟨child, hchild, hx⟩ := hx
    have hchildren : ∀ (nodes : List Node) (rank : Nat), (elementsOf nodes)[rank]? = some child →
        modifyElement (modifyAt f rest) rank nodes =
          modifyElement (modifyAt g rest) rank nodes := by
      intro nodes
      induction nodes with
      | nil => intro rank _; rfl
      | cons node nodes ihn =>
        intro rank h
        cases node with
        | element tag children =>
          cases rank with
          | zero =>
            cases h
            rw [modifyElement, modifyElement, ih hx]
          | succ rank => rw [modifyElement, modifyElement, ihn rank h]
        | text _ | comment _ | instruction _ _ =>
          cases rank <;> simp only [modifyElement] <;> rw [ihn _ h]
    rw [modifyAt, modifyAt, hchildren _ _ hchild]

/-- An element with other children at a position. -/
def setAt (position : Position) (children : List Node) (e : Element) : Element :=
  e.modifyAt (fun x => { x with children := children }) position

theorem setAt_cons {front back : List Node} {rank : Nat}
    (h : (elementsOf front).length = rank) (tag : Tag) (c : Element) (rest : Position)
    (children : List Node) :
    Element.setAt (rank :: rest) children ⟨tag, front ++ c.toNode :: back⟩ =
      ⟨tag, front ++ (c.setAt rest children).toNode :: back⟩ := by
  rw [Element.setAt, Element.modifyAt, modifyElement_append _ h]
  rfl

theorem setAt_eq (rank : Nat) (rest : Position) (children : List Node) (e : Element) :
    e.setAt (rank :: rest) children =
      { e with children := modifyElement (Element.setAt rest children) rank e.children } := rfl

theorem setAt_setAt (position : Position) (a b : List Node) (e : Element) :
    (e.setAt position a).setAt position b = e.setAt position b := by
  induction position generalizing e with
  | nil => rfl
  | cons rank rest ih =>
    have hrest : (fun e : Element => (e.setAt rest a).setAt rest b) = Element.setAt rest b := funext ih
    rw [setAt_eq, setAt_eq, setAt_eq, modifyElement_modifyElement, hrest]

/-- The way to an element begins with the way to the child it is in. -/
theorem at?_cons {e x : Element} {rank : Nat} {rest : Position}
    (h : e.at? (rank :: rest) = some x) :
    ∃ (front : List Node) (c : Element) (back : List Node), e = ⟨e.tag, front ++ c.toNode :: back⟩ ∧
        (elementsOf front).length = rank ∧
        c.at? rest = some x := by
  rw [at?, Option.bind_eq_some_iff] at h
  obtain ⟨c, hc, hx⟩ := h
  obtain ⟨front, back, hchildren, hrank⟩ := exists_split_of_getElem? hc
  exact ⟨front, c, back, by rw [← hchildren], hrank, hx⟩

theorem modifyAt_self {f : Element → Element} {e x : Element} {position : Position}
    (hat : e.at? position = some x) (hf : f x = x) : e.modifyAt f position = e := by
  induction position generalizing e with
  | nil =>
    cases hat
    exact hf
  | cons rank rest ih =>
    obtain ⟨front, c, back, heq, hrank, hx⟩ := at?_cons hat
    rw [heq, modifyAt, modifyElement_append _ hrank, ih hx]

theorem setAt_self {position : Position} {e x : Element} (h : e.at? position = some x) :
    e.setAt position x.children = e :=
  modifyAt_self h rfl

theorem at?_append (position rest : Position) (e : Element) :
    e.at? (position ++ rest) = (e.at? position).bind (·.at? rest) := by
  induction position generalizing e with
  | nil => rfl
  | cons rank position ih =>
    rw [List.cons_append, at?, at?]
    cases e.elements[rank]? with
    | none => rfl
    | some child => exact ih child

theorem setAt_append (position rest : Position) (children : List Node) (e : Element) :
    e.setAt (position ++ rest) children = e.modifyAt (Element.setAt rest children) position := by
  induction position generalizing e with
  | nil => rfl
  | cons rank position ih =>
    rw [List.cons_append, setAt_eq, modifyAt]
    congr 2
    exact funext ih

theorem at?_setAt_append (position rest : Position) (children : List Node) (e : Element) :
    (e.setAt (position ++ rest) children).at? position =
      (e.at? position).map (Element.setAt rest children) := by
  induction position generalizing e with
  | nil => rfl
  | cons rank position ih =>
    rw [List.cons_append, setAt_eq]
    simp only [at?, elements, elementsOf_modifyElement, List.getElem?_modify, if_true]
    cases (elementsOf e.children)[rank]? with
    | none => rfl
    | some child => simpa using ih child

end Element

namespace Document

theorem at?_eq_some {d : Document} {position : Position} {e : Element}
    (h : d.at? position = some e) : ∃ root, d.root? = some root ∧ root.at? position = some e :=
  Option.bind_eq_some_iff.mp h

theorem setFirstElement_self {nodes : List Node} {e : Element}
    (h : (elementsOf nodes).head? = some e) : setFirstElement e nodes = nodes := by
  induction nodes with
  | nil => rfl
  | cons node rest ih =>
    cases node with
    | element tag children =>
      cases h
      rfl
    | text _ | comment _ | instruction _ _ =>
      simp only [elementsOf_text_cons, elementsOf_comment_cons, elementsOf_instruction_cons] at h
      simp [setFirstElement, ih h]

theorem withRoot_self {d : Document} {root : Element} (h : d.root? = some root) :
    d.withRoot root = d := by
  rw [withRoot, setFirstElement_self h]

theorem setFirstElement_setFirstElement (e f : Element) (nodes : List Node) :
    setFirstElement f (setFirstElement e nodes) = setFirstElement f nodes := by
  induction nodes with
  | nil => rfl
  | cons node rest ih => cases node <;> simp [setFirstElement, Element.toNode, ih]

theorem withRoot_withRoot (d : Document) (e f : Element) :
    (d.withRoot e).withRoot f = d.withRoot f := by
  rw [withRoot, withRoot, withRoot]
  simp only [setFirstElement_setFirstElement]

theorem setFirstElement_append {front : List Node} (hfront : elementsOf front = [])
    (e new : Element) (back : List Node) :
    setFirstElement new (front ++ e.toNode :: back) = front ++ new.toNode :: back := by
  induction front with
  | nil => rfl
  | cons node front ih =>
    cases node with
    | element tag children => cases hfront
    | _ => exact congrArg (List.cons _) (ih hfront)

theorem at?_withRoot {d : Document} (h : d.root?.isSome = true) (root : Element)
    (position : Position) : (d.withRoot root).at? position = root.at? position := by
  rw [at?, root?_withRoot d root h, Option.bind_some]

theorem setChildren_of_root {d : Document} {root : Element} (h : d.root? = some root)
    (position : Position) (children : List Node) :
    d.setChildren position children = d.withRoot (root.setAt position children) := by
  rw [setChildren, modifyAt, h]
  rfl

theorem name_setAt (position : Position) (children : List Node) (e : Element) :
    (e.setAt position children).name = e.name := by
  cases position <;> rfl

/-- What is put at a position is found there. -/
theorem at?_modifyAt {d : Document} {position : Position} {e : Element} (f : Element → Element)
    (h : d.at? position = some e) : (d.modifyAt f position).at? position = some (f e) := by
  obtain ⟨root, hroot, he⟩ := at?_eq_some h
  rw [modifyAt, hroot]
  simp only
  rw [at?_withRoot (by simp [hroot]), Element.at?_modifyAt, he, Option.map_some]

theorem at?_setChildren {d : Document} {position : Position} {e : Element}
    (children : List Node) (h : d.at? position = some e) :
    (d.setChildren position children).at? position = some { e with children := children } :=
  at?_modifyAt (fun e => { e with children := children }) h

theorem at?_append {d : Document} {position : Position} {e : Element} (h : d.at? position = some e)
    (rest : Position) : d.at? (position ++ rest) = e.at? rest := by
  obtain ⟨root, hroot, hat⟩ := at?_eq_some h
  rw [at?, hroot, Option.bind_some, Element.at?_append, hat, Option.bind_some]

theorem modifyAt_const {d : Document} {position : Position} {e : Element} (h : d.at? position = some e) :
    d.modifyAt (fun _ => e) position = d := by
  obtain ⟨root, hroot, hat⟩ := at?_eq_some h
  rw [modifyAt, hroot]
  dsimp only
  rw [Element.modifyAt_self hat rfl, withRoot_self hroot]

theorem modifyAt_setAt {d : Document} {position : Position} {e : Element} (h : d.at? position = some e)
    (rest : Position) (children : List Node) :
    d.modifyAt (fun _ => e.setAt rest children) position = d.setChildren (position ++ rest) children := by
  obtain ⟨root, hroot, hat⟩ := at?_eq_some h
  rw [setChildren_of_root hroot, modifyAt, hroot, Element.setAt_append]
  exact congrArg d.withRoot (Element.modifyAt_congr hat rfl)

theorem setChildren_setChildren (d : Document) (position : Position) (a b : List Node) :
    (d.setChildren position a).setChildren position b = d.setChildren position b := by
  cases hroot : d.root? with
  | none =>
    have hnone : ∀ children, d.setChildren position children = d := by
      intro children
      rw [setChildren, modifyAt, hroot]
    rw [hnone a]
  | some root =>
    have hroot' := root?_withRoot d (root.setAt position a) (by rw [hroot]; rfl)
    rw [setChildren_of_root hroot position a, setChildren_of_root hroot', setChildren_of_root hroot,
      withRoot_withRoot, Element.setAt_setAt]

theorem setChildren_self {d : Document} {position : Position} {e : Element}
    (h : d.at? position = some e) : d.setChildren position e.children = d := by
  obtain ⟨root, hroot, he⟩ := at?_eq_some h
  rw [setChildren_of_root hroot, Element.setAt_self he, withRoot_self hroot]

theorem at?_setChildren_append {d : Document} {position : Position} {e : Element}
    (h : d.at? position = some e) (rest : Position) (children : List Node) :
    (d.setChildren (position ++ rest) children).at? position = some (e.setAt rest children) := by
  obtain ⟨root, hroot, he⟩ := at?_eq_some h
  rw [setChildren_of_root hroot, at?_withRoot (by rw [hroot]; rfl), Element.at?_setAt_append, he,
    Option.map_some]

/-- Work on a section reports what it does to the children of the owner, and puts them in place. -/
theorem onSection_eq_ok {α : Type} {d d' : Document} {position : Position} {work : Element → α}
    {children : α → List Node} {result : α}
    (h : d.onSection (some position) work children = .ok (d', result)) :
    ∃ owner, d.at? position = some owner ∧ result = work owner ∧
      d' = d.setChildren position (children result) := by
  rw [onSection] at h
  cases ho : d.at? position with
  | none =>
    rw [ho] at h
    cases h
  | some owner =>
    rw [ho] at h
    cases h
    exact ⟨owner, rfl, rfl, rfl⟩

theorem onSection_of_at? {α : Type} {d : Document} {position : Position} {owner : Element}
    (work : Element → α) (children : α → List Node) (h : d.at? position = some owner) :
    d.onSection (some position) work children =
      .ok (d.setChildren position (children (work owner)), work owner) := by
  rw [onSection, h]

end Document

end Manifest
