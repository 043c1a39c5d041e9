import Manifest.Proofs.Merge.Block
import Manifest.Proofs.Section.Position
import Mathlib.Data.List.Forall2

/-! Sections by their paths. `Element.descend` follows the names of a path; `locate` gives the position
of what it finds, and `ensure` makes it find something. What is done at the end of a path is not seen
at the end of a path that parts from it. -/

set_option autoImplicit false

namespace Manifest

/-- Whether two paths part: they go on with different names after a common beginning. -/
def parts : List String → List String → Bool
  | name :: rest, name' :: rest' => name != name' || parts rest rest'
  | _, _ => false

@[simp] theorem parts_nil (q : List String) : parts [] q = false := rfl

@[simp] theorem parts_cons_nil (name : String) (rest : List String) : parts (name :: rest) [] = false := rfl

theorem parts_cons_cons (name name' : String) (rest rest' : List String) :
    parts (name :: rest) (name' :: rest') = (name != name' || parts rest rest') := rfl

theorem parts_comm (p q : List String) : parts p q = parts q p := by
  induction p generalizing q with
  | nil => cases q <;> rfl
  | cons name rest ih =>
    cases q with
    | nil => rfl
    | cons name' rest' =>
      rw [parts_cons_cons, parts_cons_cons, ih]
      congr 1
      simp [bne, BEq.comm]

theorem pathBelow_congr {a b : Element} (h : a.name = b.name) (path : List String) :
    pathBelow a path = pathBelow b path := by
  cases path with
  | nil => rfl
  | cons name rest => rw [pathBelow, pathBelow, h]

/-! Lists of elements. -/

section
variable {α : Type} {p : α → Bool}

theorem find?_zipIdx (xs : List α) (start : Nat) :
    (xs.zipIdx start).find? (fun x => p x.1) =
      (xs.find? p).map fun x => (x, start + xs.findIdx p) := by
  induction xs generalizing start with
  | nil => rfl
  | cons x xs ih =>
    rw [List.zipIdx_cons, List.find?_cons, List.find?_cons, List.findIdx_cons]
    cases hx : p x with
    | true => simp
    | false =>
      simp only [ih, cond_false]
      congr 1
      funext y
      rw [Nat.add_assoc, Nat.add_comm 1]

theorem find?_modify {g : α → α} (xs : List α) (rank : Nat)
    (hg : ∀ x ∈ xs[rank]?, p (g x) = p x) :
    (xs.modify rank g).find? p =
      if xs.findIdx p = rank then (xs.find? p).map g else xs.find? p := by
  induction xs generalizing rank with
  | nil => simp only [List.modify_nil, List.find?_nil, Option.map_none, ite_self]
  | cons x xs ih =>
    cases rank with
    | zero =>
      have hx : p (g x) = p x := hg x rfl
      rw [List.modify_zero_cons, List.find?_cons, List.find?_cons, List.findIdx_cons, hx]
      cases p x <;> simp
    | succ rank =>
      have ih := ih rank fun y hy => hg y hy
      rw [List.modify_succ_cons, List.find?_cons, List.find?_cons, List.findIdx_cons, ih]
      cases p x <;> simp

theorem getElem?_findIdx_of_find? {xs : List α} {x : α} (h : xs.find? p = some x) :
    xs[xs.findIdx p]? = some x := by
  rw [← List.find?_eq_getElem?_findIdx, h]

end

theorem modifyElement_const {nodes : List Node} {rank : Nat} {e : Element}
    (h : (elementsOf nodes)[rank]? = some e) : modifyElement (fun _ => e) rank nodes = nodes := by
  induction nodes generalizing rank with
  | nil => simp at h
  | cons node rest ih =>
    cases node with
    | element tag children =>
      cases rank with
      | zero =>
        simp only [elementsOf_element_cons, List.getElem?_cons_zero, Option.some.injEq] at h
        rw [modifyElement, ← h]
        rfl
      | succ rank =>
        rw [elementsOf_element_cons, List.getElem?_cons_succ] at h
        rw [modifyElement, ih h]
    | text _ | comment _ | instruction _ _ =>
      simp only [elementsOf_text_cons, elementsOf_comment_cons, elementsOf_instruction_cons] at h
      cases rank <;> simp [modifyElement, ih h]

namespace Element

/-- What a path of names leads to, the first child of each name. -/
def descend (e : Element) : List String → Option Element
  | [] => some e
  | name :: rest => (e.child? name).bind fun child => child.descend rest

theorem ranked?_eq (e : Element) (name : String) :
    e.ranked? name =
      (e.child? name).map fun child => (child, e.elements.findIdx (·.name == name)) := by
  rw [ranked?, child?, childOf?]
  have h := @find?_zipIdx Element (fun child => child.name == name) e.elements 0
  rw [Nat.zero_add] at h
  exact h

/-- A child found by its name, and its rank. -/
theorem ranked?_eq_some {e child : Element} {name : String} {rank : Nat}
    (h : e.ranked? name = some (child, rank)) :
    e.child? name = some child ∧ rank = e.elements.findIdx (·.name == name) ∧
      e.elements[rank]? = some child ∧ child.name = name := by
  rw [ranked?_eq] at h
  obtain ⟨c, hc, hpair⟩ := Option.map_eq_some_iff.mp h
  cases hpair
  refine ⟨hc, rfl, getElem?_findIdx_of_find? hc, ?_⟩
  simpa using List.find?_some hc

theorem ranked?_eq_none_iff {e : Element} {name : String} :
    e.ranked? name = none ↔ e.child? name = none := by
  rw [ranked?_eq, Option.map_eq_none_iff]

theorem eq_nil_of_locate {e : Element} {path : List String} (h : e.locate path = some []) :
    path = [] := by
  cases path with
  | nil => rfl
  | cons name rest =>
    rw [locate] at h
    split at h
    · cases h
    · simp at h

/-- The way to a section begins with the way to the first child of a name. -/
theorem exists_of_locate_cons {e : Element} {path : List String} {rank : Nat} {position : Position}
    (h : e.locate path = some (rank :: position)) :
    ∃ name rest child, path = name :: rest ∧ e.ranked? name = some (child, rank) ∧
      child.locate rest = some position := by
  cases path with
  | nil => cases h
  | cons name rest =>
    rw [locate] at h
    split at h
    · cases h
    · next child rank' hranked =>
      obtain ⟨position', hlocate, heq⟩ := Option.map_eq_some_iff.mp h
      cases heq
      exact ⟨name, rest, child, rfl, hranked, hlocate⟩

/-- `locate` finds what `descend` leads to. -/
theorem locate_spec (e : Element) (path : List String) :
    match e.locate path with
    | some position => e.at? position = e.descend path ∧ (e.descend path).isSome = true
    | none => e.descend path = none := by
  induction path generalizing e with
  | nil => exact ⟨rfl, rfl⟩
  | cons name rest ih =>
    rw [locate, descend]
    cases hr : e.ranked? name with
    | none =>
      simp only
      rw [ranked?_eq_none_iff.mp hr, Option.bind_none]
    | some x =>
      obtain ⟨child, rank⟩ := x
      obtain ⟨hchild, -, hat, -⟩ := ranked?_eq_some hr
      have ih := ih child
      rw [hchild, Option.bind_some]
      simp only
      cases hl : child.locate rest with
      | none =>
        rw [hl] at ih
        exact ih
      | some position =>
        rw [hl] at ih
        simp only [Option.map_some, at?]
        rw [hat, Option.bind_some]
        exact ih

theorem at?_of_locate {e : Element} {path : List String} {position : Position}
    (h : e.locate path = some position) : e.at? position = e.descend path := by
  have hs := e.locate_spec path
  rw [h] at hs
  exact hs.1

theorem locate_eq_none_iff {e : Element} {path : List String} :
    e.locate path = none ↔ e.descend path = none := by
  have hs := e.locate_spec path
  constructor
  · intro h
    rw [h] at hs
    exact hs
  · intro h
    cases hl : e.locate path with
    | none => rfl
    | some position =>
      rw [hl] at hs
      rw [h] at hs
      exact absurd hs.2 (by simp)

theorem name_modifyAt {f : Element → Element} (hf : ∀ x, (f x).name = x.name)
    (position : Position) (e : Element) : (e.modifyAt f position).name = e.name := by
  cases position with
  | nil => exact hf e
  | cons rank rest => rfl

theorem child?_modifyElement {f : Element → Element} (e : Element) (rank : Nat)
    (name : String) (hf : ∀ x ∈ e.elements[rank]?, (f x).name = x.name) :
    ({ e with children := modifyElement f rank e.children } : Element).child? name =
      if e.elements.findIdx (·.name == name) = rank then (e.child? name).map f
      else e.child? name := by
  rw [child?, childOf?, elementsOf_modifyElement]
  exact find?_modify (elementsOf e.children) rank fun x hx => by rw [hf x hx]

/-- A child of another name is not the one of a given rank. -/
theorem findIdx_ne_of_ranked? {e child : Element} {name name' : String} {rank : Nat}
    (h : e.ranked? name = some (child, rank)) (hne : name' ≠ name) {other : Element}
    (hother : e.child? name' = some other) : e.elements.findIdx (·.name == name') ≠ rank := by
  intro heq
  obtain ⟨-, -, hat, hname⟩ := ranked?_eq_some h
  have hat' : e.elements[e.elements.findIdx (·.name == name')]? = some other :=
    getElem?_findIdx_of_find? hother
  rw [heq, hat] at hat'
  cases hat'
  apply Ne.symm hne
  rw [← hname]
  simpa using List.find?_some hother

/-- A change at the end of a path is found there. -/
theorem descend_modifyAt {f : Element → Element} (hf : ∀ x, (f x).name = x.name) {e : Element}
    {path : List String} {position : Position} (h : e.locate path = some position) :
    (e.modifyAt f position).descend path = (e.descend path).map f := by
  induction path generalizing e position with
  | nil =>
    cases h
    rfl
  | cons name rest ih =>
    rw [locate] at h
    cases hr : e.ranked? name with
    | none => simp [hr] at h
    | some x =>
      obtain ⟨child, rank⟩ := x
      rw [hr] at h
      obtain ⟨position, hl, rfl⟩ := Option.map_eq_some_iff.mp h
      obtain ⟨hchild, hrank, -, -⟩ := ranked?_eq_some hr
      rw [modifyAt, descend, descend, child?_modifyElement e rank name
        (fun x _ => name_modifyAt hf position x), if_pos hrank.symm, hchild]
      simpa using ih hl

/-- A change at the end of a path is not seen where another path parts from it. -/
theorem descend_modifyAt_of_parts {f : Element → Element} (hf : ∀ x, (f x).name = x.name)
    {e : Element} {path other : List String} {position : Position}
    (h : e.locate path = some position) (hparts : parts other path = true) :
    (e.modifyAt f position).descend other = e.descend other := by
  induction path generalizing e position other with
  | nil => cases other <;> simp at hparts
  | cons name rest ih =>
    cases other with
    | nil => simp at hparts
    | cons name' rest' =>
      rw [locate] at h
      cases hr : e.ranked? name with
      | none => simp [hr] at h
      | some x =>
        obtain ⟨child, rank⟩ := x
        rw [hr] at h
        obtain ⟨position, hl, rfl⟩ := Option.map_eq_some_iff.mp h
        obtain ⟨hchild, hrank, -, -⟩ := ranked?_eq_some hr
        rw [modifyAt, descend, descend, child?_modifyElement e rank name'
          (fun x _ => name_modifyAt hf position x)]
        by_cases hn : name' = name
        · subst hn
          rw [if_pos hrank.symm, hchild]
          simpa using ih hl (by simpa [parts_cons_cons] using hparts)
        · cases ho : e.child? name' with
          | none => simp
          | some other => rw [if_neg (findIdx_ne_of_ranked? hr hn ho)]

/-- Elements whose child elements have the same names, and so on, have their sections in the same place. -/
theorem locate_congr {R : Element → Element → Prop}
    (hR : ∀ x y, R x y → List.Forall₂ (fun a b => a.name = b.name ∧ R a b) x.elements y.elements)
    {x y : Element} (h : R x y) (path : List String) : x.locate path = y.locate path := by
  induction path generalizing x y with
  | nil => rfl
  | cons name rest ih =>
    have hranked : ∀ {xs ys : List Element} (n : Nat),
        List.Forall₂ (fun a b => a.name = b.name ∧ R a b) xs ys →
          Option.Rel (fun a b : Element × Nat => a.2 = b.2 ∧ R a.1 b.1)
            ((xs.zipIdx n).find? fun a => a.1.name == name)
            ((ys.zipIdx n).find? fun b => b.1.name == name) := by
      intro xs ys n hxs
      induction hxs generalizing n with
      | nil => exact .none
      | cons hab _ ih =>
        rw [List.zipIdx_cons, List.zipIdx_cons, List.find?_cons, List.find?_cons]
        dsimp only
        rw [hab.1]
        split
        · exact .some ⟨rfl, hab.2⟩
        · exact ih (n + 1)
    have hfound := hranked 0 (hR x y h)
    rw [locate, locate, ranked?, ranked?]
    cases hx : x.elements.zipIdx.find? (fun a => a.1.name == name) <;>
      cases hy : y.elements.zipIdx.find? (fun b => b.1.name == name) <;>
        rw [hx, hy] at hfound <;> cases hfound
    next hab => simp only [hab.1, ih hab.2]

/-! Sections that are created. -/

/-- The nodes up to the last element, and those behind it. -/
theorem exists_eq_append_afterElements (nodes : List Node) :
    ∃ front tail, nodes = front ++ tail ∧ afterElements nodes = front.length ∧
      elementsOf tail = [] ∧ ∀ n ∈ front.getLast?, n.isElement = true := by
  refine ⟨(nodes.reverse.dropWhile fun n => !n.isElement).reverse,
    (nodes.reverse.takeWhile fun n => !n.isElement).reverse, ?_, ?_, ?_, ?_⟩
  · rw [← List.reverse_append, List.takeWhile_append_dropWhile, List.reverse_reverse]
  · rw [List.length_reverse, afterElements]
  · apply List.filterMap_eq_nil_iff.mpr
    intro n hn
    have hno := List.all_eq_true.mp List.all_takeWhile n (List.mem_reverse.mp hn)
    cases n <;> simp_all [Node.isElement, Node.element?]
  · intro n hn
    rw [List.getLast?_reverse] at hn
    have hhead := List.head?_dropWhile_not (fun n : Node => !n.isElement) nodes.reverse
    rw [hn] at hhead
    simpa using hhead

theorem elementsOf_textNodes (value : String) : elementsOf (textNodes value) = [] := by
  rw [textNodes]
  split <;> rfl

@[simp] theorem name_appendElement (e child : Element) :
    (e.appendElement child).name = e.name := by
  rw [appendElement]
  split <;> rfl

theorem elements_appendElement (e child : Element) :
    (e.appendElement child).elements = e.elements ++ [child] := by
  rw [appendElement]
  split
  · simp [elements]
  · next index hindex =>
    obtain ⟨front, tail, hchildren, hafter, htail, -⟩ := exists_eq_append_afterElements e.children
    have hlen : index + 1 = front.length := by rw [← hafter, hindex]
    simp only [elements, elementsOf_insertNodes]
    rw [hlen, hchildren, List.take_left, List.drop_left]
    simp [elementsOf_textNodes, htail]

theorem child?_appendElement (e child : Element) (name : String) :
    (e.appendElement child).child? name =
      (e.child? name).or (if child.name == name then some child else none) := by
  have h := elements_appendElement e child
  rw [elements, elements] at h
  rw [child?, childOf?, h, List.find?_append, child?, childOf?]
  congr 1
  cases hn : child.name == name <;> simp [hn]

@[simp] theorem name_chain (name : String) (rest : List String) :
    (Element.chain name rest).name = name := by
  cases rest <;> rfl

theorem child?_chain (name next : String) (rest : List String) (other : String) :
    (Element.chain name (next :: rest)).child? other =
      if next == other then some (Element.chain next rest) else none := by
  rw [chain, child?, childOf?, ofName, elementsOf_toNode_cons, elementsOf_nil, List.find?_cons,
    name_chain]
  cases next == other <;> simp

/-- A new chain leads to its last element, which is empty. -/
theorem descend_chain (name : String) (rest : List String) :
    (Element.chain name rest).descend rest =
      some (Element.ofName ((name :: rest).getLast (by simp))) := by
  induction rest generalizing name with
  | nil => rfl
  | cons next rest ih =>
    rw [descend, child?_chain, beq_self_eq_true, if_pos rfl, Option.bind_some, ih]
    simp

theorem descend_chain_of_parts {name : String} {rest other : List String}
    (h : parts other rest = true) : (Element.chain name rest).descend other = none := by
  induction rest generalizing name other with
  | nil => cases other <;> simp at h
  | cons next rest ih =>
    cases other with
    | nil => simp at h
    | cons name' rest' =>
      rw [descend, child?_chain]
      by_cases hn : name' = next
      · subst hn
        simpa using ih (by simpa [parts_cons_cons] using h)
      · have hne : (next == name') = false := beq_false_of_ne (Ne.symm hn)
        simp [hne]

theorem locate_chain (name : String) (rest : List String) :
    (Element.chain name rest).locate rest = some (List.replicate rest.length 0) := by
  induction rest generalizing name with
  | nil => rfl
  | cons next rest ih =>
    have hr : (Element.chain name (next :: rest)).ranked? next =
        some (Element.chain next rest, 0) := by
      rw [ranked?_eq, child?_chain, beq_self_eq_true, if_pos rfl, Option.map_some]
      simp [chain, ofName, elements, List.findIdx_cons]
    rw [locate, hr]
    simp [ih, List.replicate_succ]

/-- The only child of its name, behind all others. -/
theorem ranked?_of_elements_eq {e e' child : Element} (h : e'.elements = e.elements ++ [child])
    (hno : e.child? child.name = none) : e'.ranked? child.name = some (child, e.elements.length) := by
  have hbefore : ∀ x ∈ e.elements, (x.name == child.name) = false := by
    simpa [child?, childOf?, elements] using hno
  have hfind : e.elements.find? (·.name == child.name) = none := hno
  have hchild : e'.child? child.name = some child := by
    rw [child?, childOf?, ← elements, h, List.find?_append, hfind, Option.none_or, List.find?_cons,
      beq_self_eq_true]
  rw [ranked?_eq, hchild, Option.map_some, h, List.findIdx_append, if_neg]
  · simp [List.findIdx_cons]
  · rw [List.findIdx_lt_length]
    rintro ⟨x, hx, hname⟩
    rw [hbefore x hx] at hname
    cases hname

theorem ranked?_appendElement {e child : Element} (h : e.child? child.name = none) :
    (e.appendElement child).ranked? child.name = some (child, e.elements.length) :=
  ranked?_of_elements_eq (elements_appendElement e child) h

/-- Only the name of what is replaced counts for where a path leads first. -/
theorem child?_replaced {e child new : Element} {name : String} {rank : Nat}
    (h : e.ranked? name = some (child, rank)) (hnew : new.name = child.name) (other : String) :
    ({ e with children := modifyElement (fun _ => new) rank e.children } : Element).child? other =
      if e.elements.findIdx (·.name == other) = rank then (e.child? other).map fun _ => new
      else e.child? other := by
  apply child?_modifyElement
  intro x hx
  obtain ⟨-, -, hat, -⟩ := ranked?_eq_some h
  rw [hat] at hx
  cases hx
  exact hnew

theorem ranked?_replaced {e child new : Element} {name : String} {rank : Nat}
    (h : e.ranked? name = some (child, rank)) (hnew : new.name = child.name) :
    ({ e with children := modifyElement (fun _ => new) rank e.children } : Element).ranked? name =
      some (new, rank) := by
  obtain ⟨hchild, hrank, hat, hname⟩ := ranked?_eq_some h
  have hfind := child?_replaced h hnew name
  rw [if_pos hrank.symm, hchild, Option.map_some] at hfind
  rw [ranked?_eq, hfind, Option.map_some]
  -- the rank is that of the first child of the name, before and after
  have hidx : ∀ xs : List Element, xs[rank]? = some child →
      xs.findIdx (·.name == name) = rank →
        (xs.modify rank fun _ => new).findIdx (·.name == name) = rank := by
    intro xs hx hfirst
    obtain ⟨hlt, rfl⟩ := List.getElem?_eq_some_iff.mp hx
    rw [List.findIdx_eq (by simpa using hlt)]
    refine ⟨by simp [hnew, hname], ?_⟩
    intro j hj
    have hbefore := List.not_of_lt_findIdx (by rw [hfirst]; exact hj)
    have hne : rank ≠ j := by omega
    simpa [List.getElem_modify, hne] using hbefore
  rw [elements, elementsOf_modifyElement]
  rw [elements] at hat hrank
  rw [hidx _ hat hrank.symm]

theorem ranked?_changed {e child : Element} {name : String} {rank : Nat} {f : Element → Element}
    (h : e.ranked? name = some (child, rank)) (hf : (f child).name = child.name) :
    ({ e with children := modifyElement f rank e.children } : Element).ranked? name =
      some (f child, rank) := by
  obtain ⟨-, -, hat, -⟩ := ranked?_eq_some h
  obtain ⟨front, back, hchildren, hrank⟩ := exists_split_of_getElem? hat
  have hconst : modifyElement f rank e.children = modifyElement (fun _ => f child) rank e.children := by
    rw [hchildren, modifyElement_append _ hrank, modifyElement_append _ hrank]
  rw [hconst]
  exact ranked?_replaced h hf

/-- A section stays where it is when it changes. -/
theorem locate_modifyAt {f : Element → Element} (hf : ∀ x, (f x).name = x.name) {e : Element}
    {path : List String} {position : Position} (h : e.locate path = some position) :
    (e.modifyAt f position).locate path = some position := by
  induction path generalizing e position with
  | nil =>
    cases h
    rfl
  | cons name rest ih =>
    rw [locate] at h
    split at h
    · cases h
    · next child rank hranked =>
      obtain ⟨position, hposition, rfl⟩ := Option.map_eq_some_iff.mp h
      rw [modifyAt, locate, ranked?_changed hranked (name_modifyAt hf position child)]
      dsimp only
      rw [ih hposition, Option.map_some]

theorem locate_setAt {e : Element} {path : List String} {position : Position}
    (h : e.locate path = some position) (children : List Node) :
    (e.setAt position children).locate path = some position :=
  locate_modifyAt (f := fun x => { x with children := children }) (fun _ => rfl) h

@[simp] theorem name_ensure (e : Element) (path : List String) :
    (e.ensure path).element.name = e.name := by
  cases path with
  | nil => rfl
  | cons name rest =>
    rw [ensure]
    split
    · exact name_appendElement e _
    · rfl

/-- A section that is there already is left as it is. -/
theorem element_ensure_of_descend {e s : Element} {path : List String}
    (h : e.descend path = some s) :
    (e.ensure path).element = e ∧ e.locate path = some (e.ensure path).position := by
  induction path generalizing e with
  | nil => exact ⟨rfl, rfl⟩
  | cons name rest ih =>
    rw [descend] at h
    cases hr : e.ranked? name with
    | none =>
      rw [ranked?_eq_none_iff.mp hr] at h
      cases h
    | some x =>
      obtain ⟨child, rank⟩ := x
      obtain ⟨hchild, -, hat, -⟩ := ranked?_eq_some hr
      rw [hchild, Option.bind_some] at h
      obtain ⟨helement, hlocate⟩ := ih h
      rw [ensure, locate, hr]
      simp only
      rw [helement, hlocate]
      refine ⟨?_, rfl⟩
      rw [elements] at hat
      rw [modifyElement_const hat]

/-- A section that is not there is created empty, under the last name of its path. -/
theorem descend_ensure_of_none {e : Element} {path : List String} (h : e.descend path = none) :
    (∃ name, (e.ensure path).element.descend path = some (Element.ofName name)) ∧
      (e.ensure path).element.locate path = some (e.ensure path).position := by
  induction path generalizing e with
  | nil => cases h
  | cons name rest ih =>
    rw [ensure]
    cases hr : e.ranked? name with
    | none =>
      have hno : e.child? (Element.chain name rest).name = none := by
        rw [name_chain]
        exact ranked?_eq_none_iff.mp hr
      have hranked := ranked?_appendElement hno
      rw [name_chain] at hranked hno
      simp only
      constructor
      · refine ⟨(name :: rest).getLast (by simp), ?_⟩
        rw [descend, child?_appendElement, hno, name_chain]
        simp [descend_chain]
      · rw [locate, hranked]
        simp [locate_chain]
    | some x =>
      obtain ⟨child, rank⟩ := x
      rw [descend, (ranked?_eq_some hr).1, Option.bind_some] at h
      obtain ⟨⟨last, hlast⟩, hlocate⟩ := ih h
      have hranked := ranked?_replaced hr (name_ensure child rest)
      simp only
      constructor
      · rw [descend, (ranked?_eq_some hranked).1, Option.bind_some]
        exact ⟨last, hlast⟩
      · rw [locate, hranked]
        simp [hlocate]

/-- What is found and what is created for a path. -/
theorem at?_ensure (root : Element) (path : List String) :
    ∃ owner, (root.ensure path).element.at? (root.ensure path).position = some owner ∧
      (root.ensure path).element.locate path = some (root.ensure path).position ∧
      (root.ensure path).element.descend path = some owner ∧
      (root.descend path = some owner ∨
        root.descend path = none ∧ owner.children = []) := by
  cases h : root.descend path with
  | some s =>
    obtain ⟨helement, hlocate⟩ := element_ensure_of_descend h
    rw [helement]
    exact ⟨s, by rw [at?_of_locate hlocate, h], hlocate, h, Or.inl rfl⟩
  | none =>
    obtain ⟨⟨name, hdescend⟩, hlocate⟩ := descend_ensure_of_none h
    exact ⟨_, by rw [at?_of_locate hlocate, hdescend], hlocate, hdescend,
      Or.inr ⟨rfl, rfl⟩⟩

/-- Creating a section is not seen where another path parts from its own. -/
theorem descend_ensure_of_parts {e : Element} {path other : List String}
    (hparts : parts other path = true) : (e.ensure path).element.descend other = e.descend other := by
  induction path generalizing e other with
  | nil => rfl
  | cons name rest ih =>
    cases other with
    | nil => simp at hparts
    | cons name' rest' =>
      rw [ensure]
      cases hr : e.ranked? name with
      | none =>
        simp only
        rw [descend, descend, child?_appendElement, name_chain]
        by_cases hn : name' = name
        · subst hn
          rw [ranked?_eq_none_iff.mp hr, Option.none_or, beq_self_eq_true, if_pos rfl,
            Option.bind_some, Option.bind_none]
          exact descend_chain_of_parts (by simpa [parts_cons_cons] using hparts)
        · have hne : (name == name') = false := beq_false_of_ne (Ne.symm hn)
          simp [hne]
      | some x =>
        obtain ⟨child, rank⟩ := x
        simp only
        rw [descend, descend, child?_replaced hr (name_ensure child rest)]
        by_cases hn : name' = name
        · subst hn
          obtain ⟨hchild, hrank, -, -⟩ := ranked?_eq_some hr
          rw [if_pos hrank.symm, hchild]
          simpa using ih (by simpa [parts_cons_cons] using hparts)
        · cases ho : e.child? name' with
          | none => simp
          | some x => rw [if_neg (findIdx_ne_of_ranked? hr hn ho)]

end Element

end Manifest
