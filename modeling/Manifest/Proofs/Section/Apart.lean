import Manifest.Proofs.Section.Path

/-! Work on several sections of one element. What is done in a section is not seen in one whose path parts
from its own, and once a section is there it does not matter whether another one is worked on, or
created, before or after it. -/

set_option autoImplicit false

namespace Manifest

/-! Changes of single elements among nodes. -/

theorem modifyElement_append_left {f : Element → Element} {rank : Nat} {front : List Node}
    (h : rank < (elementsOf front).length) (back : List Node) :
    modifyElement f rank (front ++ back) = modifyElement f rank front ++ back := by
  obtain ⟨before, after, hfront, hrank⟩ :=
    exists_split_of_getElem? (List.getElem?_eq_getElem h)
  rw [hfront, List.append_assoc, List.cons_append, modifyElement_append f hrank,
    modifyElement_append f hrank, List.append_assoc, List.cons_append]

theorem modifyElement_comm {f g : Element → Element} {i j : Nat} (hne : i ≠ j) (nodes : List Node) :
    modifyElement f i (modifyElement g j nodes) = modifyElement g j (modifyElement f i nodes) := by
  induction nodes generalizing i j with
  | nil => cases i <;> cases j <;> rfl
  | cons node rest ih =>
    cases node with
    | element tag children =>
      cases i with
      | zero =>
        cases j with
        | zero => exact absurd rfl hne
        | succ j => rfl
      | succ i =>
        cases j with
        | zero => rfl
        | succ j => exact congrArg (List.cons _) (ih fun h => hne (congrArg (· + 1) h))
    | text _ | comment _ | instruction _ _ =>
      cases i <;> cases j <;> exact congrArg (List.cons _) (ih hne)

theorem length_modifyElement (f : Element → Element) (rank : Nat) (nodes : List Node) :
    (modifyElement f rank nodes).length = nodes.length := by
  induction nodes generalizing rank with
  | nil => cases rank <;> rfl
  | cons node rest ih =>
    cases node with
    | element tag children =>
      cases rank with
      | zero => rfl
      | succ rank => exact congrArg (· + 1) (ih rank)
    | text _ | comment _ | instruction _ _ => cases rank <;> exact congrArg (· + 1) (ih _)

theorem map_isElement_modifyElement (f : Element → Element) (rank : Nat) (nodes : List Node) :
    (modifyElement f rank nodes).map Node.isElement = nodes.map Node.isElement := by
  induction nodes generalizing rank with
  | nil => cases rank <;> rfl
  | cons node rest ih =>
    cases node with
    | element tag children =>
      cases rank with
      | zero => rfl
      | succ rank => exact congrArg (List.cons _) (ih rank)
    | text _ | comment _ | instruction _ _ => cases rank <;> exact congrArg (List.cons _) (ih _)

theorem find?_isBlank_modifyElement (f : Element → Element) (rank : Nat) (nodes : List Node) :
    (modifyElement f rank nodes).find? Node.isBlank = nodes.find? Node.isBlank := by
  induction nodes generalizing rank with
  | nil => cases rank <;> rfl
  | cons node rest ih =>
    cases node with
    | element tag children =>
      cases rank with
      | zero => rfl
      | succ rank => exact ih rank
    | text _ | comment _ | instruction _ _ =>
      cases rank <;> simp only [modifyElement, List.find?_cons, ih]

namespace Element

theorem afterElements_modifyElement (f : Element → Element) (rank : Nat) (nodes : List Node) :
    afterElements (modifyElement f rank nodes) = afterElements nodes := by
  have hkinds : ∀ nodes : List Node,
      afterElements nodes = ((nodes.map Node.isElement).reverse.dropWhile fun b => !b).length := by
    intro nodes
    rw [← List.map_reverse, List.dropWhile_map, List.length_map]
    rfl
  rw [hkinds, map_isElement_modifyElement, ← hkinds]

/-- A change of a child element can be made before or after another child comes in. -/
theorem appendElement_modifyElement (f : Element → Element) {rank : Nat} {e : Element}
    (h : rank < e.elements.length) (child : Element) :
    ({ e with children := modifyElement f rank e.children } : Element).appendElement child =
      { e.appendElement child with
        children := modifyElement f rank (e.appendElement child).children } := by
  obtain ⟨front, tail, hchildren, hafter, htail, -⟩ := exists_eq_append_afterElements e.children
  have hfront : rank < (elementsOf front).length := by
    rwa [elements, hchildren, elementsOf_append, htail, List.append_nil] at h
  have hindent : ({ e with children := modifyElement f rank e.children } : Element).childIndent =
      e.childIndent := by
    rw [childIndent, childIndent, find?_isBlank_modifyElement]
  rw [appendElement, appendElement, hindent, afterElements_modifyElement]
  split
  · next hzero =>
    dsimp only
    rw [modifyElement_append_left (by rwa [elements] at h)]
  · next index hindex =>
    have hlength : index + 1 = front.length := by rw [← hafter, hindex]
    have hlength' : (modifyElement f rank front).length = front.length :=
      length_modifyElement f rank front
    dsimp only
    rw [insertNodes, insertNodes, hlength, hchildren, modifyElement_append_left hfront,
      ← hlength', List.take_left, List.drop_left, hlength', List.take_left, List.drop_left,
      List.append_assoc, modifyElement_append_left hfront]

/-- Where a new child comes in. -/
theorem exists_appendElement (e : Element) :
    ∃ front back, (elementsOf front).length = e.elements.length ∧
      ∀ child, e.appendElement child = ⟨e.tag, front ++ child.toNode :: back⟩ := by
  obtain ⟨front, tail, hchildren, hafter, htail, -⟩ := exists_eq_append_afterElements e.children
  cases hindex : afterElements e.children with
  | zero =>
    refine ⟨e.children, [], rfl, fun child => ?_⟩
    rw [appendElement, hindex]
  | succ index =>
    have hlength : index + 1 = front.length := by rw [← hafter, hindex]
    refine ⟨front ++ textNodes e.childIndent, tail, ?_, fun child => ?_⟩
    · rw [elements, hchildren, elementsOf_append, elementsOf_append, elementsOf_textNodes, htail]
    · rw [appendElement, hindex]
      dsimp only
      rw [insertNodes, hlength, hchildren, List.take_left, List.drop_left]
      simp

/-! The first child of a name. -/

/-- The first child of a name is one of that name with none in front of it. -/
theorem ranked?_eq_some_iff {e child : Element} {name : String} {rank : Nat} :
    e.ranked? name = some (child, rank) ↔ e.elements[rank]? = some child ∧ child.name = name ∧
      ∀ i < rank, ∀ x ∈ e.elements[i]?, x.name ≠ name := by
  rw [ranked?_eq, child?, childOf?, ← elements, Option.map_eq_some_iff]
  constructor
  · rintro ⟨c, hc, hpair⟩
    cases hpair
    refine ⟨getElem?_findIdx_of_find? hc, by simpa using List.find?_some hc, fun i hi x hx => ?_⟩
    obtain ⟨hlt, rfl⟩ := List.getElem?_eq_some_iff.mp hx
    simpa using List.not_of_lt_findIdx hi
  · rintro ⟨hat, hname, hbefore⟩
    obtain ⟨hlt, rfl⟩ := List.getElem?_eq_some_iff.mp hat
    have hrank : e.elements.findIdx (·.name == name) = rank := by
      rw [List.findIdx_eq hlt]
      refine ⟨by simpa using hname, fun i hi => ?_⟩
      simpa using hbefore i hi _ (List.getElem?_eq_getElem (Nat.lt_trans hi hlt))
    refine ⟨_, ?_, by rw [hrank]⟩
    rw [List.find?_eq_getElem?_findIdx, hrank, hat]

/-- A child stays the first of its name when another one changes and keeps its name. -/
theorem ranked?_modifyElement {e child : Element} {name : String} {rank i : Nat}
    (h : e.ranked? name = some (child, rank)) (hne : i ≠ rank) {f : Element → Element}
    (hf : ∀ x ∈ e.elements[i]?, (f x).name = x.name) :
    ({ e with children := modifyElement f i e.children } : Element).ranked? name =
      some (child, rank) := by
  obtain ⟨hat, hname, hbefore⟩ := ranked?_eq_some_iff.mp h
  have hmodify : ({ e with children := modifyElement f i e.children } : Element).elements =
      e.elements.modify i f := elementsOf_modifyElement f i e.children
  refine ranked?_eq_some_iff.mpr ⟨?_, hname, fun j hj x hx => ?_⟩
  · rw [hmodify, List.getElem?_modify, hat]
    simp [hne]
  · rw [hmodify, List.getElem?_modify] at hx
    obtain ⟨y, hy, rfl⟩ := Option.map_eq_some_iff.mp hx
    split
    · next hi =>
      subst hi
      rw [hf y hy]
      exact hbefore _ hj y hy
    · exact hbefore j hj y hy

theorem ranked?_appendElement_of_some {e child : Element} {name : String} {rank : Nat}
    (h : e.ranked? name = some (child, rank)) (new : Element) :
    (e.appendElement new).ranked? name = some (child, rank) := by
  obtain ⟨hat, hname, hbefore⟩ := ranked?_eq_some_iff.mp h
  have hlt := (List.getElem?_eq_some_iff.mp hat).1
  refine ranked?_eq_some_iff.mpr ⟨?_, hname, fun j hj x hx => hbefore j hj x ?_⟩
  · rwa [elements_appendElement, List.getElem?_append_left hlt]
  · rwa [elements_appendElement, List.getElem?_append_left (Nat.lt_trans hj hlt)] at hx

/-! Work on a section. -/

/-- An element with a change of the section at a path, which is created if it is missing. -/
def inSection (path : List String) (f : Element → Element) (e : Element) : Element :=
  (e.ensure path).element.modifyAt f (e.ensure path).position

section
variable {f g : Element → Element} {e child : Element} {name : String} {rank : Nat}
  {rest path other : List String}

theorem inSection_cons_of_some (h : e.ranked? name = some (child, rank)) (rest : List String)
    (f : Element → Element) :
    e.inSection (name :: rest) f =
      { e with children := modifyElement (fun _ => child.inSection rest f) rank e.children } := by
  rw [inSection, ensure, h]
  dsimp only
  rw [modifyAt, modifyElement_modifyElement]
  rfl

theorem ensure_ofName (name : String) (rest : List String) :
    ((ofName name).ensure rest).element = chain name rest ∧
      ((ofName name).ensure rest).position = List.replicate rest.length 0 := by
  cases rest with
  | nil => exact ⟨rfl, rfl⟩
  | cons next rest => exact ⟨rfl, rfl⟩

theorem inSection_cons_of_none (h : e.ranked? name = none) (rest : List String)
    (f : Element → Element) :
    e.inSection (name :: rest) f = e.appendElement ((ofName name).inSection rest f) := by
  obtain ⟨front, back, hlength, happend⟩ := e.exists_appendElement
  obtain ⟨helement, hposition⟩ := ensure_ofName name rest
  rw [inSection, ensure, h]
  dsimp only
  rw [happend, happend, modifyAt]
  dsimp only
  rw [modifyElement_append _ hlength, inSection, helement, hposition]

theorem name_inSection (hf : ∀ x, (f x).name = x.name) (path : List String) (e : Element) :
    (e.inSection path f).name = e.name := by
  rw [inSection, name_modifyAt hf, name_ensure]

/-- Work on a section that is there is a change at its position. -/
theorem inSection_of_locate {position : Position} (h : e.locate path = some position)
    (f : Element → Element) : e.inSection path f = e.modifyAt f position := by
  have hspec := e.locate_spec path
  rw [h] at hspec
  obtain ⟨s, hs⟩ := Option.isSome_iff_exists.mp hspec.2
  obtain ⟨helement, hlocate⟩ := element_ensure_of_descend hs
  rw [inSection, helement, ← Option.some.inj (h.symm.trans hlocate)]

theorem descend_inSection (hf : ∀ x, (f x).name = x.name) (path : List String) (e : Element) :
    ∃ owner, (e.inSection path f).descend path = some (f owner) ∧
      (e.descend path = some owner ∨ e.descend path = none ∧ owner.children = []) := by
  obtain ⟨owner, -, hlocate, hdescend, hwas⟩ := e.at?_ensure path
  exact ⟨owner, by rw [inSection, descend_modifyAt hf hlocate, hdescend, Option.map_some], hwas⟩

/-- Work on a section is not seen where another path parts from its own. -/
theorem descend_inSection_of_parts (hf : ∀ x, (f x).name = x.name) (e : Element)
    (hparts : parts other path = true) : (e.inSection path f).descend other = e.descend other := by
  obtain ⟨owner, -, hlocate, -, -⟩ := e.at?_ensure path
  rw [inSection, descend_modifyAt_of_parts hf hlocate hparts, descend_ensure_of_parts hparts]

/-- The children of an element with work in a section that one of them has. -/
theorem ranked?_inSection (hg : ∀ x, (g x).name = x.name) (h : e.ranked? name = some (child, rank))
    (rest : List String) :
    (e.inSection (name :: rest) g).ranked? name = some (child.inSection rest g, rank) := by
  rw [inSection_cons_of_some h]
  exact ranked?_replaced h (name_inSection hg rest child)

/-- Work in a section twice is work in it once. -/
theorem inSection_inSection (hg : ∀ x, (g x).name = x.name) (path : List String) (e : Element) :
    (e.inSection path g).inSection path f = e.inSection path fun x => f (g x) := by
  induction path generalizing e with
  | nil => rfl
  | cons name rest ih =>
    cases hr : e.ranked? name with
    | some x =>
      obtain ⟨child, rank⟩ := x
      rw [inSection_cons_of_some (ranked?_inSection hg hr rest), inSection_cons_of_some hr,
        inSection_cons_of_some hr]
      dsimp only
      rw [modifyElement_modifyElement, ih]
    | none =>
      have hname : ((ofName name).inSection rest g).name = name := name_inSection hg rest _
      have hno : e.child? ((ofName name).inSection rest g).name = none := by
        rw [hname]
        exact ranked?_eq_none_iff.mp hr
      have hranked := ranked?_appendElement hno
      rw [hname] at hranked
      obtain ⟨front, back, hlength, happend⟩ := e.exists_appendElement
      rw [inSection_cons_of_none hr, inSection_cons_of_none hr, inSection_cons_of_some hranked, happend,
        happend, modifyElement_append _ hlength, ih]

/-- Once a section is there, work in it can be done before or after work in one whose path parts. -/
theorem inSection_comm (hf : ∀ x, (f x).name = x.name) (hg : ∀ x, (g x).name = x.name)
    (hparts : parts path other = true) (h : (e.descend path).isSome = true) :
    (e.inSection other g).inSection path f = (e.inSection path f).inSection other g := by
  induction path generalizing e other with
  | nil => cases other <;> cases hparts
  | cons name rest ih =>
    cases other with
    | nil => cases hparts
    | cons name' rest' =>
      rw [descend] at h
      cases hr : e.ranked? name with
      | none =>
        rw [ranked?_eq_none_iff.mp hr] at h
        cases h
      | some x =>
        obtain ⟨child, rank⟩ := x
        obtain ⟨hchild, -, hat, -⟩ := ranked?_eq_some hr
        rw [hchild, Option.bind_some] at h
        by_cases hname : name = name'
        · subst hname
          rw [parts_cons_cons, bne_self_eq_false, Bool.false_or] at hparts
          rw [inSection_cons_of_some (ranked?_inSection hg hr rest'),
            inSection_cons_of_some (ranked?_inSection hf hr rest), inSection_cons_of_some hr,
            inSection_cons_of_some hr]
          dsimp only
          rw [modifyElement_modifyElement, modifyElement_modifyElement, ih hparts h]
        have hnew : ∀ x ∈ e.elements[rank]?, (child.inSection rest f).name = x.name := by
          intro x hx
          rw [hat] at hx
          cases hx
          exact name_inSection hf rest child
        cases hr' : e.ranked? name' with
        | some x =>
          obtain ⟨child', rank'⟩ := x
          obtain ⟨-, -, hat', hname'⟩ := ranked?_eq_some hr'
          have hne : rank' ≠ rank := by
            rintro rfl
            rw [hat, Option.some.injEq] at hat'
            exact hname (by rw [← (ranked?_eq_some hr).2.2.2, hat', hname'])
          have hnew' : ∀ x ∈ e.elements[rank']?, (child'.inSection rest' g).name = x.name := by
            intro x hx
            rw [hat'] at hx
            cases hx
            exact name_inSection hg rest' child'
          have hfirst := ranked?_modifyElement hr hne hnew'
          have hsecond := ranked?_modifyElement hr' (Ne.symm hne) hnew
          rw [inSection_cons_of_some hr, inSection_cons_of_some hr', inSection_cons_of_some hfirst,
            inSection_cons_of_some hsecond]
          dsimp only
          rw [modifyElement_comm (Ne.symm hne)]
        | none =>
          have hnone : ({ e with
              children := modifyElement (fun _ => child.inSection rest f) rank e.children } :
                Element).ranked? name' = none := by
            rw [ranked?_eq_none_iff, child?_modifyElement e rank name' hnew, ranked?_eq_none_iff.mp hr',
              Option.map_none, ite_self]
          rw [inSection_cons_of_none hr', inSection_cons_of_some (ranked?_appendElement_of_some hr _),
            inSection_cons_of_some hr, inSection_cons_of_none hnone,
            appendElement_modifyElement _ (List.getElem?_eq_some_iff.mp hat).1]

/-! Several sections. -/

/-- The children of the section at a path; none if there is no such section. -/
def nodesAt (e : Element) (path : List String) : List Node :=
  ((e.descend path).map children).getD []

/-- Only what is made of the section as it is there, or created, counts. -/
theorem inSection_congr (h : ∀ owner : Element, owner.children = e.nodesAt path → f owner = g owner) :
    e.inSection path f = e.inSection path g := by
  obtain ⟨owner, hat, -, -, hwas⟩ := e.at?_ensure path
  refine modifyAt_congr hat (h owner ?_)
  rcases hwas with hwas | ⟨hnone, hempty⟩
  · rw [nodesAt, hwas]
    rfl
  · rw [nodesAt, hnone]
    exact hempty

/-- An element with other children. -/
def holding (nodes : List Node) (e : Element) : Element :=
  { e with children := nodes }

theorem name_holding (nodes : List Node) (e : Element) : (holding nodes e).name = e.name := rfl

/-- A section that is there keeps the element as it is when it gets the children that it has. -/
theorem inSection_holding_self {owner : Element} (h : e.descend path = some owner) :
    e.inSection path (holding owner.children) = e := by
  obtain ⟨-, hlocate⟩ := element_ensure_of_descend h
  have hat := at?_of_locate hlocate
  rw [h] at hat
  rw [inSection_of_locate hlocate, modifyAt_self hat rfl]

/-- An element in which the sections at some paths have other children, created where they are missing. -/
def withSections (e : Element) (sections : List (List String × List Node)) : Element :=
  sections.foldl (fun e s => e.inSection s.1 (holding s.2)) e

theorem withSections_cons (e : Element) (s : List String × List Node)
    (sections : List (List String × List Node)) :
    e.withSections (s :: sections) = (e.inSection s.1 (holding s.2)).withSections sections := rfl

theorem name_withSections (e : Element) (sections : List (List String × List Node)) :
    (e.withSections sections).name = e.name := by
  induction sections generalizing e with
  | nil => rfl
  | cons s sections ih => rw [withSections_cons, ih, name_inSection (name_holding s.2)]

/-- A section whose path parts from all of theirs stays as it is. -/
theorem descend_withSections_of_parts {sections : List (List String × List Node)}
    (h : ∀ s ∈ sections, parts path s.1 = true) :
    (e.withSections sections).descend path = e.descend path := by
  induction sections generalizing e with
  | nil => rfl
  | cons s sections ih =>
    obtain ⟨hs, hsections⟩ := List.forall_mem_cons.mp h
    rw [withSections_cons, ih hsections, descend_inSection_of_parts (name_holding s.2) e hs]

/-- Each of the sections has the children that it got. -/
theorem children_withSections {sections : List (List String × List Node)}
    (hparts : sections.Pairwise fun a b => parts a.1 b.1 = true) {s : List String × List Node}
    (hs : s ∈ sections) :
    ((e.withSections sections).descend s.1).map children = some s.2 := by
  induction sections generalizing e with
  | nil => cases hs
  | cons a sections ih =>
    obtain ⟨ha, hsections⟩ := List.pairwise_cons.mp hparts
    rw [withSections_cons]
    rcases List.mem_cons.mp hs with rfl | hs
    · obtain ⟨owner, howner, -⟩ := descend_inSection (name_holding s.2) s.1 e
      rw [descend_withSections_of_parts ha, howner]
      rfl
    · exact ih hsections hs

theorem withSections_inSection (hf : ∀ x, (f x).name = x.name) (h : (e.descend path).isSome = true)
    {sections : List (List String × List Node)} (hparts : ∀ s ∈ sections, parts path s.1 = true) :
    (e.inSection path f).withSections sections = (e.withSections sections).inSection path f := by
  induction sections generalizing e with
  | nil => rfl
  | cons s sections ih =>
    obtain ⟨hs, hsections⟩ := List.forall_mem_cons.mp hparts
    rw [withSections_cons, withSections_cons, ← inSection_comm hf (name_holding s.2) hs h]
    exact ih (by rwa [descend_inSection_of_parts (name_holding s.2) e hs]) hsections

/-- When sections get children twice, only the second time counts. -/
theorem withSections_withSections {first second : List (List String × List Node)}
    (hpaths : first.map Prod.fst = second.map Prod.fst)
    (hparts : first.Pairwise fun a b => parts a.1 b.1 = true) :
    (e.withSections first).withSections second = e.withSections second := by
  induction first generalizing e second with
  | nil =>
    rw [List.map_nil, eq_comm, List.map_eq_nil_iff] at hpaths
    rw [hpaths]
    rfl
  | cons a first ih =>
    cases second with
    | nil => cases hpaths
    | cons b second =>
      rw [List.map_cons, List.map_cons, List.cons.injEq] at hpaths
      obtain ⟨ha, hfirst⟩ := List.pairwise_cons.mp hparts
      have hthere : ((e.inSection a.1 (holding a.2)).descend a.1).isSome = true := by
        obtain ⟨owner, howner, -⟩ := descend_inSection (name_holding a.2) a.1 e
        rw [howner]
        rfl
      rw [withSections_cons, withSections_cons, withSections_cons, ← hpaths.1,
        ← withSections_inSection (name_holding b.2) hthere ha, inSection_inSection (name_holding a.2),
        ih hpaths.2 hfirst]
      rfl

end

end Element

end Manifest
