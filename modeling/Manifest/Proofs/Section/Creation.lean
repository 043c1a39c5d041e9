import Manifest.Proofs.Section.Path

/-! Sections that are created. A path is followed as far as it goes; where it stops, a chain of new elements
comes in behind the last child element, and nothing else changes. What was created is found by the same path,
and is there when it is asked for again. -/

set_option autoImplicit false

namespace Manifest

/-- The white space that sets off a new child: the first blank text among the children, unless it is empty. -/
def firstWhite (children : List Node) : List Node :=
  ((children.find? Node.isBlank).filter fun node => !node.textValue.isEmpty).toList

/--
What the children of an element become when a new child comes in: right behind the last child element, on
white space like the first there is, or at the very end if there is no child element.
-/
inductive GainsChild (child : Element) (children : List Node) : List Node → Prop where
  | behind {front back : List Node} {last : Element} : children = front ++ last.toNode :: back →
      elementsOf back = [] →
      GainsChild child children (front ++ last.toNode :: (firstWhite children ++ child.toNode :: back))
  | alone : elementsOf children = [] → GainsChild child children (children ++ [child.toNode])

namespace Element

theorem textNodes_childIndent (e : Element) : textNodes e.childIndent = firstWhite e.children := by
  rw [childIndent, firstWhite]
  cases hfind : e.children.find? Node.isBlank with
  | none => rfl
  | some node =>
    have hblank : node.isBlank = true := by simpa using List.find?_some hfind
    cases node with
    | text value =>
      rw [Option.map_some, Option.getD_some, textNodes, Node.textValue, Option.filter_some]
      cases hempty : value.isEmpty with
      | true => simp [Node.textValue, hempty]
      | false => simp [Node.textValue, hempty]
    | _ => cases hblank

theorem gainsChild_appendElement (e child : Element) :
    ∃ children, e.appendElement child = ⟨e.tag, children⟩ ∧ GainsChild child e.children children := by
  obtain ⟨front, tail, hchildren, hafter, htail, hlast⟩ := exists_eq_append_afterElements e.children
  rw [appendElement, hafter]
  rcases List.eq_nil_or_concat front with rfl | ⟨before, last, rfl⟩
  · rw [List.nil_append] at hchildren
    exact ⟨_, rfl, .alone (by rw [hchildren, htail])⟩
  · rw [List.concat_eq_append] at hchildren hafter hlast ⊢
    have helement : last.isElement = true := hlast last (by simp)
    obtain ⟨x, rfl⟩ : ∃ x : Element, last = x.toNode := by
      cases last with
      | element tag inner => exact ⟨⟨tag, inner⟩, rfl⟩
      | _ => cases helement
    have hlength : (before ++ [x.toNode]).length = before.length + 1 := by simp
    have hsplit : e.children = before ++ x.toNode :: tail := by simp [hchildren]
    have htake : e.children.take (before ++ [x.toNode]).length = before ++ [x.toNode] := by
      rw [hchildren, List.take_left]
    have hdrop : e.children.drop (before ++ [x.toNode]).length = tail := by rw [hchildren, List.drop_left]
    rw [hlength] at htake hdrop ⊢
    refine ⟨_, rfl, ?_⟩
    rw [insertNodes, htake, hdrop, textNodes_childIndent]
    simp only [List.append_assoc, List.cons_append, List.nil_append]
    exact .behind hsplit htail

/-- Nothing is created where a path leads somewhere. -/
theorem ensure_of_locate {e : Element} {path : List String} {position : Position}
    (h : e.locate path = some position) : e.ensure path = ⟨e, position, []⟩ := by
  induction path generalizing e position with
  | nil =>
    cases h
    rfl
  | cons name rest ih =>
    rw [locate] at h
    split at h
    · cases h
    · next child rank hranked =>
      obtain ⟨inner, hinner, rfl⟩ := Option.map_eq_some_iff.mp h
      obtain ⟨-, -, hat, -⟩ := ranked?_eq_some hranked
      rw [ensure, hranked]
      dsimp only
      rw [ih hinner, modifyElement_const hat]

/-- Where a path stops, a chain of new elements for the rest of it comes in. -/
theorem exists_ensure_of_locate_none {e : Element} {path : List String} (h : e.locate path = none) :
    ∃ known name missing way deepest children, path = known ++ name :: missing ∧
      e.locate known = some way ∧ e.at? way = some deepest ∧ deepest.child? name = none ∧
      GainsChild (.chain name missing) deepest.children children ∧
      (e.ensure path).element = e.setAt way children := by
  induction path generalizing e with
  | nil => cases h
  | cons name rest ih =>
    rw [ensure]
    cases hr : e.ranked? name with
    | none =>
      obtain ⟨children, happend, hgains⟩ := e.gainsChild_appendElement (.chain name rest)
      exact ⟨[], name, rest, [], e, children, rfl, rfl, rfl, ranked?_eq_none_iff.mp hr, hgains, happend⟩
    | some x =>
      obtain ⟨child, rank⟩ := x
      obtain ⟨-, -, hat, -⟩ := ranked?_eq_some hr
      rw [locate, hr] at h
      obtain ⟨known, next, missing, way, deepest, children, hpath, hknown, hdeepest, hno, hgains, helement⟩ :=
        ih (Option.map_eq_none_iff.mp h)
      refine ⟨name :: known, next, missing, rank :: way, deepest, children, by rw [hpath]; rfl, ?_, ?_, hno,
        hgains, ?_⟩
      · rw [locate, hr]
        dsimp only
        rw [hknown, Option.map_some]
      · rw [at?, hat, Option.bind_some, hdeepest]
      · obtain ⟨front, back, hchildren, hrank⟩ := exists_split_of_getElem? hat
        have hset : e.setAt (rank :: way) children =
            ⟨e.tag, front ++ (child.setAt way children).toNode :: back⟩ := by
          rw [← setAt_cons hrank, ← hchildren]
        dsimp only
        rw [helement, hchildren, modifyElement_append _ hrank, hset]

theorem locate_ensure (e : Element) (path : List String) :
    (e.ensure path).element.locate path = some (e.ensure path).position := by
  obtain ⟨-, -, hlocate, -⟩ := e.at?_ensure path
  exact hlocate

end Element

namespace Document

/--
What a path names below the element where it starts. It starts at the root, whose own name it may begin with,
or at the element of a position.
-/
def pathFrom (start : Option Position) (container : Element) (path : List String) : List String :=
  match start with
  | none => pathBelow container path
  | some _ => path

section
variable {d : Document} {start : Option Position} {container : Element}

theorem pathFrom_congr {a b : Element} (h : a.name = b.name) (start : Option Position) (path : List String) :
    pathFrom start a path = pathFrom start b path := by
  cases start with
  | none => exact pathBelow_congr h path
  | some _ => rfl

/-- A path starts at the root. -/
theorem at?_start {root : Element} (h : d.root? = some root) :
    d.at? ((none : Option Position).getD []) = some root := by
  rw [at?, h]
  rfl

theorem locate_eq (h : d.at? (start.getD []) = some container) (path : List String) :
    d.locate start path =
      .ok ((container.locate (pathFrom start container path)).map (start.getD [] ++ ·)) := by
  obtain ⟨root, hroot, hat⟩ := at?_eq_some h
  rw [locate, hroot]
  cases start with
  | none =>
    cases hat
    simp [pathFrom]
  | some position =>
    rw [Option.getD_some] at hat
    dsimp only
    rw [hat]
    rfl

theorem ensure_eq (h : d.at? (start.getD []) = some container) (path : List String) :
    d.ensure start path =
      .ok (d.modifyAt (fun _ => (container.ensure (pathFrom start container path)).element) (start.getD []),
        start.getD [] ++ (container.ensure (pathFrom start container path)).position,
        (container.ensure (pathFrom start container path)).log) := by
  obtain ⟨root, hroot, hat⟩ := at?_eq_some h
  rw [ensure, hroot]
  cases start with
  | none =>
    cases hat
    simp [pathFrom, modifyAt, hroot, Element.modifyAt]
  | some position =>
    rw [Option.getD_some] at hat
    dsimp only
    rw [hat]
    rfl

theorem find_eq (h : d.at? (start.getD []) = some container) (path : List String) :
    d.find start path =
      match container.locate (pathFrom start container path) with
      | some way => .ok (some (start.getD [] ++ way), [])
      | none => .ok (none, [notFoundRecord path]) := by
  rw [find, locate_eq h]
  cases container.locate (pathFrom start container path) <;> rfl

/-- A section that is found is not created. -/
theorem ensure_of_find (h : d.at? (start.getD []) = some container) {path : List String} {there : Position}
    {records : List Record} (hfind : d.find start path = .ok (some there, records)) :
    d.ensure start path = .ok (d, there, []) := by
  rw [find_eq h] at hfind
  split at hfind
  · next way hway =>
    cases hfind
    rw [ensure_eq h, Element.ensure_of_locate hway, modifyAt_const h]
  · cases hfind

/--
A section that is created is found by the same path, and creating it again changes nothing. If the path led
somewhere before, nothing is created. Otherwise the document is as it was, but that the deepest element which
the path led to has a new child: a chain of new elements for what is missing of the path.
-/
theorem ensure_agrees_with_find (h : d.at? (start.getD []) = some container) (path : List String) :
    ∃ d' position log, d.ensure start path = .ok (d', position, log) ∧
      (d'.at? position).isSome = true ∧
      d'.find start path = .ok (some position, []) ∧
      d'.ensure start path = .ok (d', position, []) ∧
      (∀ there records, d.find start path = .ok (some there, records) → d' = d ∧ position = there) ∧
      ∀ records, d.find start path = .ok (none, records) →
        ∃ known name missing way deepest children,
          pathFrom start container path = known ++ name :: missing ∧
          container.locate known = some way ∧ d.at? (start.getD [] ++ way) = some deepest ∧
          deepest.child? name = none ∧ GainsChild (.chain name missing) deepest.children children ∧
          d' = d.setChildren (start.getD [] ++ way) children := by
  generalize hbelow : pathFrom start container path = below
  have hlocate := container.locate_ensure below
  obtain ⟨owner, howner, -⟩ := container.at?_ensure below
  have hat := at?_modifyAt (fun _ => (container.ensure below).element) h
  have hbelow' : pathFrom start (container.ensure below).element path = below :=
    (pathFrom_congr (Element.name_ensure container below) start path).trans hbelow
  refine ⟨_, _, _, by rw [ensure_eq h, hbelow], ?_, ?_, ?_, fun there records hfind => ?_,
    fun records hfind => ?_⟩
  · rw [at?_append hat, howner]
    rfl
  · rw [find_eq hat, hbelow', hlocate]
  · rw [ensure_eq hat, hbelow', Element.ensure_of_locate hlocate, modifyAt_const hat]
  · have hthere := ensure_of_find h hfind
    rw [ensure_eq h, hbelow, Except.ok.injEq, Prod.mk.injEq, Prod.mk.injEq] at hthere
    exact ⟨hthere.1, hthere.2.1⟩
  · rw [find_eq h, hbelow] at hfind
    split at hfind
    · cases hfind
    · next hnone =>
      obtain ⟨known, name, missing, way, deepest, children, hpath, hknown, hdeepest, hno, hgains, helement⟩ :=
        Element.exists_ensure_of_locate_none hnone
      refine ⟨known, name, missing, way, deepest, children, hpath, hknown, ?_, hno, hgains, ?_⟩
      · rw [at?_append h, hdeepest]
      · rw [helement, modifyAt_setAt h]

end

/-- A document with a section that has an entry, and a comment behind it. -/
def begun : Document :=
  { nodes := [(Element.ofName "project" [.text " ", (Element.ofName "build"
      [.text "-", (Element.ofName "id").toNode, .comment "last"]).toNode]).toNode] }

/--
The path begins with the name of the root and stops at the section. A chain of two comes in behind the entry,
not behind the comment, and not set off, since the text in the section is not blank.
-/
theorem ensure_agrees_with_find_begun :
    begun.at? ((none : Option Position).getD []) = begun.root? ∧ begun.root?.isSome = true ∧
      begun.find none ["project", "build", "plugins", "plugin"] =
        .ok (none, [notFoundRecord ["project", "build", "plugins", "plugin"]]) ∧
      ∃ d' position log,
        begun.ensure none ["project", "build", "plugins", "plugin"] = .ok (d', position, log) ∧
        d'.find none ["project", "build", "plugins", "plugin"] = .ok (some position, []) ∧
        d'.ensure none ["project", "build", "plugins", "plugin"] = .ok (d', position, []) ∧
        d' = begun.setChildren [0] [.text "-", (Element.ofName "id").toNode,
          (Element.ofName "plugins" [(Element.ofName "plugin").toNode]).toNode, .comment "last"] := by
  have hroot : begun.at? ((none : Option Position).getD []) = some _ := rfl
  have hmissing : begun.find none ["project", "build", "plugins", "plugin"] = .ok (none, [_]) := rfl
  obtain ⟨d', position, log, hensure, -, hfind, hagain, -, -⟩ :=
    ensure_agrees_with_find hroot ["project", "build", "plugins", "plugin"]
  have hresult : begun.ensure none ["project", "build", "plugins", "plugin"] = .ok (_, _, _) := rfl
  have hd : d' = _ := congrArg (·.1) (Except.ok.inj (hensure.symm.trans hresult))
  exact ⟨hroot, rfl, hmissing, d', position, log, hensure, hfind, hagain, hd⟩

end Document

end Manifest
