import Manifest.Proofs.Maintenance.Regeneration
import Manifest.Proofs.Section.Creation
import Mathlib.Logic.Relation

/-! A manifest that is made anew is its template, grown. It grows in steps of two kinds: a section that is
missing comes in behind the last child element of its parent, and entries that are carried over come into
a section in one block at its end. No step takes anything away or puts it in another order. -/

set_option autoImplicit false

namespace Manifest

open Manifest.Action (Gives)
open Relation (ReflTransGen)

/-! What is still there. -/

mutual

/-- Whether a node is still there in another one: the same, but that an element may have more children. -/
def Node.keptIn : Node → Node → Prop
  | .element tag children, .element tag' children' => tag = tag' ∧ keptInNodes children children'
  | a, b => a = b

/-- Whether some nodes are still there among others, in their order. -/
def keptInNodes : List Node → List Node → Prop
  | [], _ => True
  | _ :: _, [] => False
  | a :: as, b :: bs => a.keptIn b ∧ keptInNodes as bs ∨ keptInNodes (a :: as) bs

end

@[simp] theorem keptInNodes_nil (nodes : List Node) : keptInNodes [] nodes := by
  cases nodes <;> trivial

mutual

theorem Node.keptIn_refl (node : Node) : node.keptIn node := by
  cases node with
  | element tag children => exact ⟨rfl, keptInNodes_refl children⟩
  | _ => rfl

theorem keptInNodes_refl (nodes : List Node) : keptInNodes nodes nodes := by
  cases nodes with
  | nil => trivial
  | cons node rest => exact Or.inl ⟨node.keptIn_refl, keptInNodes_refl rest⟩

end

theorem keptInNodes_cons {a b : List Node} (node : Node) (h : keptInNodes a b) :
    keptInNodes a (node :: b) := by
  cases a with
  | nil => trivial
  | cons _ _ => exact Or.inr h

theorem keptInNodes_behind {a b : List Node} (more : List Node) (h : keptInNodes a b) :
    keptInNodes a (more ++ b) := by
  induction more with
  | nil => exact h
  | cons node more ih => exact keptInNodes_cons node ih

theorem keptInNodes_append {a b a' b' : List Node} (h : keptInNodes a b) (h' : keptInNodes a' b') :
    keptInNodes (a ++ a') (b ++ b') := by
  induction b generalizing a with
  | nil =>
    cases a with
    | nil => exact h'
    | cons _ _ => exact h.elim
  | cons node b ih =>
    cases a with
    | nil => exact keptInNodes_behind (node :: b) h'
    | cons first a =>
      rcases h with ⟨hnode, h⟩ | h
      · exact Or.inl ⟨hnode, ih h⟩
      · exact Or.inr (ih h)

mutual

theorem Node.keptIn_trans {a b c : Node} (hab : a.keptIn b) (hbc : b.keptIn c) : a.keptIn c := by
  cases c with
  | element tag children =>
    cases b with
    | element tag' children' =>
      cases a with
      | element tag'' children'' =>
        exact ⟨hab.1.trans hbc.1, keptInNodes_trans hab.2 hbc.2⟩
      | _ => cases hab
    | _ => cases hbc
  | _ =>
    cases b with
    | element tag' children' => cases hbc
    | _ => cases hbc <;> exact hab

theorem keptInNodes_trans {as bs cs : List Node} (hab : keptInNodes as bs)
    (hbc : keptInNodes bs cs) : keptInNodes as cs := by
  cases as with
  | nil => exact keptInNodes_nil cs
  | cons a as =>
    cases bs with
    | nil => exact hab.elim
    | cons b bs =>
      cases cs with
      | nil => exact hbc.elim
      | cons c cs =>
        rcases hbc with ⟨hnode, hrest⟩ | hrest
        · rcases hab with ⟨hnode', hrest'⟩ | hrest'
          · exact Or.inl ⟨Node.keptIn_trans hnode' hnode, keptInNodes_trans hrest' hrest⟩
          · exact Or.inr (keptInNodes_trans hrest' hrest)
        · exact Or.inr (keptInNodes_trans hab hrest)

end

/-- Where the children of an element are still there, its whole tree is. -/
theorem Element.keptIn_setAt {e x : Element} {position : Position} {children : List Node}
    (h : e.at? position = some x) (hx : keptInNodes x.children children) :
    e.toNode.keptIn (e.setAt position children).toNode := by
  induction position generalizing e with
  | nil =>
    cases h
    exact ⟨rfl, hx⟩
  | cons rank rest ih =>
    obtain ⟨front, c, back, he, hrank, hc⟩ := Element.at?_cons h
    rw [he, Element.setAt_cons hrank]
    exact ⟨rfl, keptInNodes_append (keptInNodes_refl front)
      (Or.inl ⟨ih hc, keptInNodes_refl back⟩)⟩

theorem Document.keptInNodes_setChildren {d : Document} {x : Element} {position : Position}
    {children : List Node} (h : d.at? position = some x) (hx : keptInNodes x.children children) :
    keptInNodes d.nodes (d.setChildren position children).nodes := by
  obtain ⟨root, hroot, hat⟩ := Document.at?_eq_some h
  rw [Document.setChildren_of_root hroot]
  have hset : ∀ nodes : List Node, (elementsOf nodes).head? = some root →
      keptInNodes nodes (Document.setFirstElement (root.setAt position children) nodes) := by
    intro nodes
    induction nodes with
    | nil => nofun
    | cons node rest ih =>
      intro hhead
      cases node with
      | element tag inner =>
        cases hhead
        exact Or.inl ⟨Element.keptIn_setAt hat hx, keptInNodes_refl rest⟩
      | _ => exact Or.inl ⟨rfl, ih hhead⟩
  exact hset d.nodes hroot

/-! Steps. -/

/--
Whether some nodes become others when a new child comes in: right behind the last element, with no more
than one blank text between, or at the very end if there is no element.
-/
inductive Appended (child : Element) : List Node → List Node → Prop where
  | behind {front tail gap : List Node} {last : Element} : elementsOf tail = [] →
      (gap = [] ∨ ∃ value, gap = [.text value] ∧ Text.isBlankText value = true) →
      Appended child (front ++ last.toNode :: tail)
        (front ++ last.toNode :: (gap ++ child.toNode :: tail))
  | alone {nodes : List Node} : elementsOf nodes = [] →
      Appended child nodes (nodes ++ [child.toNode])

/-- Whether a template grows in one step when a manifest is made anew from it and an existing one. -/
inductive Growth (existing : Document) : Document → Document → Prop where
  /-- What is missing on the way to a section that the existing manifest has comes in. -/
  | created {d : Document} {root parent : Element} {s : List String × Identity} {way rest : List String}
      {name : String} {position : Position} {children : List Node} :
      s ∈ Maintainer.keptSections → (existing.sectionAt? s.1).isSome = true →
      d.root? = some root → pathBelow root s.1 = way ++ name :: rest →
      root.locate way = some position → d.at? position = some parent →
      parent.child? name = none → Appended (.chain name rest) parent.children children →
      Growth existing d (d.setChildren position children)
  /-- Entries of a section of the existing manifest come in that no entry there is the same as. -/
  | carried {d : Document} {source owner : Element} {s : List String × Identity} {position : Position}
      {carried : List (List Node × Element)} :
      s ∈ Maintainer.keptSections → existing.sectionAt? s.1 = some source →
      d.locate none s.1 = .ok (some position) → d.at? position = some owner →
      carried.Sublist (approaches [] source.children) →
      (∀ x ∈ carried, ∀ e ∈ owner.elements, s.2.same e x.2 = false) →
      Growth existing d (d.setChildren position
        (withBlock owner.children (endPosition owner.children) (carried.flatMap carriedPiece)))

theorem Appended.keptInNodes {child : Element} {nodes result : List Node}
    (h : Appended child nodes result) : keptInNodes nodes result := by
  cases h with
  | behind htail hgap =>
    exact keptInNodes_append (keptInNodes_refl _) (Or.inl ⟨Node.keptIn_refl _,
      keptInNodes_behind _ (keptInNodes_cons _ (keptInNodes_refl _))⟩)
  | alone hnone =>
    have h := keptInNodes_append (keptInNodes_refl nodes) (keptInNodes_nil [child.toNode])
    rwa [List.append_nil] at h

theorem keptInNodes_withBlock (nodes : List Node) (index : Nat) (block : List Node) :
    keptInNodes nodes (withBlock nodes index block) := by
  have h := keptInNodes_append (keptInNodes_refl (nodes.take index))
    (keptInNodes_behind block (keptInNodes_refl (nodes.drop index)))
  rwa [List.take_append_drop] at h

/-- A step of growth takes nothing away and keeps the order. -/
theorem Growth.keptInNodes {existing d d' : Document} (h : Growth existing d d') :
    keptInNodes d.nodes d'.nodes := by
  cases h with
  | created _ _ _ _ _ hparent _ happended =>
    exact Document.keptInNodes_setChildren hparent happended.keptInNodes
  | carried _ _ _ howner _ _ =>
    exact Document.keptInNodes_setChildren howner (keptInNodes_withBlock _ _ _)

/-- However many steps it grows. -/
theorem keptInNodes_of_growth {existing d d' : Document} (h : ReflTransGen (Growth existing) d d') :
    keptInNodes d.nodes d'.nodes := by
  induction h with
  | refl => exact keptInNodes_refl _
  | tail _ hstep ih => exact keptInNodes_trans ih hstep.keptInNodes

/-! Keeping entries is growth. -/

/-- The white space that sets off a new child is one blank text at most. -/
theorem GainsChild.appended {child : Element} {nodes result : List Node} (h : GainsChild child nodes result) :
    Appended child nodes result := by
  cases h with
  | @behind front back last hnodes hback =>
    subst hnodes
    refine .behind hback ?_
    rw [firstWhite]
    cases hwhite : (List.find? Node.isBlank (front ++ last.toNode :: back)).filter
        fun node => !node.textValue.isEmpty with
    | none => exact Or.inl rfl
    | some node =>
      have hblank : node.isBlank = true := by
        simpa using List.find?_some (Option.filter_eq_some_iff.mp hwhite).1
      cases node with
      | text value => exact Or.inr ⟨value, rfl, hblank⟩
      | _ => cases hblank
  | alone hnone => exact .alone hnone

/-- Keeping the entries of one section is growth: the section comes in, then the entries. -/
theorem growth_keeping {existing d : Document} {root : Element} (h : d.root? = some root)
    {s : List String × Identity} (hs : s ∈ Maintainer.keptSections) :
    ReflTransGen (Growth existing) d (d.keeping s.1 s.2.same (existing.sectionAt? s.1)) := by
  cases hsource : existing.sectionAt? s.1 with
  | none =>
    rw [Document.keeping_none]
  | some source =>
    obtain ⟨owner, hat, hlocate, -, -⟩ := Element.at?_ensure root (pathBelow root s.1)
    have hroot' := Document.root?_withRoot d (root.ensure (pathBelow root s.1)).element (by simp [h])
    have hcreated : ReflTransGen (Growth existing) d
        (d.withRoot (root.ensure (pathBelow root s.1)).element) := by
      cases hlocate : root.locate (pathBelow root s.1) with
      | some position => rw [Element.ensure_of_locate hlocate, Document.withRoot_self h]
      | none =>
        obtain ⟨way, name, rest, position, parent, children, hpath, hway, hparent, hno, hgains, helement⟩ :=
          Element.exists_ensure_of_locate_none hlocate
        rw [helement, ← Document.setChildren_of_root h]
        exact .single (.created hs (by simp [hsource]) h hpath hway
          (by rw [Document.at?, h, Option.bind_some, hparent]) hno hgains.appended)
    have hbelow := pathBelow_congr (Element.name_ensure root (pathBelow root s.1)) s.1
    have hcarried : Growth existing (d.withRoot (root.ensure (pathBelow root s.1)).element)
        (d.keeping s.1 s.2.same (some source)) := by
      have hstep := @Growth.carried existing (d.withRoot (root.ensure (pathBelow root s.1)).element)
        source owner s (root.ensure (pathBelow root s.1)).position
        (carriedOf s.2.same source.children owner.children) hs hsource
        (by simp only [Document.locate, hroot', hbelow, hlocate])
        (by rw [Document.at?, hroot', Option.bind_some, hat]) (newcomers_sublist _ _)
        fun x hx e he => not_same_of_mem_newcomers hx he
      rw [Document.setChildren_of_root hroot', Document.withRoot_withRoot,
        ← (carry_eq s.2.same owner.name source.children owner.children).2] at hstep
      rw [Document.keeping_some h]
      -- what is carried into the section is what `Element.carrying` puts there
      rwa [Element.modifyAt_congr hat (g := fun e => { e with children :=
        (carry s.2.same owner.name source.children owner.children).children }) rfl]
    exact hcreated.tail hcarried

/-- Keeping the entries of several sections is growth. -/
theorem growth_keepingAll {existing d : Document} {root : Element} (h : d.root? = some root)
    {sections : List (List String × Identity)}
    (hsections : ∀ s ∈ sections, s ∈ Maintainer.keptSections) :
    ReflTransGen (Growth existing) d (Document.keepingAll existing d sections) := by
  induction sections generalizing d root with
  | nil => exact .refl
  | cons s sections ih =>
    obtain ⟨root', hroot', -⟩ :=
      Document.root?_keeping h s.1 s.2.same (existing.sectionAt? s.1)
    rw [Document.keepingAll, List.foldl_cons]
    exact (growth_keeping h (hsections s List.mem_cons_self)).trans
      (ih hroot' fun t ht => hsections t (List.mem_cons_of_mem s ht))

/-! Growth as a whole. -/

/--
Whether a section of a template has grown as it should: not at all if the existing document has no such
section, else by one block behind its last node that is not blank, of entries of the existing section
that none of its own is the same as, each with the comments right above it.
-/
def SectionGrown (t existing new : Document) (s : List String × Identity) : Prop :=
  match existing.sectionAt? s.1 with
  | none => new.sectionAt? s.1 = t.sectionAt? s.1
  | some source => ∃ (owner : Element) (carried : List (List Node × Element)),
      new.sectionAt? s.1 = some owner ∧
      carried.Sublist (approaches [] source.children) ∧
      (∀ x ∈ carried, ∀ e ∈ elementsOf (t.nodesAt s.1), s.2.same e x.2 = false) ∧
      owner.children = withBlock (t.nodesAt s.1) (endPosition (t.nodesAt s.1))
        (carried.flatMap carriedPiece)

theorem sectionGrown_of_continues {t existing new : Document} {s : List String × Identity}
    (h : Document.Continues s.2.same (existing.sectionAt? s.1) (t.sectionAt? s.1)
      (new.sectionAt? s.1)) : SectionGrown t existing new s := by
  rw [SectionGrown]
  cases hsource : existing.sectionAt? s.1 with
  | none =>
    rw [hsource] at h
    exact h
  | some source =>
    rw [hsource] at h
    obtain ⟨owner, hnew, hown⟩ := h
    have hnodes : t.nodesAt s.1 = owner.children := by
      rw [Document.nodesAt]
      rcases hown with hown | ⟨hown, hempty⟩
      · rw [hown]
        rfl
      · rw [hown, hempty]
        rfl
    refine ⟨_, carriedOf s.2.same source.children owner.children, hnew, newcomers_sublist _ _, ?_, ?_⟩
    · rw [hnodes]
      exact fun x hx e he => not_same_of_mem_newcomers hx he
    · rw [hnodes, Element.carrying]
      exact (carry_eq s.2.same owner.name source.children owner.children).2

/-- The entries of a section that has grown are its own and, behind them, some of the existing ones. -/
theorem SectionGrown.entriesAt {t existing new : Document} {s : List String × Identity}
    (h : SectionGrown t existing new s) :
    ∃ more, more.Sublist (existing.entriesAt s.1) ∧
      new.entriesAt s.1 = t.entriesAt s.1 ++ more := by
  rw [SectionGrown] at h
  split at h
  · exact ⟨[], List.nil_sublist _, by rw [Document.entriesAt, h, List.append_nil, Document.entriesAt]⟩
  · next source hsource =>
    obtain ⟨owner, carried, hnew, hsub, -, hchildren⟩ := h
    refine ⟨carried.map Prod.snd, ?_, ?_⟩
    · rw [Document.entriesAt, hsource, Option.map_some, Option.getD_some, Element.elements,
        ← map_snd_approaches []]
      exact hsub.map _
    · rw [Document.entriesAt, hnew, Option.map_some, Option.getD_some, Element.elements, hchildren,
        elementsOf_withBlock, ← t.elementsOf_nodesAt]
      simp

/--
Whether a document is a template that has grown by what was kept of an existing document: it comes about
in steps of growth, every section is as it should be, and all of the template is still there in its
order.
-/
structure Document.GrownFrom (new t existing : Document) : Prop where
  steps : ReflTransGen (Growth existing) t new
  sections : ∀ s ∈ Maintainer.keptSections, SectionGrown t existing new s
  kept : keptInNodes t.nodes new.nodes

/--
A manifest that is made anew from an existing one is its template, grown, with its leaves on one line if
so configured. The root of the template may not have the name of a section itself.
-/
theorem regenerate_grownFrom {m : Maintainer} {p : Path} {template : String} {w w' : World}
    {t x d : Document} {bytes : ByteArray}
    (ht : readText template (some (templateSource p)) = .ok t)
    (hroot : ∀ root ∈ t.root?, root.name ∉ crossingRoots)
    (hbytes : w.tree.read p = .ok bytes) (hx : readBytes bytes (some p.text) = .ok x)
    (hrun : Gives (m.regenerate p template) w d w') :
    ∃ new, d = m.settledDocument new ∧ new.GrownFrom t x := by
  obtain ⟨t', bytes', x', w₁, ht', hbytes', hx', -, hwrite⟩ :=
    Maintainer.gives_regenerate hrun (FileTree.has_of_read hbytes)
  rw [ht] at ht'
  rw [hbytes] at hbytes'
  cases ht'
  cases hbytes'
  rw [hx] at hx'
  cases hx'
  obtain ⟨root, hr⟩ := exists_root_of_readText ht
  have hsteps := @growth_keepingAll x t root hr Maintainer.keptSections fun s hs => hs
  refine ⟨_, (Maintainer.gives_write hwrite).1, hsteps, fun s hs => ?_,
    keptInNodes_of_growth hsteps⟩
  exact sectionGrown_of_continues
    (Document.continues_keepingAll hr (keptSections_part (hroot root hr)) hs)

/-- A manifest with one module. -/
def oneModule : String :=
  "<a><modules><module>x</module></modules></a>"

set_option maxRecDepth 10000 in
theorem regenerate_grownFrom_oneModule :
    ∃ t x w' d new, readText "<a/>" (some (templateSource ⟨["pom.xml"]⟩)) = .ok t ∧
      (∀ root ∈ t.root?, root.name ∉ crossingRoots) ∧
      (oneFile oneModule).tree.read ⟨["pom.xml"]⟩ = .ok oneModule.toUTF8 ∧
      readBytes oneModule.toUTF8 (some (Path.text ⟨["pom.xml"]⟩)) = .ok x ∧
      Gives (Maintainer.regenerate {} ⟨["pom.xml"]⟩ "<a/>") (oneFile oneModule) d w' ∧
      d = Maintainer.settledDocument {} new ∧ new.GrownFrom t x := by
  have ht := eq_ok_getD (readText "<a/>" (some (templateSource ⟨["pom.xml"]⟩))) {}
    (by decide +kernel)
  have hx := eq_ok_getD (readBytes oneModule.toUTF8 (some (Path.text ⟨["pom.xml"]⟩))) {}
    (by decide +kernel)
  have hroot : ∀ root ∈ ((readText "<a/>"
      (some (templateSource ⟨["pom.xml"]⟩))).toOption.getD {}).root?, root.name ∉ crossingRoots := by
    decide +kernel
  have hrun := Action.gives_resultD (a := Maintainer.regenerate {} ⟨["pom.xml"]⟩ "<a/>")
    (w := oneFile oneModule) {} (by decide +kernel)
  obtain ⟨new, hnew, hgrown⟩ := regenerate_grownFrom ht hroot rfl hx hrun
  exact ⟨_, _, _, _, new, ht, hroot, rfl, hx, hrun, hnew, hgrown⟩

/-- A manifest whose root has the name of a section, and in which another section is an entry. -/
def modulesRoot : String :=
  "<modules><dependencies><x/></dependencies></modules>"

set_option maxRecDepth 10000 in
/--
The entry comes into the root, which is the section for modules, and then grows itself, as it is the
section for dependencies: there is no such entry in the existing manifest.
-/
theorem modulesRoot_not_grown :
    ∃ t x w' d, readText "<modules/>" (some (templateSource ⟨["pom.xml"]⟩)) = .ok t ∧
      (oneFile modulesRoot).tree.read ⟨["pom.xml"]⟩ = .ok modulesRoot.toUTF8 ∧
      readBytes modulesRoot.toUTF8 (some (Path.text ⟨["pom.xml"]⟩)) = .ok x ∧
      Gives (Maintainer.regenerate {} ⟨["pom.xml"]⟩ "<modules/>") (oneFile modulesRoot) d w' ∧
      ¬ ∃ new, d = Maintainer.settledDocument {} new ∧ new.GrownFrom t x := by
  have ht := eq_ok_getD (readText "<modules/>" (some (templateSource ⟨["pom.xml"]⟩))) {}
    (by decide +kernel)
  have hx := eq_ok_getD (readBytes modulesRoot.toUTF8 (some (Path.text ⟨["pom.xml"]⟩))) {}
    (by decide +kernel)
  have hrun := Action.gives_resultD (a := Maintainer.regenerate {} ⟨["pom.xml"]⟩ "<modules/>")
    (w := oneFile modulesRoot) {} (by decide +kernel)
  refine ⟨_, _, _, _, ht, rfl, hx, hrun, fun ⟨new, hnew, hgrown⟩ => ?_⟩
  obtain ⟨more, hsub, hentries⟩ :=
    (hgrown.sections (["modules"], .module) (by decide)).entriesAt
  -- the entry has two entries of its own now, and each of the existing ones has one
  have hone : ∀ e ∈ ((readBytes modulesRoot.toUTF8
      (some (Path.text ⟨["pom.xml"]⟩))).toOption.getD {}).entriesAt ["modules"],
      e.elements.length = 1 := by
    decide +kernel
  have htwo : (((Maintainer.regenerate {} ⟨["pom.xml"]⟩ "<modules/>").resultD
      (oneFile modulesRoot) {}).entriesAt ["modules"]).map (·.elements.length) = [2] := by
    decide +kernel
  have hnone : ((readText "<modules/>" (some (templateSource ⟨["pom.xml"]⟩))).toOption.getD
      {}).entriesAt ["modules"] = [] := by
    rw [← List.length_eq_zero_iff]
    decide +kernel
  rw [hnew, Maintainer.entriesAt_settledDocument, hentries, hnone, List.nil_append, List.map_map,
    List.map_eq_singleton_iff] at htwo
  obtain ⟨e, rfl, hlength⟩ := htwo
  have he := hone e (hsub.subset List.mem_cons_self)
  rw [Function.comp, Maintainer.elements_settled, List.length_map, he] at hlength
  cases hlength

end Manifest
