import Manifest.Proofs.Document.Changed
import Manifest.Proofs.Document.RoundTrip
import Manifest.Proofs.Maintenance.Keeping
import Manifest.Proofs.Merge.Removal
import Manifest.Proofs.Merge.Rerun
import Manifest.Proofs.Merge.Run
import Manifest.Proofs.Traversal

/-! Documents that are edited. No two texts stand side by side in what was read. Any number of merges,
new sections, properties and leaves that are put on one line leave it so, as long as no entries are removed
from between two texts; what is written for the document in the end is then read as that document. -/

set_option autoImplicit false

namespace Manifest

/-- A change of a document. -/
inductive Edit where
  | add (place : Position) (same : Match) (anchor : Option (Element → Bool)) (candidates : List Element)
  | remove (place : Position) (same : List Match) (candidates : List Element)
  | insert (place : Position) (anchor : Element → Bool) (entry : Element)
  /-- Takes entries over from the section of another document, if there is one. -/
  | carry (place : Position) (same : Match) (source : Option Element)
  /-- Takes entries over from a section of the same document. -/
  | carryWithin (place : Position) (same : Match) (source : Option Position)
  | refresh (place : Position) (renewal : Renewal)
  | ensure (start : Option Position) (path : List String)
  | setProperty (name value : String)
  | collapse (place : Position)

namespace Edit

/-- The document after an edit. -/
def run (d : Document) : Edit → Except SectionError Document
  | .add place same anchor candidates =>
    (d.addMissing (some place) same anchor candidates).map Prod.fst
  | .remove place same candidates => (d.removeMatching (some place) same candidates).map Prod.fst
  | .insert place anchor entry => (d.insertAfter (some place) anchor entry).map Prod.fst
  | .carry place same source => (d.carry (some place) same source).map Prod.fst
  | .carryWithin place same source => (d.carryWithin (some place) same source).map Prod.fst
  | .refresh place renewal => (d.refresh (some place) renewal).map Prod.fst
  | .ensure start path => (d.ensure start path).map Prod.fst
  | .setProperty name value => (d.setProperty name value).map (·.document)
  | .collapse place =>
    match d.at? place with
    | none => .error .absent
    | some _ => .ok (d.modifyAt Element.collapse place)

/-- The elements that an edit may put into a document, or parts of them. -/
def supplied : Edit → List Element
  | .add _ _ _ candidates => candidates
  | .insert _ _ entry => [entry]
  | .carry _ _ source => source.toList
  | .refresh _ renewal => renewal.candidates
  | _ => []

/-- The names of the elements that an edit may create. -/
def names : Edit → List String
  | .ensure _ path => path
  | .setProperty name _ => ["properties", name]
  | _ => []

/-- Whether an edit removes entries from between two texts. -/
def joinsTexts (d : Document) : Edit → Prop
  | .remove place same candidates => textsMeet (isNamed same candidates) (d.childrenAt place)
  | .refresh place renewal => textsMeet renewal.unwanted (d.childrenAt place)
  | _ => False

end Edit

/-- The document after some edits. -/
def runEdits (d : Document) : List Edit → Except SectionError Document
  | [] => .ok d
  | edit :: edits =>
    match edit.run d with
    | .error e => .error e
    | .ok d' => runEdits d' edits

/-- Whether one of some edits removes entries from between two texts. -/
def joinTextsAlong (d : Document) : List Edit → Prop
  | [] => False
  | edit :: edits => edit.joinsTexts d ∨ ∃ d', edit.run d = .ok d' ∧ joinTextsAlong d' edits

/-- Whether an element was made by a builder, or is part of a document that was read. -/
inductive Element.IsSupplied : Element → Prop where
  | read {contents : Xml.Contents} {d : Document} {position : Position} {e : Element} :
      d.HasRead contents → d.at? position = some e → IsSupplied e
  | leaf (name value : String) : IsSupplied (.leaf name value)
  | coordinates (kind group artifact : String) (version : Option String) :
      IsSupplied (.coordinates kind group artifact version)
  | dependency (group artifact : String) (version type scope : Option String) :
      IsSupplied (.dependency group artifact version type scope)
  | withVersion (e : Element) (version : String) : e.IsSupplied → IsSupplied (e.withVersion version)

/-- Whether no two texts stand side by side in a document. -/
def Document.textsApart (d : Document) : Prop :=
  textsApartIn d.nodes

/-! What was read. -/

mutual

theorem Node.textsApart_of_readIn {outer : Xml.Scope} (node : Node) (h : node.readIn outer) :
    node.textsApart := by
  cases node with
  | element tag children =>
    obtain ⟨⟨_, _, _, _, _, _, hchildren⟩, ha⟩ := h
    exact ⟨ha, textsApartIn_of_readsIn children hchildren⟩
  | _ => trivial

theorem textsApartIn_of_readsIn {outer : Xml.Scope} (nodes : List Node)
    (h : readsIn outer nodes) : textsApartIn nodes := by
  cases nodes with
  | nil => trivial
  | cons node rest => exact ⟨node.textsApart_of_readIn h.1, textsApartIn_of_readsIn rest h.2⟩

end

theorem textsApart_root {d : Document} (hd : d.textsApart) {root : Element} (hroot : d.root? = some root) :
    root.toNode.textsApart := by
  obtain ⟨node, hn, he⟩ := List.mem_filterMap.mp (List.mem_of_mem_head? hroot)
  rw [Element.toNode_of_element? he]
  exact textsApartIn_iff.mp hd node hn

theorem Element.IsSupplied.textsApart {e : Element} (h : e.IsSupplied) : e.toNode.textsApart := by
  induction h with
  | read hread hat =>
    obtain ⟨root, hroot, hat⟩ := Document.at?_eq_some hat
    exact shape_textsApart.at? hat (textsApart_root (textsApartIn_of_readsIn _ hread.readsIn) hroot)
  | leaf name value => exact shape_textsApart.leaf trivial value
  | coordinates kind group artifact version =>
    exact shape_textsApart.coordinates (fun _ _ => trivial) trivial _ _ _
  | dependency group artifact version type scope =>
    exact shape_textsApart.dependency (fun _ _ => trivial) _ _ _ _ _
  | withVersion e version _ ih => exact shape_textsApart.withVersion trivial ih version

/-! What an edit does to the children of an element. -/

/-- Whether nodes can be the children of an element that has a property. -/
def fits (good : Node → Prop) (nodes : List Node) : Prop :=
  apart nodes ∧ ∀ node ∈ nodes, good node

section
variable {good : Node → Prop} {nodes new : List Node}

theorem fits_insertNodes (h : fits good nodes) (hnew : ∀ node ∈ new, node.isText = false ∧ good node)
    (index : Nat) : fits good (insertNodes new index nodes) := by
  refine ⟨apart_insertNodes h.1 (fun node hn => (hnew node hn).1) index, fun node hn => ?_⟩
  rcases mem_insertNodes hn with hn | hn
  · exact (hnew node hn).2
  · exact h.2 node hn

theorem fits_withBlock (h : fits good nodes) {block : List Element} (hblock : ∀ e ∈ block, good e.toNode)
    (index : Nat) : fits good (withBlock nodes index (block.map Element.toNode)) :=
  fits_insertNodes h (List.forall_mem_map.mpr fun e he => ⟨rfl, hblock e he⟩) index

theorem fits_addMissing {candidates : List Element} (hcandidates : ∀ c ∈ candidates, good c.toNode)
    (same : Match) (anchor : Option (Element → Bool)) (owner : String) (h : fits good nodes) :
    fits good (addMissing same anchor owner candidates nodes).children := by
  rw [(addMissing_eq same anchor owner candidates nodes).2]
  exact fits_withBlock h (fun e he => hcandidates e ((newcomers_sublist _ _).subset he)) _

theorem fits_removeFrom {unwanted : Element → Bool} (owner : String) (h : fits good nodes)
    (hmeet : ¬ textsMeet unwanted nodes) : fits good (removeFrom unwanted owner [] nodes).children :=
  ⟨(apart_removeFrom_iff owner h.1).mpr hmeet,
    fun node hn => h.2 node ((removeFrom_spec unwanted owner [] nodes).1.subset hn)⟩

theorem fits_refresh {r : Renewal} (hcandidates : ∀ c ∈ r.candidates, good c.toNode) (owner : String)
    (h : fits good nodes) (hmeet : ¬ textsMeet r.unwanted nodes) :
    fits good (refresh r owner nodes).children := by
  rw [children_refresh]
  exact fits_withBlock (fits_removeFrom "" h hmeet)
    (fun e he => hcandidates e ((block_sublist r nodes).subset he)) _

theorem mem_of_splitAtRank {rank : Nat} {before : List Node} {entry : Element}
    (h : splitAtRank rank nodes = some (before, entry)) :
    entry.toNode ∈ nodes ∧ ∀ node ∈ before, node ∈ nodes := by
  induction nodes generalizing rank before with
  | nil => cases h
  | cons node rest ih =>
    have hbehind : ∀ rank', (splitAtRank rank' rest).map (fun x => (node :: x.1, x.2)) =
        some (before, entry) → entry.toNode ∈ node :: rest ∧ ∀ x ∈ before, x ∈ node :: rest := by
      intro rank' hsome
      obtain ⟨⟨front, e⟩, hfront, heq⟩ := Option.map_eq_some_iff.mp hsome
      cases heq
      obtain ⟨hentry, hmem⟩ := ih hfront
      refine ⟨List.mem_cons_of_mem _ hentry, List.forall_mem_cons.mpr ⟨List.mem_cons_self, ?_⟩⟩
      exact fun x hx => List.mem_cons_of_mem _ (hmem x hx)
    rw [splitAtRank.eq_def] at h
    dsimp only at h
    split at h
    · next e he =>
      cases h
      exact ⟨Element.toNode_of_element? he ▸ List.mem_cons_self, List.forall_mem_nil _⟩
    · exact hbehind _ h
    · exact hbehind _ h

theorem isText_of_isComment {node : Node} (h : node.isComment = true) : node.isText = false := by
  cases node <;> first | rfl | cases h

/-- What is carried over stands in the source. -/
theorem fits_carryRank {source : List Node} (hsource : ∀ node ∈ source, good node) (same : Match)
    (owner : String) {s : Change} (h : fits good s.children) (rank : Nat) :
    fits good (s.carryRank same owner source rank).children := by
  rw [Change.carryRank]
  split
  · exact h
  · next before entry hsplit =>
    obtain ⟨hentry, hbefore⟩ := mem_of_splitAtRank hsplit
    rw [Change.carry]
    split
    · exact h
    · refine fits_insertNodes h (fun node hn => ?_) _
      rcases List.mem_append.mp hn with hn | hn
      · refine ⟨isText_of_isComment (isComment_of_mem_leadingComments hn), hsource node (hbefore node ?_)⟩
        rw [leadingComments, List.mem_reverse] at hn
        exact List.mem_reverse.mp ((List.takeWhile_sublist _).subset (List.mem_filter.mp hn).1)
      · rw [List.mem_singleton.mp hn]
        exact ⟨rfl, hsource _ hentry⟩

theorem fits_carry {source : List Node} (hsource : ∀ node ∈ source, good node) (same : Match)
    (owner : String) (h : fits good nodes) : fits good (carry same owner source nodes).children := by
  rw [carry]
  generalize List.range (elementsOf source).length = ranks
  suffices hfold : ∀ s : Change, fits good s.children →
      fits good (ranks.foldl (Change.carryRank same owner source) s).children from hfold _ h
  induction ranks with
  | nil => exact fun _ hs => hs
  | cons rank ranks ih => exact fun s hs => ih _ (fits_carryRank hsource same owner hs rank)

end

/-! What an edit does to a document. -/

/-- Whether a document is another one with a root of a given name that has a property. -/
def Document.Rerooted (good : Node → Prop) (d : Document) (name : String) (d' : Document) : Prop :=
  ∃ root : Element, d' = d.withRoot root ∧ root.name = name ∧ good root.toNode

section
variable {good : Node → Prop} {tag : Tag → Prop} {d d' d'' : Document} {root : Element}

theorem Document.rerooted_self (hroot : d.root? = some root) (hgood : good root.toNode) :
    d.Rerooted good root.name d :=
  ⟨root, (withRoot_self hroot).symm, rfl, hgood⟩

theorem Document.Rerooted.root? {name : String} (h : d.Rerooted good name d')
    (hroot : d.root? = some root) :
    ∃ new : Element, d'.root? = some new ∧ new.name = name ∧ good new.toNode := by
  obtain ⟨new, rfl, hname, hgood⟩ := h
  exact ⟨new, root?_withRoot d new (by rw [hroot]; rfl), hname, hgood⟩

theorem Document.Rerooted.trans {name : String} (h : d.Rerooted good name d')
    (h' : d'.Rerooted good name d'') : d.Rerooted good name d'' := by
  obtain ⟨e, rfl, -, -⟩ := h
  obtain ⟨e', rfl, hname, hgood⟩ := h'
  exact ⟨e', withRoot_withRoot d e e', hname, hgood⟩

theorem mem_of_mem_pathBelow {path : List String} {name : String} (hn : name ∈ pathBelow root path) :
    name ∈ path := by
  cases path with
  | nil => cases hn
  | cons first rest =>
    rw [pathBelow] at hn
    split at hn
    · exact List.mem_cons_of_mem _ hn
    · exact hn

namespace Shape

variable (h : Shape good tag)
include h

theorem rerooted_modifyAt {f : Element → Element} (hf : ∀ x : Element, good x.toNode → good (f x).toNode)
    (hname : ∀ x, (f x).name = x.name) (hroot : d.root? = some root) (hgood : good root.toNode)
    (place : Position) : d.Rerooted good root.name (d.modifyAt f place) := by
  refine ⟨root.modifyAt f place, ?_, Element.name_modifyAt hname place root, h.modifyAt hf place hgood⟩
  rw [Document.modifyAt, hroot]

theorem rerooted_onSection {α : Type} {place : Position} {work : Element → α} {children : α → List Node}
    {result : α} (hrun : d.onSection (some place) work children = .ok (d', result))
    (hwork : ∀ owner, d.at? place = some owner → fits good owner.children →
      fits good (children (work owner)))
    (hroot : d.root? = some root) (hgood : good root.toNode) : d.Rerooted good root.name d' := by
  obtain ⟨owner, howner, rfl, rfl⟩ := Document.onSection_eq_ok hrun
  obtain ⟨root', hroot', hat⟩ := Document.at?_eq_some howner
  rw [hroot] at hroot'
  cases hroot'
  obtain ⟨ha, hc⟩ := hwork owner howner ((h.element_iff owner).mp (h.at? hat hgood)).2
  rw [Document.setChildren_of_root hroot]
  exact ⟨_, rfl, Document.name_setAt _ _ _, h.setAt hgood ha hc⟩

theorem rerooted_ensure {start : Option Position} {path : List String} {position : Position}
    {log : List Record} (hrun : d.ensure start path = .ok (d', position, log))
    (hpath : ∀ name ∈ path, tag (Tag.ofName name)) (hroot : d.root? = some root)
    (hgood : good root.toNode) : d.Rerooted good root.name d' := by
  rw [Document.ensure, hroot] at hrun
  cases start with
  | none =>
    cases hrun
    exact ⟨_, rfl, Element.name_ensure _ _,
      h.ensure (fun name hn => hpath name (mem_of_mem_pathBelow hn)) hgood⟩
  | some start =>
    cases hat : root.at? start with
    | none => simp [hat] at hrun
    | some e =>
      simp only [hat, Except.ok.injEq, Prod.mk.injEq] at hrun
      obtain ⟨rfl, -, -⟩ := hrun
      rw [Document.modifyAt, hroot]
      -- the element at the start is changed to what `ensure` makes of it
      have hsame := Element.modifyAt_congr hat (f := fun _ => (e.ensure path).element)
        (g := fun x => (x.ensure path).element) rfl
      dsimp only
      rw [hsame]
      exact ⟨_, rfl, Element.name_modifyAt (fun x => Element.name_ensure x path) _ _,
        h.modifyAt (fun x hx => h.ensure hpath hx) _ hgood⟩

/-- The source of each entry is read from the document as it is when the entry's turn comes. -/
theorem rerooted_foldl_carryRankWithin (hroot : d.root? = some root) (same : Match)
    (target source : Position) (ranks : List Nat) {s : Document × Change}
    (hs : d.Rerooted good root.name s.1) :
    d.Rerooted good root.name (ranks.foldl (Document.carryRankWithin same target source) s).1 := by
  induction ranks generalizing s with
  | nil => exact hs
  | cons rank ranks ih =>
    refine ih ?_
    rw [Document.carryRankWithin]
    split
    · next target' source' hto hfrom =>
      obtain ⟨new, hnew, hname, hgood⟩ := hs.root? hroot
      obtain ⟨root', hroot', hatTo⟩ := Document.at?_eq_some hto
      obtain ⟨root'', hroot'', hatFrom⟩ := Document.at?_eq_some hfrom
      rw [hnew] at hroot' hroot''
      cases hroot'
      cases hroot''
      obtain ⟨-, -, hsource⟩ := (h.element_iff source').mp (h.at? hatFrom hgood)
      have hfits := @fits_carryRank good source'.children hsource same target'.name
        { s.2 with children := target'.children } ((h.element_iff target').mp (h.at? hatTo hgood)).2 rank
      dsimp only
      rw [Document.setChildren_of_root hnew]
      exact hs.trans ⟨_, rfl, (Document.name_setAt _ _ _).trans hname, h.setAt hgood hfits.1 hfits.2⟩
    · exact hs

theorem rerooted_carryWithin {place : Position} {same : Match} {source : Option Position} {change : Change}
    (hrun : d.carryWithin (some place) same source = .ok (d', change)) (hroot : d.root? = some root)
    (hgood : good root.toNode) : d.Rerooted good root.name d' := by
  have hself := Document.rerooted_self hroot hgood
  cases howner : d.at? place with
  | none => simp [Document.carryWithin, howner] at hrun
  | some owner =>
    have hstays : ∀ x : Document × Change, x.1 = d → x = (d', change) → d.Rerooted good root.name d' := by
      rintro _ hx rfl
      exact hx ▸ hself
    cases source with
    | none =>
      simp only [Document.carryWithin, Option.bind_some, howner, Except.ok.injEq] at hrun
      exact hstays _ rfl hrun
    | some position =>
      cases helement : d.at? position with
      | none =>
        simp only [Document.carryWithin, Option.bind_some, howner, helement, Except.ok.injEq] at hrun
        exact hstays _ rfl hrun
      | some element =>
        simp only [Document.carryWithin, Option.bind_some, howner, helement, Except.ok.injEq] at hrun
        have hall := h.rerooted_foldl_carryRankWithin hroot same place position
          (List.range element.elements.length) (s := (d, { children := owner.children })) hself
        rwa [hrun] at hall

theorem rerooted_setProperty {name value : String} {set : Document.PropertySet}
    (hrun : d.setProperty name value = .ok set)
    (hnames : ∀ x ∈ ["properties", name], tag (Tag.ofName x)) (hroot : d.root? = some root)
    (hgood : good root.toNode) : d.Rerooted good root.name set.document := by
  rw [Document.setProperty, ok_bind_iff] at hrun
  obtain ⟨⟨d₁, position, log⟩, hensure, hrun⟩ := hrun
  have hensured := h.rerooted_ensure hensure (fun x hx => hnames x (by simp_all)) hroot hgood
  obtain ⟨new, hnew, hname, hgoodNew⟩ := hensured.root? hroot
  dsimp only at hrun
  split at hrun
  · split at hrun
    · cases hrun
      exact hensured
    · cases hrun
      refine hensured.trans (hname ▸ ?_)
      exact h.rerooted_modifyAt (fun x hx => h.withText hx value) (fun x => rfl) hnew hgoodNew _
  · rw [ok_bind_iff] at hrun
    obtain ⟨⟨d₂, change⟩, hadd, hrun⟩ := hrun
    cases hrun
    have hproperty : good ((Element.ofName name).withText value).toNode :=
      h.withText (h.ofName (hnames name (by simp)) .nil nofun) value
    refine hensured.trans (hname ▸ ?_)
    exact h.rerooted_onSection hadd (fun owner _ hfits => fits_addMissing (by simpa using hproperty) _ _ _ hfits)
      hnew hgoodNew

/-- An edit keeps the property, if what it puts in has it and no texts are joined. -/
theorem rerooted_run {edit : Edit} (hrun : edit.run d = .ok d')
    (hsupplied : ∀ e ∈ edit.supplied, good e.toNode) (hnames : ∀ name ∈ edit.names, tag (Tag.ofName name))
    (hjoins : ¬ edit.joinsTexts d) (hroot : d.root? = some root) (hgood : good root.toNode) :
    d.Rerooted good root.name d' := by
  cases edit with
  | add place same anchor candidates =>
    obtain ⟨⟨_, change⟩, hwork, rfl⟩ := map_eq_ok.mp hrun
    exact h.rerooted_onSection hwork (fun owner _ => fits_addMissing hsupplied _ _ _) hroot hgood
  | remove place same candidates =>
    obtain ⟨⟨_, change⟩, hwork, rfl⟩ := map_eq_ok.mp hrun
    refine h.rerooted_onSection hwork (fun owner howner hfits => ?_) hroot hgood
    rw [Edit.joinsTexts, Document.childrenAt, howner] at hjoins
    exact fits_removeFrom _ hfits hjoins
  | insert place anchor entry =>
    obtain ⟨⟨_, change⟩, hwork, rfl⟩ := map_eq_ok.mp hrun
    refine h.rerooted_onSection hwork (fun owner _ hfits => ?_) hroot hgood
    exact fits_insertNodes hfits (by simpa using ⟨rfl, hsupplied entry (by simp [Edit.supplied])⟩) _
  | carry place same source =>
    obtain ⟨⟨_, change⟩, hwork, rfl⟩ := map_eq_ok.mp hrun
    refine h.rerooted_onSection hwork (fun owner _ hfits => ?_) hroot hgood
    cases source with
    | none => exact hfits
    | some source =>
      have hsource := hsupplied source (by simp [Edit.supplied])
      exact fits_carry ((h.element_iff source).mp hsource).2.2 _ _ hfits
  | carryWithin place same source =>
    obtain ⟨⟨_, change⟩, hwork, rfl⟩ := map_eq_ok.mp hrun
    exact h.rerooted_carryWithin hwork hroot hgood
  | refresh place renewal =>
    obtain ⟨⟨_, result⟩, hwork, rfl⟩ := map_eq_ok.mp hrun
    refine h.rerooted_onSection hwork (fun owner howner hfits => ?_) hroot hgood
    rw [Edit.joinsTexts, Document.childrenAt, howner] at hjoins
    exact fits_refresh hsupplied _ hfits hjoins
  | ensure start path =>
    obtain ⟨⟨_, position, log⟩, hwork, rfl⟩ := map_eq_ok.mp hrun
    exact h.rerooted_ensure hwork hnames hroot hgood
  | setProperty name value =>
    obtain ⟨set, hwork, rfl⟩ := map_eq_ok.mp hrun
    exact h.rerooted_setProperty hwork hnames hroot hgood
  | collapse place =>
    rw [Edit.run] at hrun
    split at hrun
    · cases hrun
    · cases hrun
      exact h.rerooted_modifyAt h.collapse Element.name_collapse hroot hgood place

/-- Some edits keep the property, if what they put in has it and no texts are joined on the way. -/
theorem rerooted_runEdits {edits : List Edit} (hrun : runEdits d edits = .ok d')
    (hsupplied : ∀ edit ∈ edits, ∀ e ∈ edit.supplied, good e.toNode)
    (hnames : ∀ edit ∈ edits, ∀ name ∈ edit.names, tag (Tag.ofName name))
    (hjoins : ¬ joinTextsAlong d edits) (hroot : d.root? = some root) (hgood : good root.toNode) :
    d.Rerooted good root.name d' := by
  induction edits generalizing d root with
  | nil =>
    cases hrun
    exact Document.rerooted_self hroot hgood
  | cons edit edits ih =>
    rw [runEdits] at hrun
    rw [joinTextsAlong, not_or] at hjoins
    split at hrun
    · cases hrun
    · next d₁ hfirst =>
      have hstep := h.rerooted_run hfirst (hsupplied edit (by simp)) (hnames edit (by simp)) hjoins.1
        hroot hgood
      obtain ⟨new, hnew, hname, hgoodNew⟩ := hstep.root? hroot
      have hrest := ih hrun (fun x hx => hsupplied x (by simp [hx])) (fun x hx => hnames x (by simp [hx]))
        (fun hlater => hjoins.2 ⟨d₁, hfirst, hlater⟩) hnew hgoodNew
      exact hstep.trans (hname ▸ hrest)

end Shape

theorem Document.Rerooted.isOrdinary {contents : Xml.Contents} (h : d.Rerooted Node.ordinary root.name d')
    (hd : d.IsOrdinary contents) (hroot : d.root? = some root) : d'.IsOrdinary contents := by
  obtain ⟨new, rfl, hname, hgood⟩ := h
  exact hd.withRoot hroot hgood hname

theorem Document.Rerooted.textsApart {name : String} (h : d.Rerooted Node.textsApart name d')
    (hd : d.textsApart) : d'.textsApart := by
  obtain ⟨new, rfl, -, hgood⟩ := h
  refine textsApartIn_iff.mpr fun node hn => ?_
  rcases mem_setFirstElement hn with rfl | hn
  · exact hgood
  · exact textsApartIn_iff.mp hd node hn

/-- A removal keeps texts apart exactly where it does not bring two of them together. -/
theorem Document.textsApart_remove_iff (hd : d.textsApart) {place : Position} {same : List Match}
    {candidates : List Element} (hrun : (Edit.remove place same candidates).run d = .ok d') :
    d'.textsApart ↔ ¬ textsMeet (isNamed same candidates) (d.childrenAt place) := by
  have hremove := hrun
  obtain ⟨⟨_, change⟩, hwork, rfl⟩ := map_eq_ok.mp hremove
  obtain ⟨owner, howner, rfl, hafter⟩ := onSection_eq_ok hwork
  obtain ⟨root, hroot, hat⟩ := at?_eq_some howner
  obtain ⟨-, ha, -⟩ := (shape_textsApart.element_iff owner).mp
    (shape_textsApart.at? hat (textsApart_root hd hroot))
  constructor
  · intro hd'
    have hat' := at?_setChildren (Manifest.removeMatching same owner.name candidates owner.children).children howner
    obtain ⟨root', hroot', hat'⟩ := at?_eq_some hat'
    have hapart := shape_textsApart.at? hat' (textsApart_root (hafter ▸ hd') hroot')
    rw [childrenAt, howner]
    exact (apart_removeFrom_iff owner.name ha).mp ((shape_textsApart.element_iff _).mp hapart).2.1
  · intro hmeet
    exact (shape_textsApart.rerooted_run hrun (List.forall_mem_nil _) (List.forall_mem_nil _) hmeet hroot (textsApart_root hd hroot)).textsApart
      hd

end

/--
Whether an element was made by a builder or read from markup, or is part of a document that was read, and
no entity brought a carriage return into a comment or an instruction of that document.
-/
def Element.IsPlain (e : Element) : Prop :=
  e.IsMade ∨ ∃ (contents : Xml.Contents) (d : Document) (position : Position),
    d.HasRead contents ∧ calmAll d.nodes ∧ d.at? position = some e

theorem Element.IsPlain.ordinary {e : Element} (h : e.IsPlain) : e.toNode.ordinary := by
  rcases h with h | ⟨contents, d, position, hread, hcalm, hat⟩
  · exact h.ordinary
  · exact (hread.isOrdinary_of_calm hcalm).ordinary_at? hat

/--
No two texts stand side by side in a document that was read, nor after any number of edits none of which
removes entries from between two texts. A removal from such a document keeps it so exactly when it does not
bring two texts together either. What is written for the document then is read as that document exactly when
its front and its depth let it be read.
-/
theorem Document.HasRead.textsApart_runEdits {contents : Xml.Contents} {d : Document}
    (h : d.HasRead contents) :
    d.textsApart ∧ ∀ (edits : List Edit) (d' : Document),
      (∀ edit ∈ edits, ∀ e ∈ edit.supplied, e.IsSupplied) → runEdits d edits = .ok d' →
      ¬ joinTextsAlong d edits →
      d'.textsApart ∧
      (∀ (place : Position) (same : List Match) (candidates : List Element) (d'' : Document),
        (Edit.remove place same candidates).run d' = .ok d'' →
        (d''.textsApart ↔ ¬ textsMeet (isNamed same candidates) (d'.childrenAt place))) ∧
      (calmAll d.nodes → (∀ edit ∈ edits, ∀ e ∈ edit.supplied, e.IsPlain) →
        (∀ edit ∈ edits, ∀ name ∈ edit.names, isPlainName name) →
        ∀ (style : Style) (s : String) (source : Option String), style.indent.isWhite = true →
          d'.render style = .ok s →
          ((∃ d₂, readText s source = .ok d₂ ∧ d₂.same d' = true) ↔ d'.CanBeRead contents style)) := by
  have hd : d.textsApart := textsApartIn_of_readsIn _ h.readsIn
  refine ⟨hd, fun edits d' hsupplied hrun hjoins => ?_⟩
  obtain ⟨cs, encoding, hcontents, -, hdocument⟩ := h.documentOf_eq
  obtain ⟨root, hroot⟩ := Option.isSome_iff_exists.mp (isSome_root?_of_readDocument hcontents encoding)
  rw [← hdocument] at hroot
  have hd' : d'.textsApart := (shape_textsApart.rerooted_runEdits hrun
    (fun edit hedit e he => (hsupplied edit hedit e he).textsApart) (fun _ _ _ _ => trivial) hjoins hroot
    (textsApart_root hd hroot)).textsApart hd
  refine ⟨hd', fun place same candidates d'' => textsApart_remove_iff hd', ?_⟩
  intro hcalm hplain hnames style s source hwhite hs
  have hordinary := h.isOrdinary_of_calm hcalm
  have hrerooted := shape_ordinary.rerooted_runEdits hrun
    (fun edit hedit e he => (hplain edit hedit e he).ordinary)
    (fun edit hedit name hn => ordinary_tag_ofName (hnames edit hedit name hn)) hjoins hroot
    (hordinary.root hroot).1
  exact (hrerooted.isOrdinary hordinary hroot).readText_same_iff hwhite hs source

instance (nodes : List Node) : Decidable (apart nodes) :=
  inferInstanceAs (Decidable (List.IsChain _ nodes))

/-- Modules with a text in front of the only entry. -/
def textBefore : Document :=
  (readText "<modules>x<module>a</module></modules>" none).toOption.getD {}

/-- Modules with texts on both sides of the only entry. -/
def textsAround : Document :=
  (readText "<modules>x<module>a</module>y</modules>" none).toOption.getD {}

/-- The edit that removes the entry. -/
def removal : Edit :=
  .remove [] [Identity.module.same] [.module "a"]

/-- The entry is removed, another one is put in, and leaves are put on one line. -/
def textEdits : List Edit :=
  [removal, .add [] Identity.module.same none [.module " b "], .collapse []]

set_option maxRecDepth 10000 in
theorem textsApart_runEdits_textBefore :
    ∃ contents d' s, textBefore.HasRead contents ∧ runEdits textBefore textEdits = .ok d' ∧
      d'.textsApart ∧ d'.render {} = .ok s ∧ ∃ d₂, readText s none = .ok d₂ ∧ d₂.same d' = true := by
  have hread : readText "<modules>x<module>a</module></modules>" none = .ok textBefore :=
    eq_ok_getD _ {} (by decide +kernel)
  obtain ⟨contents, hcontents, -⟩ := readText_eq_ok hread
  have hdoctype : contents.doctype = none := by
    have hnone : (Xml.readDocument "<modules>x<module>a</module></modules>".toList).bind (·.doctype) =
        none := by decide +kernel
    rwa [hcontents] at hnone
  have h : textBefore.HasRead contents := .text hread hcontents
  have hrun := eq_ok_getD (runEdits textBefore textEdits) {} (by decide +kernel)
  have hmade : ∀ edit ∈ textEdits, ∀ e ∈ edit.supplied, e = .module " b " := by
    intro edit hedit e he
    rw [textEdits, List.mem_cons, List.mem_cons, List.mem_singleton] at hedit
    rcases hedit with rfl | rfl | rfl
    · cases he
    · exact List.mem_singleton.mp he
    · cases he
  have hnames : ∀ edit ∈ textEdits, ∀ name ∈ edit.names, isPlainName name := by
    intro edit hedit name hn
    rw [textEdits, List.mem_cons, List.mem_cons, List.mem_singleton] at hedit
    rcases hedit with rfl | rfl | rfl <;> cases hn
  have hjoins : ¬ joinTextsAlong textBefore textEdits := by
    rintro (hmeet | ⟨d₁, -, hadd | ⟨d₂, -, hcollapse | ⟨d₃, -, hno⟩⟩⟩)
    · exact (apart_leftOf_iff (by decide +kernel)).mp (by decide +kernel) hmeet
    · exact hadd
    · exact hcollapse
    · exact hno
  obtain ⟨hapart, -, hreread⟩ := h.textsApart_runEdits.2 textEdits _
    (fun edit hedit e he => hmade edit hedit e he ▸ .leaf "module" " b ") hrun hjoins
  have hrender := eq_ok_getD (((runEdits textBefore textEdits).toOption.getD {}).render {}) ""
    (by decide +kernel)
  have hsubset := Xml.Contents.withoutSubset_of_doctype_eq_none hdoctype
  refine ⟨contents, _, _, h, hrun, hapart, hrender, (hreread (h.calm hsubset)
    (fun edit hedit e he => hmade edit hedit e he ▸ Or.inl (.module " b ")) hnames {} _ none rfl
    hrender).mpr ⟨?_, fun _ => ?_, ?_⟩⟩
  · rw [hdoctype]
    rintro _ ⟨⟩
  · decide +kernel
  · decide +kernel

set_option maxRecDepth 10000 in
/-- A removal brings two texts together, and they are read as one. -/
theorem textsApart_not_kept :
    readText "<modules>x<module>a</module>y</modules>" none = .ok textsAround ∧
      ∃ d' s, removal.run textsAround = .ok d' ∧ ¬ d'.textsApart ∧ d'.render {} = .ok s ∧
        ∃ d₂, readText s none = .ok d₂ ∧ d₂.same d' = false := by
  have hrun := eq_ok_getD (removal.run textsAround) {} (by decide +kernel)
  refine ⟨eq_ok_getD _ {} (by decide +kernel), _, _, hrun, ?_, eq_ok_getD _ "" (by decide +kernel), _,
    eq_ok_getD _ {} (by decide +kernel), by decide +kernel⟩
  intro happly
  obtain ⟨root, hroot⟩ := Option.isSome_iff_exists.mp (show
    ((removal.run textsAround).toOption.getD {}).root?.isSome = true by decide +kernel)
  have hno : ∀ e ∈ ((removal.run textsAround).toOption.getD {}).root?, ¬ apart e.children := by
    decide +kernel
  exact hno root hroot (textsApart_root happly hroot).1

end Manifest
