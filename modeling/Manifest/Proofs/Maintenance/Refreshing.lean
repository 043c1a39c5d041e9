import Manifest.Proofs.Document.Stored
import Manifest.Proofs.Maintenance.Regeneration
import Manifest.Proofs.Merge.Rerun
import Manifest.Proofs.Merge.Run

/-! Refreshing a section of the manifest in a file. What is loaded afterwards is what was loaded before,
but for that one section, which has lost the unwanted entries and has the new ones in a block. -/

set_option autoImplicit false

namespace Manifest

open Manifest.Action (Gives gives_bind_iff gives_record_iff gives_pure_iff)
open Text (Encoding commonNames)
open Xml (Contents)

/-! What a refresh does to a section. -/

/-- The texts of a section without text of its own are blank. -/
def onlyBlankText (nodes : List Node) : Prop :=
  ∀ node ∈ nodes, node.isText = true → node.isBlank = true

/-- A blank text that goes with an entry leaves none in its place. -/
theorem apart_dropBlank {before rest : List Node} {node : Node} (hblank : onlyBlankText before)
    (h : apart (before.reverse ++ node :: rest)) : apart ((dropBlank before).reverse ++ rest) := by
  cases before with
  | nil => exact (List.isChain_cons.mp h).2
  | cons last before =>
    rw [List.reverse_cons, List.append_assoc, List.singleton_append] at h
    obtain ⟨hbefore, hlast, hjoin⟩ := List.isChain_append.mp h
    have hrest : apart rest := (List.isChain_cons.mp (List.isChain_cons.mp hlast).2).2
    rw [dropBlank]
    split
    · next hb =>
      refine List.isChain_append.mpr ⟨hbefore, hrest, fun a ha b _ hatext => ?_⟩
      -- the text that went was no neighbour of another one
      have hltext := hjoin a ha last rfl hatext
      cases last with
      | text value => cases hltext
      | _ => cases hb
    · next hb =>
      have hltext : last.isText = false := by
        cases ht : last.isText with
        | false => rfl
        | true => exact absurd (hblank last List.mem_cons_self ht) hb
      rw [List.reverse_cons]
      refine List.isChain_append.mpr ⟨List.isChain_append.mpr ⟨hbefore, List.isChain_singleton _,
        fun a ha b hb' hatext => ?_⟩, hrest, fun a ha b _ hatext => ?_⟩
      · exact hjoin a ha b hb' hatext
      · rw [List.getLast?_concat, Option.mem_some] at ha
        rw [← ha, hltext] at hatext
        cases hatext

theorem apart_removeFrom {unwanted : Element → Bool} (owner : String) {before nodes : List Node}
    (hbefore : onlyBlankText before) (hnodes : onlyBlankText nodes)
    (h : apart (before.reverse ++ nodes)) :
    apart (removeFrom unwanted owner before nodes).children := by
  induction nodes generalizing before with
  | nil =>
    rw [List.append_nil] at h
    exact h
  | cons node rest ih =>
    have hrest : onlyBlankText rest := fun x hx => hnodes x (List.mem_cons_of_mem _ hx)
    rw [removeFrom]
    split
    · refine ih (fun x hx => ?_) hrest (by rwa [List.reverse_cons, List.append_assoc])
      rcases List.mem_cons.mp hx with rfl | hx
      · exact hnodes x List.mem_cons_self
      · exact hbefore x hx
    · exact ih (fun x hx => hbefore x ((dropBlank_spec before).1.subset hx)) hrest
        (apart_dropBlank hbefore h)

theorem apart_withBlock {nodes : List Node} (h : apart nodes) (index : Nat) (block : List Element) :
    apart (withBlock nodes index (block.map Element.toNode)) :=
  apart_insertNodes h (List.forall_mem_map.mpr fun e _ => isText_toNode e) index

/-- A refreshed section could have been read, if the old one and the candidates could. -/
theorem ordinaries_refresh {r : Renewal} (owner : String) {children : List Node}
    (hc : ordinaries children) (hcandidates : ∀ c ∈ r.candidates, c.toNode.ordinary) :
    ordinaries (refresh r owner children).children := by
  rw [children_refresh, ordinaries_iff]
  intro node hn
  rw [withBlock, List.mem_append, List.mem_append] at hn
  have hkept : ∀ x ∈ r.kept children, x.ordinary := fun x hx =>
    ordinaries_iff.mp hc x ((kept_sublist r children).subset hx)
  rcases hn with hn | hn | hn
  · exact hkept node (List.mem_of_mem_take hn)
  · obtain ⟨e, he, rfl⟩ := List.mem_map.mp hn
    exact hcandidates e ((block_sublist r children).subset he)
  · exact hkept node (List.mem_of_mem_drop hn)

theorem apart_refresh (r : Renewal) (owner : String) {children : List Node} (ha : apart children)
    (hblank : onlyBlankText children) : apart (refresh r owner children).children := by
  rw [children_refresh]
  exact apart_withBlock (@apart_removeFrom r.unwanted "" [] children (by simp [onlyBlankText])
    hblank ha) _ _

theorem onlyBlankText_block {nodes front back : List Node} (h : onlyBlankText nodes)
    (hfront : ∀ x ∈ front, x ∈ nodes) (hback : ∀ x ∈ back, x ∈ nodes) (block : List Element) :
    onlyBlankText (front ++ (block.map Element.toNode ++ back)) := by
  intro node hn htext
  rw [List.mem_append, List.mem_append] at hn
  rcases hn with hn | hn | hn
  · exact h node (hfront node hn) htext
  · obtain ⟨e, -, rfl⟩ := List.mem_map.mp hn
    cases htext
  · exact h node (hback node hn) htext

theorem onlyBlankText_refresh (r : Renewal) (owner : String) {children : List Node}
    (h : onlyBlankText children) : onlyBlankText (refresh r owner children).children := by
  have hkept : onlyBlankText (r.kept children) :=
    fun node hn => h node ((kept_sublist r children).subset hn)
  rw [children_refresh]
  exact onlyBlankText_block hkept (fun _ hx => List.mem_of_mem_take hx)
    (fun _ hx => List.mem_of_mem_drop hx) _

/--
But for blank text, a refreshed section is the old one without its unwanted entries and with the new
ones in one block.
-/
theorem exists_refresh_bare (m : Maintainer) (r : Renewal) (owner : String) {children : List Node}
    (hblank : onlyBlankText children) :
    ∃ front back, front ++ back = withoutEntries r.unwanted children ∧
      onlyBlankText (front ++ (((r.block children).map m.settled).map Element.toNode ++ back)) ∧
      bareNodes ((refresh r owner children).children.map m.settledNode) =
        bareNodes ((front ++ (((r.block children).map m.settled).map Element.toNode ++ back)).map
          m.settledNode) := by
  have hfilter := (removeFrom_spec r.unwanted "" [] children).2
  rw [List.reverse_nil, List.nil_append] at hfilter
  have hparts : (r.kept children).filter (!·.isBlank) =
      ((r.kept children).take (additionIndex r.anchor (r.kept children))).filter (!·.isBlank) ++
        ((r.kept children).drop (additionIndex r.anchor (r.kept children))).filter (!·.isBlank) := by
    rw [← List.filter_append, List.take_append_drop]
  obtain ⟨front, back, hsplit, hfront, hback⟩ :=
    List.filter_eq_append_iff.mp (hfilter.symm.trans hparts)
  have hmem : ∀ x ∈ front ++ back, x ∈ children := by
    intro x hx
    rw [← hsplit] at hx
    exact (List.mem_filter.mp hx).1
  refine ⟨front, back, hsplit.symm, onlyBlankText_block hblank
    (fun x hx => hmem x (List.mem_append_left _ hx))
    (fun x hx => hmem x (List.mem_append_right _ hx)) _, ?_⟩
  have hblock : (((r.block children).map m.settled).map Element.toNode).map m.settledNode =
      ((r.block children).map Element.toNode).map m.settledNode := by
    simp only [List.map_map]
    refine List.map_congr_left fun e _ => ?_
    simp only [Function.comp]
    rw [Maintainer.toNode_settled, Maintainer.settledNode_settledNode]
  simp only [children_refresh, withBlock, List.map_append, bareNodes_append, hblock,
    Maintainer.bareNodes_map_settledNode hfront, Maintainer.bareNodes_map_settledNode hback]

/-! The run. -/

theorem filterMap_getElem?_range {α : Type} (l : List α) :
    (List.range l.length).filterMap (l[·]?) = l := by
  induction l with
  | nil => rfl
  | cons a l ih => simpa [List.range_succ_eq_map, List.filterMap_map, Function.comp_def] using ih

/-- Entries in a block, looked up by their ranks in a document that is written. -/
theorem look_insertedPositions (m : Maintainer) {d : Document} {position : Position} {owner : Element}
    (howner : d.at? position = some owner) (nodes : List Node) (anchor : Option (Element → Bool))
    (block : List Element) :
    ((insertedPositions position (additionRank anchor nodes) block.length).map
        Held.present).filterMap (Held.look (m.settledDocument (d.setChildren position
          (withBlock nodes (additionIndex anchor nodes) (block.map Element.toNode))))) =
      block.map m.settled := by
  have hlook : ∀ i, Held.look (m.settledDocument (d.setChildren position
      (withBlock nodes (additionIndex anchor nodes) (block.map Element.toNode))))
        (.present (position ++ [additionRank anchor nodes + i])) =
      ((block ++ elementsOf (nodes.drop (additionIndex anchor nodes)))[i]?).map m.settled := by
    intro i
    have hrank : additionRank anchor nodes =
        (elementsOf (nodes.take (additionIndex anchor nodes))).length := rfl
    rw [Held.look, Maintainer.at?_settledDocument, at?_append, childrenAt_setChildren _ howner,
      elementsOf_withBlock, elementsOf_map_toNode, hrank, List.getElem?_append_right (by omega)]
    congr 2
    omega
  rw [insertedPositions, List.map_map, List.filterMap_map]
  have hrange : ∀ i ∈ List.range block.length,
      (Held.look (m.settledDocument (d.setChildren position
        (withBlock nodes (additionIndex anchor nodes) (block.map Element.toNode)))) ∘
        (Held.present ∘ fun i => position ++ [additionRank anchor nodes + i])) i =
      (block.map m.settled)[i]? := by
    intro i hi
    rw [Function.comp, Function.comp, hlook, List.getElem?_append_left (List.mem_range.mp hi),
      List.getElem?_map]
  rw [List.filterMap_congr hrange]
  have hblock := filterMap_getElem?_range (block.map m.settled)
  rwa [List.length_map] at hblock

namespace Maintainer

variable {m : Maintainer} {p : Path} {path : List String} {renewal : Renewal} {report : Report}
  {d : Document} {position : Position} {owner : Element} {w w₀ w' : World}

/-- Refreshing the section at a position. -/
theorem gives_refreshAt {r : StepResult} (howner : d.at? position = some owner)
    (h : Gives (refreshAt d position renewal) w r w') :
    w'.tree = w.tree ∧
      r.document = d.setChildren position (refresh renewal owner.name owner.children).children ∧
      r.outcome = .refreshed (owner.elements.filter renewal.unwanted)
        ((insertedPositions position (additionRank renewal.anchor (renewal.kept owner.children))
          (renewal.block owner.children).length).map .present) := by
  simp only [refreshAt, gives_bind_iff, gives_record_iff, gives_pure_iff] at h
  obtain ⟨⟨after, refreshed⟩, w₁, hsections, -, w₂, hw₂, rfl, rfl⟩ := h
  obtain ⟨hrefresh, rfl⟩ := gives_sections_iff.mp hsections
  obtain ⟨owner', howner', hresult, hafter⟩ := Document.onSection_eq_ok hrefresh
  rw [howner] at howner'
  cases howner'
  refine ⟨by rw [hw₂], hafter.trans (by rw [hresult]), ?_⟩
  simp only [hresult, howner, Option.map_some, Option.getD_some, removed_refresh, added_refresh,
    Element.elements]
  rfl

/-- Refreshing a section of a file that is there: what is written, and what is reported. -/
theorem gives_refreshEntries (hload : Gives (Document.load p) w d w₀)
    (hplace : d.locate none path = .ok (some position)) (howner : d.at? position = some owner)
    (h : Gives (m.refreshEntries p path renewal) w report w') :
    ∃ new w₁, new = d.setChildren position
        (refresh renewal owner.name owner.children).children ∧ w₁.tree = w.tree ∧
      Gives (m.write new p) w₁ (m.settledDocument new) w' ∧
      report = .refreshed (owner.elements.filter renewal.unwanted)
        ((renewal.block owner.children).map m.settled) := by
  simp only [refreshEntries, update, gives_bind_iff, gives_pure_iff] at h
  obtain ⟨candidates, w₁, ⟨rfl, rfl⟩, ⟨final, reports⟩, w₂, ⟨d', w₃, hload', ⟨d₁, outcomes⟩, w₄, hsteps,
    final', w₅, hwrite, hreports, rfl⟩, rfl, rfl⟩ := h
  obtain ⟨rfl, rfl⟩ := hload.unique (gives_store_iff.mp hload')
  simp only [runSteps, Step.run, gives_bind_iff, gives_pure_iff] at hsteps
  obtain ⟨result, w₆, ⟨place, w₇, hfind, hrefresh⟩, hresult, rfl⟩ := hsteps
  obtain ⟨htree₇, root, hroot, hposition⟩ := gives_findSection hfind
  have hsome : place = some position := by
    rw [hposition]
    simpa [Document.locate, hroot] using hplace
  rw [hsome] at hrefresh
  obtain ⟨htree₆, hdocument, houtcome⟩ := gives_refreshAt howner hrefresh
  cases hresult
  cases hreports
  rw [hdocument] at hwrite
  obtain ⟨rfl, -⟩ := gives_write hwrite
  refine ⟨_, _, rfl, ?_, hwrite, ?_⟩
  · obtain ⟨-, -, -, htree₀⟩ := gives_load hload
    rw [htree₆, htree₇, htree₀]
  · -- what was added is reported as it stands in the document that was written
    rw [children_refresh, List.map_nil, List.nil_append, List.map_singleton, List.head?_cons,
      Option.getD_some, houtcome, Outcome.report, look_insertedPositions m howner]

end Maintainer

/-! What is loaded afterwards. -/

/-- A document with a block of entries between two parts of a section. -/
def Document.withEntries (d : Document) (position : Position) (front : List Node)
    (block : List Element) (back : List Node) : Document :=
  d.setChildren position (front ++ (block.map Element.toNode ++ back))

/--
Once a section without text of its own was refreshed, the file holds the document that it held before,
but that the section has lost its unwanted entries and has those that are reported as added in one block
between what is left of it, and that leaves are on one line if so configured. It is loaded as that
document exactly when a document type with a public identifier has a system identifier and elements are
not nested too deeply.
-/
theorem load_refreshEntries_same_iff {m : Maintainer} {p : Path} {path : List String}
    {renewal : Renewal} {report : Report} {d : Document} {contents : Contents} {position : Position}
    {owner : Element} {w w₀ w' : World} (hload : Gives (Document.load p) w d w₀)
    (hread : d.HasRead contents) (hsubset : contents.withoutSubset)
    (hname : d.encoding.toUpper = "UTF-8") (hwhite : m.style.indent.isWhite = true)
    (hplace : d.locate none path = .ok (some position)) (howner : d.at? position = some owner)
    (hblank : onlyBlankText owner.children) (hmade : ∀ c ∈ renewal.candidates, c.IsMade)
    (hrun : Gives (m.refreshEntries p path renewal) w report w') :
    ∃ front added back, front ++ back = withoutEntries renewal.unwanted owner.children ∧
      added = (renewal.block owner.children).map m.settled ∧
      report = .refreshed (owner.elements.filter renewal.unwanted) added ∧
      ((∃ d' w'', Gives (Document.load p) w' d' w'' ∧
          d'.same (m.settledDocument (d.withEntries position front added back)) = true) ↔
        (∀ type ∈ contents.doctype, type.id.isComplete = true) ∧
          depthOf (m.settledDocument (d.withEntries position front added back)).nodes ≤
            Xml.maxDepth) := by
  obtain ⟨new, w₁, rfl, htree, hwrite, hreport⟩ :=
    Maintainer.gives_refreshEntries hload hplace howner hrun
  obtain ⟨-, w₂, w₃, -, hsave, htree₃⟩ := Maintainer.gives_write hwrite
  -- the document that is written is ordinary
  have hd := hread.isOrdinary hsubset
  obtain ⟨htag, ha, hc⟩ := hd.ordinary_at? howner
  have hnew := (hd.setChildren howner (apart_refresh renewal owner.name ha hblank)
    (ordinaries_refresh owner.name hc fun c hc => (hmade c hc).ordinary)).settled m
  have hcommon : ((m.settledDocument (d.setChildren position
      (refresh renewal owner.name owner.children).children)).encoding.toUpper, Encoding.utf8) ∈
        commonNames := by
    rw [m.encoding_settledDocument, Document.encoding_setChildren, hname]
    exact List.mem_cons_self
  have hwritten := hnew.load_save_iff hcommon hwhite (Or.inr (Or.inl (by decide))) hsave
  -- and it is the expected one but for blank text
  obtain ⟨front, back, hparts, hblanks, hbare⟩ := exists_refresh_bare m renewal owner.name hblank
  have hsame := m.bareNodes_settled_setChildren howner (onlyBlankText_refresh renewal owner.name hblank)
    hblanks hbare
  have hworld : ∀ d', (∃ w'', Gives (Document.load p) w' d' w'') ↔
      ∃ w'', Gives (Document.load p) w₃ d' w'' := by
    intro d'
    rw [gives_load_iff, gives_load_iff, htree₃]
  refine ⟨front, _, back, hparts, rfl, hreport, ?_⟩
  rw [Document.withEntries, ← depthOf_eq_of_bare hsame, ← hwritten]
  simp only [exists_and_right, hworld, Document.same_of_bare hsame]

/-- A manifest with a section for modules, and the module that comes into it. -/
def emptyModules : String :=
  "<a><modules/></a>"

/-- A refresh that brings in one module. -/
def moduleRenewal : Renewal :=
  { candidates := [.module "x"], same := Identity.module.same }

theorem exists_contents {text : String} {d : Document} {w : World}
    (hload : Gives (Document.load manifestFile) (oneFile text) d w) :
    ∃ contents, readStored text.toUTF8 = some contents ∧ d.HasRead contents := by
  obtain ⟨bytes, hbytes, hread, -⟩ := gives_load hload
  cases hbytes
  exact exists_contents_of_readBytes hread

set_option maxRecDepth 10000 in
theorem load_refreshEntries_emptyModules :
    ∃ d contents owner w₀ report w',
      Gives (Document.load manifestFile) (oneFile emptyModules) d w₀ ∧ d.HasRead contents ∧
      contents.withoutSubset ∧ d.encoding.toUpper = "UTF-8" ∧
      d.locate none ["modules"] = .ok (some [0]) ∧ d.at? [0] = some owner ∧
      onlyBlankText owner.children ∧ (∀ c ∈ moduleRenewal.candidates, c.IsMade) ∧
      Gives (Maintainer.refreshEntries {} manifestFile ["modules"] moduleRenewal)
        (oneFile emptyModules) report w' ∧
      ∃ added d' w'', report = .refreshed [] added ∧ Gives (Document.load manifestFile) w' d' w'' ∧
        d'.same (Maintainer.settledDocument {} (d.withEntries [0] [] added [])) = true := by
  have hload := Action.gives_resultD (a := Document.load manifestFile) (w := oneFile emptyModules) {}
    (by decide +kernel)
  have hencoding : ((Document.load manifestFile).resultD (oneFile emptyModules) {}).encoding =
      "UTF-8" := by
    decide +kernel
  have hplace : ((Document.load manifestFile).resultD (oneFile emptyModules) {}).locate none
      ["modules"] = .ok (some [0]) := by
    decide +kernel
  have hchildren : ((((Document.load manifestFile).resultD (oneFile emptyModules) {}).at? [0]).map
      fun e => e.children.length) = some 0 := by
    decide +kernel
  have hrun := Action.gives_resultD
    (a := Maintainer.refreshEntries {} manifestFile ["modules"] moduleRenewal)
    (w := oneFile emptyModules) .skipped (by decide +kernel)
  obtain ⟨contents, hcontents, hread⟩ := exists_contents hload
  obtain ⟨owner, howner, hempty⟩ := Option.map_eq_some_iff.mp hchildren
  rw [List.length_eq_zero_iff] at hempty
  have hdoctype : contents.doctype = none := by
    have hnone : (readStored emptyModules.toUTF8).bind (·.doctype) = none := by decide +kernel
    rwa [hcontents] at hnone
  have hsubset := Contents.withoutSubset_of_doctype_eq_none hdoctype
  have hname : ((Document.load manifestFile).resultD (oneFile emptyModules) {}).encoding.toUpper =
      "UTF-8" := by
    rw [hencoding, ← String.toList_inj, String.toUpper, String.toList_map]
    decide +kernel
  have hblank : onlyBlankText owner.children := by
    rw [hempty]
    exact List.forall_mem_nil _
  have hmade : ∀ c ∈ moduleRenewal.candidates, c.IsMade := by
    intro c hc
    rw [List.mem_singleton.mp hc]
    exact .module "x"
  obtain ⟨front, added, back, hparts, hadded, hreport, hiff⟩ :=
    load_refreshEntries_same_iff hload hread hsubset hname rfl hplace howner hblank hmade hrun
  rw [Element.elements, hempty] at hreport
  rw [hempty] at hparts hadded
  obtain ⟨rfl, rfl⟩ := List.append_eq_nil_iff.mp hparts
  refine ⟨_, contents, owner, _, _, _, hload, hread, hsubset, hname, hplace, howner, hblank, hmade, hrun,
    added, ?_⟩
  obtain ⟨d', w'', hloaded, hsame⟩ := hiff.mpr ⟨by rw [hdoctype]; rintro _ ⟨⟩, by
    rw [hadded]; decide +kernel⟩
  exact ⟨d', w'', hreport, hloaded, hsame⟩

/-- A manifest whose document type has an empty system identifier. -/
def publicModules : String :=
  "<!DOCTYPE a PUBLIC \"p\" \"\"><a><modules/></a>"

set_option maxRecDepth 10000 in
/-- The system identifier is not written, so what is written cannot be read. -/
theorem publicModules_not_loaded :
    ∃ d contents w₀ report w', Gives (Document.load manifestFile) (oneFile publicModules) d w₀ ∧
      d.HasRead contents ∧ contents.withoutSubset ∧ d.encoding = "UTF-8" ∧
      d.locate none ["modules"] = .ok (some [0]) ∧
      ((d.at? [0]).map fun e => e.children.length) = some 0 ∧
      Gives (Maintainer.refreshEntries {} manifestFile ["modules"] moduleRenewal)
        (oneFile publicModules) report w' ∧
      ¬ ∃ d' w'', Gives (Document.load manifestFile) w' d' w'' := by
  have hload := Action.gives_resultD (a := Document.load manifestFile) (w := oneFile publicModules) {}
    (by decide +kernel)
  have hrun := Action.gives_resultD
    (a := Maintainer.refreshEntries {} manifestFile ["modules"] moduleRenewal)
    (w := oneFile publicModules) .skipped (by decide +kernel)
  obtain ⟨contents, hcontents, hread⟩ := exists_contents hload
  have hsubset : contents.withoutSubset := by
    have hnone : (((readStored publicModules.toUTF8).bind (·.doctype)).all (!·.hasSubset)) = true := by
      decide +kernel
    rw [hcontents, Option.bind_some, Option.all_eq_true] at hnone
    exact fun type htype => by simpa using hnone type htype
  refine ⟨_, contents, _, _, _, hload, hread, hsubset, by decide +kernel, by decide +kernel,
    by decide +kernel, hrun, fun ⟨d', w'', hloaded⟩ => ?_⟩
  have hfails : ((ExceptT.run (Document.load manifestFile)).run
      ((Maintainer.refreshEntries {} manifestFile ["modules"] moduleRenewal).after
        (oneFile publicModules))).1.toOption.isSome = false := by
    decide +kernel
  rw [hloaded] at hfails
  cases hfails

end Manifest
