import Manifest.Proofs.Document.Joined
import Manifest.Proofs.Document.Reload
import Manifest.Proofs.Maintenance.Refreshing
import Manifest.Proofs.Maintenance.Resettling
import Manifest.Proofs.Maintenance.Sections
import Manifest.Proofs.Merge.Spread
import Manifest.Proofs.Release

/-! Refreshing any section of the manifest in a file, which is created if it is missing. An entry that is
removed from between two texts leaves them side by side; what is written then is what is written with
these texts as one, and with them as one the document could have been read. -/

set_option autoImplicit false

namespace Manifest

open Manifest.Action (Gives KeepsTree gives_bind_iff gives_record_iff gives_pure_iff)
open Xml (Contents)

/-! The run. -/

/-- A section after a refresh. -/
def Element.refreshed (r : Renewal) (e : Element) : Element :=
  { e with children := (refresh r e.name e.children).children }

theorem Element.elements_refreshed (r : Renewal) (e : Element) :
    (e.refreshed r).elements =
      elementsOf (r.front e.children) ++ (r.block e.children ++ elementsOf (r.back e.children)) := by
  rw [refreshed, elements, r.children_eq, elementsOf_append, elementsOf_append, elementsOf_map_toNode]

variable {m : Maintainer} {p : Path} {path : List String} {renewal : Renewal} {d : Document}
  {root : Element} {w w₀ w' : World}

/-- A refresh of a section, which is created if it is missing. -/
theorem gives_refreshStep {r : StepResult} (hroot : d.root? = some root)
    (h : Gives ((Step.refresh path renewal true).run d) w r w') :
    w'.tree = w.tree ∧ r.document = d.withSection path (Element.refreshed renewal) := by
  rw [Step.run, gives_bind_iff] at h
  obtain ⟨place, w₁, hfind, h⟩ := h
  obtain ⟨htree₁, root', hroot', rfl⟩ := gives_findSection hfind
  obtain rfl : root = root' := Option.some.inj (hroot.symm.trans hroot')
  obtain ⟨owner, howner, -, -, -⟩ := root.at?_ensure (pathBelow root path)
  have hnew := Document.setChildren_ensure hroot howner (Element.refreshed renewal) fun _ => rfl
  cases hl : root.locate (pathBelow root path) with
  | some position =>
    rw [hl] at h
    have hspec := root.locate_spec (pathBelow root path)
    rw [hl] at hspec
    obtain ⟨section', hdescend⟩ := Option.isSome_iff_exists.mp hspec.2
    obtain ⟨helement, hlocate⟩ := Element.element_ensure_of_descend hdescend
    obtain rfl : position = (root.ensure (pathBelow root path)).position :=
      Option.some.inj (hl.symm.trans hlocate)
    rw [helement] at howner hnew
    rw [Document.withRoot_self hroot] at hnew
    have hat : d.at? (root.ensure (pathBelow root path)).position = some owner := by
      rw [Document.at?, hroot]
      exact howner
    obtain ⟨htree, hdocument, -⟩ := Maintainer.gives_refreshAt hat h
    exact ⟨htree.trans htree₁, hdocument.trans hnew⟩
  | none =>
    rw [hl] at h
    simp only [if_true, gives_bind_iff] at h
    obtain ⟨⟨d₁, position⟩, w₂, hensure, h⟩ := h
    obtain ⟨htree₂, root', hroot', rfl, rfl⟩ := gives_ensureSection hensure
    obtain rfl : root = root' := Option.some.inj (hroot.symm.trans hroot')
    have hat : (d.withRoot (root.ensure (pathBelow root path)).element).at?
        (root.ensure (pathBelow root path)).position = some owner := by
      rw [Document.at?_withRoot (by rw [hroot]; rfl)]
      exact howner
    obtain ⟨htree, hdocument, -⟩ := Maintainer.gives_refreshAt hat h
    exact ⟨htree.trans (htree₂.trans htree₁), hdocument.trans hnew⟩

namespace Maintainer

/-- The candidates of a refresh, with the version that is asked for stamped on them. -/
def stamp (m : Maintainer) (candidates : List Element) : Option String → Upkeep (List Element)
  | none => return candidates
  | some requested => do
    let version ← m.resolve requested
    return candidates.map (·.withVersion version)

theorem refreshEntries_eq (m : Maintainer) (p : Path) (path : List String) (renewal : Renewal)
    (requested : Option String) :
    m.refreshEntries p path renewal requested = (do
      let candidates ← m.stamp renewal.candidates requested
      let (_, reports) ← m.update p [.refresh path { renewal with candidates } true]
      return reports.head?.getD (.refreshed [] [])) := by
  cases requested with
  | none => rfl
  | some requested =>
    rw [refreshEntries, stamp]
    simp only [bind_assoc, pure_bind]

theorem keepsTree_stamp (m : Maintainer) (candidates : List Element) (requested : Option String) :
    KeepsTree (m.stamp candidates requested) := by
  cases requested with
  | none => exact Action.keepsTree_pure _
  | some requested =>
    exact Action.keepsTree_bind (m.keepsTree_resolve requested) fun _ => Action.keepsTree_pure _

theorem gives_stamp_some {candidates stamped : List Element} {requested : String} {w₁ : World}
    (h : Gives (m.stamp candidates (some requested)) w stamped w₁) :
    ∃ version w₂, Gives (m.resolve requested) w version w₂ ∧
      stamped = candidates.map (·.withVersion version) := by
  simp only [stamp, gives_bind_iff, gives_pure_iff] at h
  obtain ⟨version, w₂, hresolve, rfl, -⟩ := h
  exact ⟨version, w₂, hresolve, rfl⟩

/-- A version that is chosen is a text that is not empty, with no white space at its ends. -/
theorem strip_of_gives_resolve {requested version : String} {w₁ : World}
    (h : Gives (m.resolve requested) w version w₁) : Text.strip version = version ∧ version ≠ "" := by
  rw [resolve] at h
  split at h
  · exact absurd h (by simp [Action.gives_throw_iff])
  · simp only [gives_bind_iff, gives_pure_iff] at h
    obtain ⟨releases, _, -, v, _, hselect, -, -, -, rfl, -⟩ := h
    obtain ⟨hselect, -⟩ := Action.gives_ofExcept_iff.mp hselect
    obtain ⟨release, -, run, hrun, rfl⟩ := Release.select_eq_ok hselect
    exact Release.strip_version hrun

theorem ordinary_of_gives_stamp {candidates stamped : List Element} {requested : Option String}
    {w₁ : World} (h : Gives (m.stamp candidates requested) w stamped w₁)
    (hmade : ∀ c ∈ candidates, c.IsMade) : ∀ c ∈ stamped, c.toNode.ordinary := by
  cases requested with
  | none =>
    obtain ⟨rfl, -⟩ := gives_pure_iff.mp h
    exact fun c hc => (hmade c hc).ordinary
  | some requested =>
    obtain ⟨version, -, -, rfl⟩ := gives_stamp_some h
    exact List.forall_mem_map.mpr fun c hc => ((hmade c hc).withVersion c version).ordinary

/-- Refreshing a section of a file that is there: what is written. -/
theorem gives_refreshEntries_section {requested : Option String} {report : Report}
    (hload : Gives (Document.load p) w d w₀) (hroot : d.root? = some root)
    (h : Gives (m.refreshEntries p path renewal requested) w report w') :
    ∃ candidates w₁ w₂, Gives (m.stamp renewal.candidates requested) w candidates w₁ ∧ w₂.tree = w.tree ∧
      Gives (m.write (d.withSection path (Element.refreshed { renewal with candidates })) p) w₂
        (m.settledDocument (d.withSection path (Element.refreshed { renewal with candidates }))) w' := by
  rw [refreshEntries_eq] at h
  simp only [update, gives_bind_iff, gives_pure_iff] at h
  obtain ⟨candidates, w₁, hstamp, ⟨final, reports⟩, w₂, ⟨d', w₃, hload', ⟨d₁, outcomes⟩, w₄, hsteps, final',
    w₅, hwrite, -, rfl⟩, -, rfl⟩ := h
  have htree₁ := (m.keepsTree_stamp renewal.candidates requested).tree_eq hstamp
  have hload' := gives_store_iff.mp hload'
  obtain ⟨bytes, hread, hd, -⟩ := gives_load hload
  obtain ⟨bytes', hread', hd', htree₃⟩ := gives_load hload'
  rw [htree₁, hread] at hread'
  cases hread'
  rw [hd] at hd'
  cases hd'
  simp only [runSteps, gives_bind_iff, gives_pure_iff] at hsteps
  obtain ⟨result, w₆, hstep, hresult, rfl⟩ := hsteps
  obtain ⟨htree₆, hdocument⟩ := gives_refreshStep hroot hstep
  cases hresult
  rw [hdocument] at hwrite
  obtain ⟨rfl, -⟩ := gives_write hwrite
  exact ⟨candidates, w₁, _, hstamp, by rw [htree₆, htree₃, htree₁], hwrite⟩

end Maintainer

/-! Where a refresh succeeds. -/

/-- An element that is there can be refreshed. -/
theorem exists_refreshAt {position : Position} {owner : Element} (hat : d.at? position = some owner)
    (renewal : Renewal) (w : World) : ∃ r w', Gives (refreshAt d position renewal) w r w' := by
  simp only [refreshAt, gives_bind_iff, gives_record_iff, gives_pure_iff]
  exact ⟨_, _, (_, _), _, gives_sections_iff.mpr ⟨Document.onSection_of_at? _ _ hat, rfl⟩, (), _, rfl, rfl,
    rfl⟩

/-- A section that is there can be refreshed. -/
theorem exists_refreshStep {position : Position} (hroot : d.root? = some root)
    (hlocate : root.locate (pathBelow root path) = some position) (renewal : Renewal) (w : World) :
    ∃ r w', Gives ((Step.refresh path renewal true).run d) w r w' := by
  obtain ⟨owner, howner⟩ : ∃ owner, d.at? position = some owner := by
    have hspec := root.locate_spec (pathBelow root path)
    rw [hlocate] at hspec
    rw [Document.at?, hroot]
    exact Option.isSome_iff_exists.mp ((congrArg Option.isSome hspec.1).trans hspec.2)
  have hfind : d.find none path = .ok (some position, []) := by
    rw [Document.find, Document.locate, hroot]
    simp only [hlocate]
    rfl
  obtain ⟨r, w₁, hrefresh⟩ := exists_refreshAt howner renewal { w with log := w.log ++ [] }
  simp only [Step.run, findSection, gives_bind_iff, gives_record_iff, gives_pure_iff]
  exact ⟨r, w₁, some position, _, ⟨(_, _), w, gives_sections_iff.mpr ⟨hfind, rfl⟩, (), _, rfl, rfl, rfl⟩,
    hrefresh⟩

namespace Maintainer

/-- What is stamped on candidates is the same in each world. -/
theorem exists_stamp {candidates stamped : List Element} {requested : Option String} {w₁ : World}
    (h : Gives (m.stamp candidates requested) w stamped w₁) (w₂ : World) :
    ∃ w₃, Gives (m.stamp candidates requested) w₂ stamped w₃ := by
  cases requested with
  | none =>
    obtain ⟨rfl, -⟩ := gives_pure_iff.mp h
    exact ⟨w₂, gives_pure_iff.mpr ⟨rfl, rfl⟩⟩
  | some requested =>
    cases hreleases : m.releases with
    | none =>
      simp only [stamp, resolve, hreleases, gives_bind_iff, Action.gives_throw_iff, false_and,
        exists_false] at h
    | some source =>
      simp only [stamp, resolve, hreleases, gives_bind_iff, gives_pure_iff, gives_record_iff,
        Action.gives_ofExcept_iff] at h ⊢
      obtain ⟨version, w₃, ⟨releases, w₄, hlisted, v, w₅, ⟨hselect, rfl⟩, -, w₆, -, rfl, rfl⟩, rfl, -⟩ := h
      have hlisted' : Gives (listReleases source) w₂ releases w₂ := by
        cases source with
        | listed _ =>
          obtain ⟨rfl, -⟩ := gives_pure_iff.mp hlisted
          exact gives_pure_iff.mpr ⟨rfl, rfl⟩
        | metadata _ =>
          obtain ⟨hread, -⟩ := Action.gives_ofExcept_iff.mp hlisted
          exact Action.gives_ofExcept_iff.mpr ⟨hread, rfl⟩
      exact ⟨_, v, _, ⟨releases, w₂, hlisted', v, w₂, ⟨hselect, rfl⟩, (), _, rfl, rfl, rfl⟩, rfl, rfl⟩

/-- A section that is there can be refreshed where the document can be saved with it. -/
theorem exists_refreshEntries {requested : Option String} {candidates : List Element} {w₁ : World}
    {position : Position} (hload : Gives (Document.load p) w d w₀)
    (hstamp : Gives (m.stamp renewal.candidates requested) w candidates w₁)
    (hroot : d.root? = some root) (hlocate : root.locate (pathBelow root path) = some position)
    (hsave : ∀ w₂ : World, w₂.tree = w.tree → ∃ w₃, Gives
      ((m.settledDocument (d.withSection path (Element.refreshed { renewal with candidates }))).save p
        m.style) w₂ () w₃) :
    ∃ report w', Gives (m.refreshEntries p path renewal requested) w report w' := by
  have htree₁ := (m.keepsTree_stamp renewal.candidates requested).tree_eq hstamp
  obtain ⟨w₂, hload'⟩ := exists_load_of_read_eq hload (congrArg (·.read p) htree₁)
  obtain ⟨-, -, -, htree₂⟩ := gives_load hload'
  obtain ⟨r, w₃, hstep⟩ := exists_refreshStep hroot hlocate { renewal with candidates } w₂
  obtain ⟨htree₃, hdocument⟩ := gives_refreshStep hroot hstep
  obtain ⟨w', hwrite⟩ := exists_write (Document.root?_withSection hroot) fun w₄ hw₄ =>
    hsave w₄ (by rw [hw₄, htree₃, htree₂, htree₁])
  rw [refreshEntries_eq]
  simp only [update, runSteps, gives_bind_iff, gives_pure_iff]
  exact ⟨_, w', candidates, w₁, hstamp, (_, _), w', ⟨d, w₂, gives_store_iff.mpr hload', (_, _), w₃, ⟨r, w₃,
    hstep, rfl, rfl⟩, _, w', hdocument ▸ hwrite, rfl, rfl⟩, rfl, rfl⟩

/-- Where a section can be refreshed, the file can be loaded. -/
theorem exists_load_of_refreshEntries {requested : Option String} {report : Report}
    (h : Gives (m.refreshEntries p path renewal requested) w report w') :
    ∃ d w₀, Gives (Document.load p) w d w₀ := by
  rw [refreshEntries_eq] at h
  simp only [update, gives_bind_iff, gives_pure_iff] at h
  obtain ⟨candidates, w₁, hstamp, ⟨_, _⟩, w₂, ⟨d, w₃, hload, -⟩, -⟩ := h
  have htree₁ := (m.keepsTree_stamp renewal.candidates requested).tree_eq hstamp
  have hload := gives_load_iff.mp ⟨w₃, gives_store_iff.mp hload⟩
  rw [htree₁] at hload
  obtain ⟨w₀, hgives⟩ := gives_load_iff.mpr hload
  exact ⟨d, w₀, hgives⟩

end Maintainer

/-! Texts side by side. -/

/-- An element whose texts that stand side by side are made one. -/
def Element.joined (e : Element) : Element :=
  { e with children := joinTexts e.children }

theorem Element.elements_joined (e : Element) : e.joined.elements = e.elements :=
  elementsOf_joinTexts e.children

theorem Element.depth_joined (e : Element) : e.joined.toNode.depth = e.toNode.depth := by
  rw [joined, toNode, toNode, Node.depth, Node.depth, depthOf_joinTexts]

/-- With another root that is written alike, a document is saved alike. -/
theorem Document.save_withRoot (hroot : d.root? = some root) {new : Element}
    (h : new.toNode.Alike root.toNode) (p : Path) (style : Style) :
    (d.withRoot new).save p style = d.save p style := by
  obtain ⟨front, back, hnodes, hrank⟩ := @exists_split_of_getElem? d.nodes 0 root
    (by rw [← List.head?_eq_getElem?]; exact hroot)
  have hnone : elementsOf front = [] := List.length_eq_zero_iff.mp hrank
  have hfirst : ∀ e : Element, splitAtElement (fun _ => true) (front ++ e.toNode :: back) =
      some (front, e, back) := fun e =>
    splitAtElement_append e back (fun x hx => by rw [hnone] at hx; cases hx) rfl
  have hmarkup : (d.withRoot new).markup style.indent = d.markup style.indent := by
    rw [markup, markup, withRoot]
    dsimp only
    rw [hnodes, setFirstElement_append hnone, hfirst, hfirst]
    dsimp only
    rw [(h [] none 0).1]
  have hrender : (d.withRoot new).render style = d.render style := by
    rw [render, render, hmarkup]
    rfl
  rw [save, save, bytes, bytes, hrender]
  rfl

/-- Where texts of a section stand side by side, the document is saved as if they were one. -/
theorem Document.save_joined {owner : Element} (hsection : d.sectionAt? path = some owner) (p : Path)
    (style : Style) : (d.withSection path Element.joined).save p style = d.save p style := by
  obtain ⟨root, position, hroot, hlocate, hat⟩ := locate_of_sectionAt? hsection
  rw [withSection_of_locate hroot hlocate]
  refine save_withRoot hroot ?_ p style
  have halike := (alikeAll_joinTexts owner.children).setAt hat
  rw [Element.setAt, Element.setAt, Element.modifyAt_self hat (f := fun x => { x with
    children := owner.children }) rfl] at halike
  rwa [Element.modifyAt_congr hat (f := Element.joined) (g := fun x => { x with
    children := joinTexts owner.children }) rfl]

/-- Settled or not, what is put in place of the children of an element is all that counts of them. -/
theorem Maintainer.setAt_settled_setAt (m : Maintainer) {x o : Element} {position : Position}
    (hat : x.at? position = some o) (a b : List Node) :
    (m.settled (x.setAt position a)).setAt position b = (m.settled x).setAt position b := by
  rw [m.settled_setAt_children hat, Element.setAt_setAt]

theorem Maintainer.ordinaries_settled (m : Maintainer) {e : Element} (h : ordinaries e.children) :
    ordinaries (m.settled e).children := by
  rw [settled]
  split
  · rw [Element.collapse_eq]
    dsimp only
    rcases collapsedChildren_cases e.children with ⟨-, hsame⟩ | ⟨value, -, -, hleaf⟩
    · rw [hsame]
      exact ordinaries_iff.mpr (shape_ordinary.map_collapse e.children (ordinaries_iff.mp h))
    · rw [hleaf]
      exact ⟨trivial, trivial⟩
  · exact h

section
variable {f : Element → Element} (htag : ∀ x, (f x).tag = x.tag)
include htag

/-- The section that was worked on, where the document is settled. -/
theorem Document.sectionAt?_settledSection (hroot : d.root? = some root) (m : Maintainer) :
    ∃ owner, (m.settledDocument (d.withSection path f)).sectionAt? path = some (m.settled (f owner)) ∧
      owner.elements = d.entriesAt path := by
  obtain ⟨owner, hsection, hwas⟩ := @sectionAt?_withSection d root path f hroot
    fun x => congrArg Tag.name (htag x)
  refine ⟨owner, ?_, elements_sectionAt? hwas⟩
  rw [m.sectionAt?_settledDocument, hsection]
  rfl

/-- With its texts made one, a section of ordinary nodes can stand in an ordinary document. -/
theorem Document.IsOrdinary.withSettledSection {contents : Contents} (hd : d.IsOrdinary contents)
    (hpath : ∀ name ∈ path, isPlainName name)
    (hf : ∀ x : Element, x.toNode.ordinary → ordinaries (f x).children) (m : Maintainer) :
    ((m.settledDocument (d.withSection path f)).withSection path Element.joined).IsOrdinary contents := by
  obtain ⟨root, hroot⟩ := hd.exists_root
  obtain ⟨owner, hat, hlocate, -, -⟩ := root.at?_ensure (pathBelow root path)
  have hname : ∀ x, (f x).name = x.name := fun x => congrArg Tag.name (htag x)
  -- the root that is written, and the way to the section in it
  have hworked : (root.ensure (pathBelow root path)).element.modifyAt f
      (root.ensure (pathBelow root path)).position =
        (root.ensure (pathBelow root path)).element.setAt (root.ensure (pathBelow root path)).position
          (f owner).children :=
    Element.modifyAt_congr hat (by rw [← htag owner])
  rw [Document.withSection_of_root hroot, hworked]
  have hensured : (root.ensure (pathBelow root path)).element.toNode.ordinary := shape_ordinary.ensure
    (fun name hn => ordinary_tag_ofName (hpath name (mem_of_mem_pathBelow hn))) (hd.root hroot).1
  have hrootName := Element.name_ensure root (pathBelow root path)
  generalize (root.ensure (pathBelow root path)).element = x at hat hlocate hensured hrootName ⊢
  generalize (root.ensure (pathBelow root path)).position = position at hat hlocate ⊢
  have hsettledName : (m.settled (x.setAt position (f owner).children)).name = root.name := by
    rw [m.name_settled, Document.name_setAt, hrootName]
  have hat' := m.at?_settled position (x.setAt position (f owner).children)
  rw [Element.setAt, Element.at?_modifyAt, hat, Option.map_some, Option.map_some] at hat'
  have hwritten : (d.withRoot (m.settled (x.setAt position (f owner).children))).root? =
      some (m.settled (x.setAt position (f owner).children)) :=
    Document.root?_withRoot _ _ (by rw [hroot]; rfl)
  have hlocate' : (m.settled (x.setAt position (f owner).children)).locate
      (pathBelow (m.settled (x.setAt position (f owner).children)) path) = some position := by
    rw [pathBelow_congr hsettledName, Element.locate_settled, Element.locate_setAt hlocate]
  rw [m.settledDocument_of_root (Document.root?_withRoot d _ (by rw [hroot]; rfl)),
    Document.withRoot_withRoot, Document.withSection_of_locate hwritten hlocate',
    Document.withRoot_withRoot]
  refine hd.withRoot hroot ?_ ?_
  · have hjoined : (m.settled (x.setAt position (f owner).children)).modifyAt Element.joined position =
        (m.settled x).setAt position
          (joinTexts (m.settled ⟨owner.tag, (f owner).children⟩).children) := by
      rw [← m.setAt_settled_setAt hat (f owner).children, Element.setAt]
      exact Element.modifyAt_congr hat' rfl
    rw [hjoined]
    refine shape_ordinary.setAt (m.ordinary_settled hensured) (apart_joinTexts _) (ordinaries_iff.mp
      (ordinaries_joinTexts (m.ordinaries_settled ?_)))
    exact hf owner (shape_ordinary.at? hat hensured)
  · exact (Element.name_modifyAt (f := Element.joined) (fun _ => rfl) _ _).trans hsettledName

end

theorem Element.depth_modifyAt {f : Element → Element} {position : Position} {e x : Element}
    (hat : e.at? position = some x) (hf : (f x).toNode.depth = x.toNode.depth) :
    (e.modifyAt f position).toNode.depth = e.toNode.depth := by
  induction position generalizing e with
  | nil =>
    cases hat
    exact hf
  | cons rank rest ih =>
    obtain ⟨front, c, back, heq, hrank, hx⟩ := Element.at?_cons hat
    rw [heq, modifyAt, modifyElement_append _ hrank]
    refine eq_of_forall_ge_iff fun n => ?_
    cases n with
    | zero => simp [Node.depth, toNode]
    | succ n =>
      rw [depth_toNode_le_iff, depth_toNode_le_iff]
      simp only [List.mem_append, List.mem_cons, or_imp, forall_and, forall_eq, ih hx]

/-- Making the texts of a section one makes no difference to how deeply elements are nested. -/
theorem Document.depthOf_joined {owner : Element} (hsection : d.sectionAt? path = some owner) :
    depthOf (d.withSection path Element.joined).nodes = depthOf d.nodes := by
  obtain ⟨root, position, hroot, hlocate, hat⟩ := locate_of_sectionAt? hsection
  have hdepth := Element.depth_modifyAt hat owner.depth_joined
  obtain ⟨front, back, hnodes, hrank⟩ := @exists_split_of_getElem? d.nodes 0 root
    (by rw [← List.head?_eq_getElem?]; exact hroot)
  have hnone : elementsOf front = [] := List.length_eq_zero_iff.mp hrank
  rw [withSection_of_locate hroot hlocate, withRoot]
  dsimp only
  rw [hnodes, setFirstElement_append hnone]
  refine eq_of_forall_ge_iff fun n => ?_
  rw [depthOf_le_iff, depthOf_le_iff]
  simp only [List.mem_append, List.mem_cons, or_imp, forall_and, forall_eq, hdepth]

/-- Making the texts of a section one leaves its entries as they are. -/
theorem Document.entriesAt_joined {owner : Element} (hsection : d.sectionAt? path = some owner) :
    (d.withSection path Element.joined).entriesAt path = owner.elements := by
  obtain ⟨root, -, hroot, -, -⟩ := locate_of_sectionAt? hsection
  obtain ⟨x, hjoined, hwas⟩ := @sectionAt?_withSection d root path Element.joined hroot fun _ => rfl
  have hentries := elements_sectionAt? hwas
  rw [entriesAt, hsection] at hentries
  rw [entriesAt, hjoined]
  exact x.elements_joined.trans hentries

/-! What is loaded afterwards. -/

/--
Once a section was refreshed, the file can be loaded exactly when a document type with a public identifier
has a system identifier and elements are not nested too deeply, and the section has the entries that were
kept, settled, around those that were added.
-/
theorem Maintainer.load_renewed_iff {contents : Contents} {requested : Option String} {report : Report}
    (hload : Gives (Document.load p) w d w₀) (hd : d.IsOrdinary contents)
    (hname : d.encoding.toUpper = "UTF-8") (hwhite : m.style.indent.isWhite = true)
    (hpath : ∀ name ∈ path, isPlainName name)
    (hmade : ∀ c ∈ renewal.candidates, c.IsMade)
    (hrun : Gives (m.refreshEntries p path renewal requested) w report w') :
    ∃ (candidates : List Element) (w₁ : World) (owner : Element),
      Gives (m.stamp renewal.candidates requested) w candidates w₁ ∧
      owner.elements = d.entriesAt path ∧
      ((∃ d' w'', Gives (Document.load p) w' d' w'') ↔
        (∀ type ∈ contents.doctype, type.id.isComplete = true) ∧
          depthOf (m.settledDocument
            (d.withSection path (Element.refreshed { renewal with candidates }))).nodes ≤ Xml.maxDepth) ∧
      ∀ d' w'', Gives (Document.load p) w' d' w'' →
        List.Forall₂ (fun a e : Element => a.toNode.same (m.settled e).toNode = true) (d'.entriesAt path)
          (owner.refreshed { renewal with candidates }).elements := by
  obtain ⟨root, hroot⟩ := hd.exists_root
  obtain ⟨candidates, w₁, w₂, hstamp, -, hwrite⟩ := gives_refreshEntries_section hload hroot hrun
  obtain ⟨-, w₃, w₄, -, hsave, htree₄⟩ := gives_write hwrite
  obtain ⟨owner, hsection, helements⟩ := @Document.sectionAt?_settledSection path d root
    (Element.refreshed { renewal with candidates }) (fun _ => rfl) hroot m
  have hordinary := hd.withSettledSection (f := Element.refreshed { renewal with candidates })
    (fun _ => rfl) hpath (fun x hx => ordinaries_refresh x.name hx.2.2
      (ordinary_of_gives_stamp hstamp hmade)) m
  have hnewName : ((m.settledDocument (d.withSection path (Element.refreshed
      { renewal with candidates }))).withSection path Element.joined).encoding.toUpper = "UTF-8" := by
    rw [Document.encoding_withSection, m.encoding_settledDocument, Document.encoding_withSection, hname]
  rw [← Document.save_joined hsection] at hsave
  obtain ⟨hcan, hsame⟩ := hordinary.exists_load_iff hnewName hwhite hsave
  have hworld : ∀ d', (∃ w'', Gives (Document.load p) w' d' w'') ↔
      ∃ w'', Gives (Document.load p) w₄ d' w'' := by
    intro d'
    rw [gives_load_iff, gives_load_iff, htree₄]
  refine ⟨candidates, w₁, owner, hstamp, helements, ?_, fun d' w'' hd' => ?_⟩
  · rw [← Document.depthOf_joined hsection, ← hcan]
    exact exists_congr hworld
  · obtain ⟨w₅, hd'⟩ := (hworld d').mp ⟨w'', hd'⟩
    have hentries := Document.entriesAt_of_same (hsame d' w₅ hd') path
    rw [Document.entriesAt_joined hsection, m.elements_settled] at hentries
    exact List.forall₂_map_right_iff.mp hentries

end Manifest
