import Manifest.Proofs.Document.Reload
import Manifest.Proofs.Maintenance.Refreshing
import Manifest.Proofs.Maintenance.Resettling
import Manifest.Proofs.Maintenance.Sections

/-! Registering a module in the manifest in a file. It is reported whether the module was not there before,
the module is in the file afterwards, and registering it again leaves the file as it is. -/

set_option autoImplicit false

namespace Manifest

open Manifest.Action (Gives gives_bind_iff gives_pure_iff gives_record_iff)
open Xml (Contents Scope)

/-! The section of modules. -/

/-- A section of modules with a module in it, unless one of the same path is there already. -/
def Element.registering (path : String) (e : Element) : Element :=
  { e with
    children := (addMissing Identity.module.same none e.name [.module path] e.children).children }

/-- The modules that come into a section. -/
def missingModules (path : String) (entries : List Element) : List Element :=
  newcomers Identity.module.same id entries [.module path]

theorem missingModules_eq (path : String) (entries : List Element) :
    missingModules path entries =
      if entries.any (Identity.module.same · (.module path)) then [] else [.module path] :=
  rfl

theorem children_registering (path : String) (e : Element) :
    (e.registering path).children = withBlock e.children (additionIndex none e.children)
      ((missingModules path e.elements).map Element.toNode) :=
  (addMissing_eq _ _ _ _ _).2

theorem elements_registering (path : String) (e : Element) :
    (e.registering path).elements = e.elements ++ missingModules path e.elements := by
  rw [Element.elements, children_registering]
  exact (elementsOf_withBlock_endPosition _ _).trans (by simp [Element.elements])

/-- A module of another text than white space is the same as each entry with that text. -/
theorem same_module {path : String} (hpath : Text.strip path ≠ "") (e : Element) :
    Identity.module.same e (.module path) = true ↔ Text.strip e.text = Text.strip path := by
  have htext : (Element.module path).text = path := by
    simp [Element.module, Element.leaf, Element.ofName, Element.text, Node.textValue]
  rw [Identity.same, htext]
  simp only [Bool.and_eq_true, beq_iff_eq, Bool.not_eq_true', String.isEmpty_eq_false_iff]
  exact ⟨And.right, fun h => ⟨h ▸ hpath, h⟩⟩

namespace Maintainer

variable {m : Maintainer} {p : Path} {path : String} {d : Document} {w w₀ w' : World} {b : Bool}

/-- Adding to the section at a position. -/
theorem gives_addAt {r : StepResult} {position : Position} {owner : Element}
    (howner : d.at? position = some owner)
    (h : Gives (addAt d (some position) Identity.module.same none [.module path]) w r w') :
    w'.tree = w.tree ∧ r.document = d.setChildren position (owner.registering path).children ∧
      r.outcome = .added ((insertedPositions position (additionRank none owner.children)
        (missingModules path owner.elements).length).map .present) := by
  simp only [addAt, gives_bind_iff, gives_record_iff, gives_pure_iff] at h
  obtain ⟨⟨after, change⟩, w₁, hsections, -, w₂, hw₂, rfl, rfl⟩ := h
  obtain ⟨hadd, rfl⟩ := gives_sections_iff.mp hsections
  obtain ⟨owner', howner', hresult, hafter⟩ := Document.onSection_eq_ok hadd
  rw [howner] at howner'
  cases howner'
  refine ⟨by rw [hw₂], hafter.trans (by rw [hresult]; rfl), ?_⟩
  have hentries : change.entries = missingModules path owner.elements := by
    rw [hresult]
    exact (addMissing_eq _ _ _ _ _).1
  simp only [hentries, howner, Option.map_some, Option.getD_some]

/-- Registering a module in a file that is there: what is written, and what is reported. -/
theorem gives_addModule (hload : Gives (Document.load p) w d w₀)
    (h : Gives (m.addModule p path) w b w') :
    (∃ w₁, w₁.tree = w.tree ∧ Gives (m.write (d.withSection ["modules"] (Element.registering path)) p) w₁
      (m.settledDocument (d.withSection ["modules"] (Element.registering path))) w') ∧
    b = !(d.entriesAt ["modules"]).any (Identity.module.same · (.module path)) := by
  simp only [addModule, update, gives_bind_iff, gives_pure_iff] at h
  obtain ⟨⟨final, reports⟩, w₁, ⟨d', w₂, hload', ⟨d₁, outcomes⟩, w₃, hsteps, final', w₄, hwrite, hreports,
    rfl⟩, rfl, rfl⟩ := h
  obtain ⟨rfl, rfl⟩ := hload.unique (gives_store_iff.mp hload')
  simp only [runSteps, Step.run, gives_bind_iff, gives_pure_iff] at hsteps
  obtain ⟨result, w₅, ⟨⟨d₂, position⟩, w₆, hensure, hadd⟩, hresult, rfl⟩ := hsteps
  obtain ⟨htree₆, root, hroot, rfl, rfl⟩ := gives_ensureSection hensure
  obtain ⟨owner, howner, -, -, hwas⟩ := root.at?_ensure (pathBelow root ["modules"])
  have hat : (d.withRoot (root.ensure (pathBelow root ["modules"])).element).at?
      (root.ensure (pathBelow root ["modules"])).position = some owner := by
    rw [Document.at?_withRoot (by rw [hroot]; rfl)]
    exact howner
  obtain ⟨htree₅, hdocument, houtcome⟩ := gives_addAt hat hadd
  have hnew := Document.setChildren_ensure hroot howner (Element.registering path) fun _ => rfl
  have hentries : owner.elements = d.entriesAt ["modules"] := by
    refine Document.elements_sectionAt? ?_
    rw [Document.sectionAt?, hroot]
    exact hwas
  cases hresult
  cases hreports
  rw [hdocument, hnew] at hwrite
  obtain ⟨rfl, -⟩ := gives_write hwrite
  refine ⟨⟨_, ?_, hwrite⟩, ?_⟩
  · obtain ⟨-, -, -, htree₀⟩ := gives_load hload
    rw [htree₅, htree₆, htree₀]
  · -- what was added is reported as it stands in the document that was written
    have hlook := look_insertedPositions m hat owner.children none (missingModules path owner.elements)
    rw [← children_registering, hnew] at hlook
    rw [List.map_nil, List.nil_append, List.map_singleton, List.any_cons, List.any_nil, Bool.or_false,
      houtcome, Outcome.report, hlook, Report.changed, hentries, missingModules_eq]
    split
    · next hany => rw [hany]; rfl
    · next hany => rw [Bool.not_eq_true] at hany; rw [hany]; rfl

/-- A module can be registered where the document can be saved with it. -/
theorem exists_addModule (hload : Gives (Document.load p) w d w₀) {root : Element}
    (hroot : d.root? = some root)
    (hsave : ∀ w₁ : World, w₁.tree = w.tree → ∃ w₂, Gives
      ((m.settledDocument (d.withSection ["modules"] (Element.registering path))).save p m.style) w₁ () w₂) :
    ∃ b w', Gives (m.addModule p path) w b w' := by
  obtain ⟨-, -, -, htree₀⟩ := gives_load hload
  obtain ⟨owner, howner, -, -, -⟩ := root.at?_ensure (pathBelow root ["modules"])
  have hat : (d.withRoot (root.ensure (pathBelow root ["modules"])).element).at?
      (root.ensure (pathBelow root ["modules"])).position = some owner := by
    rw [Document.at?_withRoot (by rw [hroot]; rfl)]
    exact howner
  have hnew := Document.setChildren_ensure hroot howner (Element.registering path) fun _ => rfl
  obtain ⟨w₁, hensure⟩ := exists_ensureSection hroot ["modules"] w₀
  obtain ⟨r, w₂, hadd⟩ : ∃ r w₂, Gives (addAt (d.withRoot
      (root.ensure (pathBelow root ["modules"])).element)
        (some (root.ensure (pathBelow root ["modules"])).position) Identity.module.same none
          [.module path]) w₁ r w₂ := by
    simp only [addAt, gives_bind_iff, gives_record_iff, gives_pure_iff]
    exact ⟨_, _, (_, _), _, gives_sections_iff.mpr ⟨Document.onSection_of_at? _ _ hat, rfl⟩, (), _, rfl,
      rfl, rfl⟩
  obtain ⟨htree₁, -⟩ := gives_ensureSection hensure
  obtain ⟨htree₂, hdocument, -⟩ := gives_addAt hat hadd
  rw [hnew] at hdocument
  obtain ⟨w', hwrite⟩ := exists_write (Document.root?_withSection hroot) fun w₃ hw₃ =>
    hsave w₃ (by rw [hw₃, htree₂, htree₁, htree₀])
  simp only [addModule, update, runSteps, Step.run, gives_bind_iff, gives_pure_iff]
  exact ⟨_, w', (_, _), w', ⟨d, w₀, gives_store_iff.mpr hload, (_, _), w₂, ⟨r, w₂, ⟨(_, _), w₁, hensure, hadd⟩,
    rfl, rfl⟩, _, w', hdocument ▸ hwrite, rfl, rfl⟩, rfl, rfl⟩

end Maintainer

/-! What is written. -/

/-- The document that is written when a module is registered in one. -/
def Maintainer.withModule (m : Maintainer) (path : String) (d : Document) : Document :=
  m.settledDocument (d.withSection ["modules"] (Element.registering path))

theorem isPlainName_modules : ∀ name ∈ ["modules"], isPlainName name := by
  decide

theorem Element.ordinary_registering {path : String} {x : Element} (hx : x.toNode.ordinary) :
    (x.registering path).toNode.ordinary := by
  obtain ⟨htag, hfits⟩ := (shape_ordinary.element_iff x).mp hx
  have hmodule : (Element.module path).toNode.ordinary :=
    shape_ordinary.leaf (ordinary_tag_ofName (by decide)) path
  exact (shape_ordinary.element_iff _).mpr ⟨htag,
    fits_addMissing (by simpa using hmodule) Identity.module.same none x.name hfits⟩

theorem Element.known_registering {path : String} (hpath : path ≠ "") {inner : Scope} {x : Element}
    (hx : x.toNode.known inner) :
    (x.registering path).toNode.known inner := by
  obtain ⟨⟨scope, htag, hchildren⟩, ha⟩ := hx
  have hmodule : (Element.module path).toNode.known scope :=
    known_ofName htag.allowed (by decide) ⟨hpath, trivial⟩ (List.isChain_singleton _)
  have hnew : knownAll scope ((missingModules path x.elements).map Element.toNode) := by
    rw [missingModules_eq]
    split
    · exact trivial
    · exact ⟨hmodule, trivial⟩
  rw [Element.toNode, children_registering]
  refine ⟨⟨scope, htag, ?_⟩, apart_withBlock ha _ _⟩
  rw [← List.take_append_drop (additionIndex none x.children) x.children] at hchildren
  obtain ⟨hfront, hback⟩ := knownAll_append.mp hchildren
  exact knownAll_append.mpr ⟨hfront, knownAll_append.mpr ⟨hnew, hback⟩⟩

theorem Element.depth_registering_le (path : String) (x : Element) (n : Nat) (hn : 2 ≤ n)
    (hx : x.toNode.depth ≤ n) : (x.registering path).toNode.depth ≤ n := by
  obtain ⟨n, rfl⟩ : ∃ k, n = k + 1 := ⟨n - 1, by omega⟩
  rw [depth_toNode_le_iff] at hx ⊢
  rw [children_registering]
  intro node hnode
  rcases mem_insertNodes hnode with hnode | hnode
  · obtain ⟨e, he, rfl⟩ := List.mem_map.mp hnode
    rw [missingModules_eq] at he
    split at he
    · cases he
    · rw [List.mem_singleton.mp he]
      exact (by decide : (1 : Nat) ≤ 1).trans (by omega)
  · exact hx node hnode

namespace Document

variable {m : Maintainer} {path : String} {d : Document} {contents : Contents}

theorem IsOrdinary.withModule (hd : d.IsOrdinary contents) (m : Maintainer) (path : String) :
    (m.withModule path d).IsOrdinary contents :=
  (hd.withSection (f := Element.registering path) isPlainName_modules (fun _ => rfl) fun _ hx =>
    Element.ordinary_registering hx).settled m

theorem knownAll_withModule (hd : knownAll [] d.nodes) (m : Maintainer) (hpath : path ≠ "") :
    knownAll [] (m.withModule path d).nodes := by
  have hknown := @knownAll_withSection d ["modules"] (Element.registering path) hd isPlainName_modules
    fun _ _ _ hx => Element.known_registering hpath hx
  rw [Maintainer.withModule, Maintainer.settledDocument]
  cases h : (d.withSection ["modules"] (Element.registering path)).root? with
  | none => exact hknown
  | some root => exact knownAll_withRoot hknown (Maintainer.known_settled (known_root hknown h))

theorem depthOf_withModule_le (m : Maintainer) (path : String) {n : Nat} (hn : 3 ≤ n)
    (hd : depthOf d.nodes ≤ n) : depthOf (m.withModule path d).nodes ≤ n :=
  m.depthOf_settledDocument_le
    (depthOf_withSection_le (Element.depth_registering_le path) hn Nat.two_pos hd)

/-- The modules that are written are those that were there, and the new one. -/
theorem entriesAt_withModule {root : Element} (hroot : d.root? = some root) (m : Maintainer)
    (path : String) :
    (m.withModule path d).entriesAt ["modules"] =
      (d.entriesAt ["modules"] ++ missingModules path (d.entriesAt ["modules"])).map m.settled := by
  obtain ⟨owner, hsection, hwas⟩ := @sectionAt?_withSection d root ["modules"]
    (Element.registering path) hroot fun _ => rfl
  rw [Maintainer.withModule, m.entriesAt_settledDocument, entriesAt, hsection, Option.map_some,
    Option.getD_some, elements_registering, elements_sectionAt? hwas]

/-- Nothing is written anew where the module is there and all leaves are settled. -/
theorem withModule_eq_self {root : Element} (hroot : d.root? = some root) (hsettled : m.settled root = root)
    {e : Element} (he : e ∈ d.entriesAt ["modules"])
    (hsame : Identity.module.same e (.module path) = true) : m.withModule path d = d := by
  obtain ⟨owner, howner, helements⟩ : ∃ owner, d.sectionAt? ["modules"] = some owner ∧
      d.entriesAt ["modules"] = owner.elements := by
    rw [entriesAt] at he ⊢
    cases hsection : d.sectionAt? ["modules"] with
    | none =>
      rw [hsection] at he
      cases he
    | some owner => exact ⟨owner, rfl, rfl⟩
  have hpresent : (d.entriesAt ["modules"]).any (Identity.module.same · (.module path)) = true :=
    List.any_eq_true.mpr ⟨e, he, hsame⟩
  have hmissing : missingModules path owner.elements = [] := by
    rw [missingModules_eq, ← helements, if_pos hpresent]
  have hself : owner.registering path = owner := by
    have hchildren := children_registering path owner
    rw [hmissing, withBlock, List.map_nil, List.nil_append, List.take_append_drop] at hchildren
    exact congrArg (Element.mk owner.tag) hchildren
  rw [Maintainer.withModule, withSection_eq_self howner hself, m.settledDocument_of_root hroot, hsettled,
    withRoot_self hroot]

end Document

/-! What is read again. -/

/-- Elements that are the same, settled or not, have texts that are the same but for white space around them. -/
theorem Element.strip_text_of_same_settled {m : Maintainer} {x y : Element}
    (h : x.toNode.same (m.settled y).toNode = true) (hy : inOnePiece y.children = true) :
    Text.strip x.text = Text.strip y.text := by
  rw [Maintainer.settled] at h
  split at h
  · rw [strip_text_of_same h (Identity.inOnePiece_collapse hy), Identity.strip_text_collapse]
  · exact strip_text_of_same h hy

theorem text_module (path : String) : (Element.module path).text = path := by
  simp [Element.module, Element.leaf, Element.ofName, Element.text, Node.textValue]

theorem inOnePiece_module (path : String) : inOnePiece (Element.module path).children = true := by
  rw [inOnePiece, decide_eq_true_eq]
  exact List.length_filterMap_le _ _

/-- What is written of a new module is read as a module of that path. -/
theorem map_of_same_missingModules {m : Maintainer} {path : String} {entries new : List Element}
    (h : List.Forall₂ (fun a e : Element => a.toNode.same e.toNode = true) new
      ((missingModules path entries).map m.settled)) :
    new.map (fun e => (e.name, Text.strip e.text)) =
      if entries.any (Identity.module.same · (.module path)) then [] else [("module", Text.strip path)] := by
  rw [missingModules_eq] at h
  split
  · next hany =>
    rw [if_pos hany] at h
    cases h
    rfl
  · next hany =>
    rw [if_neg hany] at h
    cases h with
    | cons hae hrest =>
      cases hrest
      rw [List.map_singleton, Element.strip_text_of_same_settled hae (inOnePiece_module path), text_module,
        Element.name_of_same hae, m.name_settled]
      rfl

/-- The modules of a document that is the same as the one that is written. -/
theorem Document.entriesAt_of_same_withModule {m : Maintainer} {path : String} {d d' : Document}
    {root : Element} (hroot : d.root? = some root) (h : d'.same (m.withModule path d) = true) :
    ∃ old new, d'.entriesAt ["modules"] = old ++ new ∧
      List.Forall₂ (fun a e : Element => a.toNode.same (m.settled e).toNode = true) old
        (d.entriesAt ["modules"]) ∧
      new.map (fun e => (e.name, Text.strip e.text)) =
        if (d.entriesAt ["modules"]).any (Identity.module.same · (.module path)) then []
        else [("module", Text.strip path)] := by
  have hentries := Document.entriesAt_of_same h ["modules"]
  rw [Document.entriesAt_withModule hroot, List.map_append] at hentries
  have hold := List.forall₂_take_append _ _ _ hentries
  have hnew := List.forall₂_drop_append _ _ _ hentries
  exact ⟨_, _, (List.take_append_drop _ _).symm, List.forall₂_map_right_iff.mp hold,
    map_of_same_missingModules hnew⟩

/-- Registering a module that is there already, where everything was settled when it was saved. -/
theorem Maintainer.addModule_of_present {m : Maintainer} {p : Path} {path : String} {new d' : Document}
    {contents : Contents} {root x : Element} {w w₁ w' w'' : World} (hnew : new.IsOrdinary contents)
    (hknown : knownAll [] new.nodes) (hsettled : new.isSettled = true)
    (hname : new.encoding.toUpper = "UTF-8") (hwhite : m.style.indent.isWhite = true)
    (hroot : new.root? = some root) (hfix : m.settled root = root)
    (hsave : Gives (new.save p m.style) w () w') (htree : w₁.tree = w'.tree)
    (hload : Gives (Document.load p) w₁ d' w'') (hx : x ∈ d'.entriesAt ["modules"])
    (hsame : Identity.module.same x (.module path) = true) :
    ∃ w₂, Gives (m.addModule p path) w₁ false w₂ ∧ w₂.tree.read p = w₁.tree.read p := by
  obtain ⟨w₀, hload'⟩ := exists_load_of_read_eq hload (congrArg (·.read p) htree.symm)
  obtain ⟨bytes, r, e, mk, laid, hbytes, hreloaded⟩ :=
    hnew.reloaded hknown hsettled hname hwhite hsave hload'
  obtain rfl : r = root := Option.some.inj (hreloaded.saved.symm.trans hroot)
  have hself := Document.withModule_eq_self hreloaded.loaded
    (Maintainer.settled_of_same hreloaded.same (hnew.root hroot).1 hfix) hx hsame
  have hagain : ∀ w₂ : World, w₂.tree = w₁.tree →
      ∃ w₃, Gives ((m.withModule path d').save p m.style) w₂ () w₃ ∧
        w₃.tree.read p = w₂.tree.read p := by
    intro w₂ htree₂
    rw [hself]
    exact Document.gives_save_again hsave hbytes (hreloaded.bytes_self hwhite) (htree₂.trans htree)
  obtain ⟨b, w₅, hsecond⟩ := m.exists_addModule hload hreloaded.loaded fun w₂ htree₂ => by
    obtain ⟨w₃, hgives, -⟩ := hagain w₂ htree₂
    exact ⟨w₃, hgives⟩
  obtain ⟨⟨w₆, htree₆, hwrite⟩, rfl⟩ := Maintainer.gives_addModule hload hsecond
  have hpresent : (d'.entriesAt ["modules"]).any (Identity.module.same · (.module path)) = true :=
    List.any_eq_true.mpr ⟨x, hx, hsame⟩
  rw [hpresent] at hsecond
  refine ⟨w₅, hsecond, ?_⟩
  rw [← Maintainer.withModule] at hwrite
  obtain ⟨-, w₇, w₈, htree₇, hsave₂, htree₈⟩ := Maintainer.gives_write hwrite
  obtain ⟨w₉, hgives, hfile⟩ := hagain w₇ (htree₇.trans htree₆)
  obtain ⟨-, rfl⟩ := hgives.unique hsave₂
  rw [htree₈, hfile, htree₇, htree₆]

/-- Where a module can be registered, the file can be loaded. -/
theorem Maintainer.exists_load_of_addModule {m : Maintainer} {p : Path} {path : String} {w w' : World}
    {b : Bool} (h : Gives (m.addModule p path) w b w') : ∃ d w₀, Gives (Document.load p) w d w₀ := by
  simp only [addModule, update, gives_bind_iff, gives_pure_iff] at h
  obtain ⟨_, w₁, ⟨d, w₂, hload, -⟩, -⟩ := h
  exact ⟨d, w₂, gives_store_iff.mp hload⟩

/-- Whether a file can be loaded once a module was registered in it, and what is loaded then. -/
theorem Maintainer.load_registered_iff {m : Maintainer} {p : Path} {path : String} {d : Document}
    {contents : Contents} {w w₀ w' : World} {b : Bool} (hload : Gives (Document.load p) w d w₀)
    (hread : d.HasRead contents) (hsubset : contents.withoutSubset) (hname : d.encoding.toUpper = "UTF-8")
    (hwhite : m.style.indent.isWhite = true) (hrun : Gives (m.addModule p path) w b w') :
    ((∃ d' w'', Gives (Document.load p) w' d' w'') ↔
      ∀ type ∈ contents.doctype, type.id.isComplete = true) ∧
    ∀ d' w'', Gives (Document.load p) w' d' w'' → d'.same (m.withModule path d) = true := by
  obtain ⟨⟨w₁, -, hwrite⟩, -⟩ := Maintainer.gives_addModule hload hrun
  rw [← Maintainer.withModule] at hwrite
  obtain ⟨-, w₂, w₃, -, hsave, htree₃⟩ := Maintainer.gives_write hwrite
  have hnewName : (m.withModule path d).encoding.toUpper = "UTF-8" := by
    rw [Maintainer.withModule, m.encoding_settledDocument, Document.encoding_withSection, hname]
  have hworld : ∀ d', (∃ w'', Gives (Document.load p) w' d' w'') ↔
      ∃ w'', Gives (Document.load p) w₃ d' w'' := by
    intro d'
    rw [gives_load_iff, gives_load_iff, htree₃]
  obtain ⟨hcan, hsame⟩ := ((hread.isOrdinary hsubset).withModule m path).exists_load_iff hnewName hwhite hsave
  have hdepth := Document.depthOf_withModule_le m path (by decide) hread.depth_le
  refine ⟨(exists_congr hworld).trans (hcan.trans ⟨And.left, fun htype => ⟨htype, hdepth⟩⟩),
    fun d' w'' hd' => ?_⟩
  obtain ⟨w₄, hd'⟩ := (hworld d').mp ⟨w'', hd'⟩
  exact hsame d' w₄ hd'

/--
Registering a module is reported as true exactly when no module of that path was there. The file can be
loaded afterwards exactly when a document type with a public identifier has a system identifier, and the
modules in it are those that were there, settled, and the new one. With all tags settled, registering the
module again is reported as false and leaves the file as it is, unless all modules of that path have a text
that is cut to pieces.
-/
theorem load_addModule_iff {m : Maintainer} {p : Path} {path : String} {d : Document} {contents : Contents}
    {w w₀ w' : World} {b : Bool} (hload : Gives (Document.load p) w d w₀) (hread : d.HasRead contents)
    (hsubset : contents.withoutSubset) (hname : d.encoding.toUpper = "UTF-8")
    (hwhite : m.style.indent.isWhite = true) (hpath : Text.strip path ≠ "")
    (hrun : Gives (m.addModule p path) w b w') :
    (b = true ↔ ∀ e ∈ d.entriesAt ["modules"], Text.strip e.text ≠ Text.strip path) ∧
    ((∃ d' w'', Gives (Document.load p) w' d' w'' ∧
        ∃ old new, d'.entriesAt ["modules"] = old ++ new ∧
          List.Forall₂ (fun a e : Element => a.toNode.same (m.settled e).toNode = true) old
            (d.entriesAt ["modules"]) ∧
          new.map (fun e => (e.name, Text.strip e.text)) =
            if b then [("module", Text.strip path)] else []) ↔
      ∀ type ∈ contents.doctype, type.id.isComplete = true) ∧
    ((∀ type ∈ contents.doctype, type.id.isComplete = true) → (m.withModule path d).isSettled = true →
      (b = true ∨ ∃ e ∈ d.entriesAt ["modules"], Text.strip e.text = Text.strip path ∧
        inOnePiece e.children = true) →
      ∃ w₂, Gives (m.addModule p path) w' false w₂ ∧ w₂.tree.read p = w'.tree.read p) := by
  obtain ⟨⟨w₁, -, hwrite⟩, hb⟩ := Maintainer.gives_addModule hload hrun
  rw [← Maintainer.withModule] at hwrite
  obtain ⟨-, w₂, w₃, -, hsave, htree₃⟩ := Maintainer.gives_write hwrite
  have hd := hread.isOrdinary hsubset
  obtain ⟨root, hroot⟩ := hd.exists_root
  have hwritten := hd.withModule m path
  have hnewName : (m.withModule path d).encoding.toUpper = "UTF-8" := by
    rw [Maintainer.withModule, m.encoding_settledDocument, Document.encoding_withSection, hname]
  have hreport : b = true ↔ ∀ e ∈ d.entriesAt ["modules"], Text.strip e.text ≠ Text.strip path := by
    rw [hb, Bool.not_eq_true', List.any_eq_false]
    exact forall₂_congr fun e _ => not_congr (same_module hpath e)
  obtain ⟨hcan, hsame⟩ := Maintainer.load_registered_iff hload hread hsubset hname hwhite hrun
  have hloaded : (∀ type ∈ contents.doctype, type.id.isComplete = true) →
      ∃ d' w'', Gives (Document.load p) w' d' w'' ∧
        ∃ old new, d'.entriesAt ["modules"] = old ++ new ∧
          List.Forall₂ (fun a e : Element => a.toNode.same (m.settled e).toNode = true) old
            (d.entriesAt ["modules"]) ∧
          new.map (fun e => (e.name, Text.strip e.text)) =
            if b then [("module", Text.strip path)] else [] := by
    intro htype
    obtain ⟨d', w'', hd'⟩ := hcan.mpr htype
    obtain ⟨old, new, heq, hold, hnew⟩ := Document.entriesAt_of_same_withModule hroot (hsame d' w'' hd')
    refine ⟨d', w'', hd', old, new, heq, hold, ?_⟩
    rw [hnew, hb]
    cases (d.entriesAt ["modules"]).any (Identity.module.same · (.module path)) <;> rfl
  refine ⟨hreport, ⟨?_, hloaded⟩, fun htype hsettled hlegible => ?_⟩
  · rintro ⟨d', w'', hd', -⟩
    exact hcan.mp ⟨d', w'', hd'⟩
  · obtain ⟨d', w'', hd', old, new, heq, hold, hnew⟩ := hloaded htype
    -- the module is found again, so there is nothing to do
    obtain ⟨x, hx, hsameModule⟩ : ∃ x ∈ d'.entriesAt ["modules"],
        Identity.module.same x (.module path) = true := by
      rw [heq]
      rcases hlegible with htrue | ⟨entry, hentry, htext, hpiece⟩
      · rw [if_pos htrue] at hnew
        obtain ⟨x, rfl, hpair⟩ := List.map_eq_singleton_iff.mp hnew
        exact ⟨x, by simp, (same_module hpath x).mpr (congrArg Prod.snd hpair)⟩
      · obtain ⟨i, hi, rfl⟩ := List.getElem_of_mem hentry
        obtain ⟨hlength, hget⟩ := List.forall₂_iff_get.mp hold
        refine ⟨old[i], by simp, (same_module hpath _).mpr ?_⟩
        rw [← htext]
        exact Element.strip_text_of_same_settled (hget i (hlength ▸ hi) hi) hpiece
    obtain ⟨r, hr⟩ := hwritten.exists_root
    have hfix : m.settled r = r := by
      have hr' := hr
      rw [Maintainer.withModule, m.root?_settledDocument] at hr'
      obtain ⟨before, -, rfl⟩ := Option.map_eq_some_iff.mp hr'
      exact m.settled_settled before
    have hpathNe : path ≠ "" := by
      rintro rfl
      exact hpath rfl
    exact Maintainer.addModule_of_present hwritten
      (Document.knownAll_withModule (hread.known hsubset) m hpathNe) hsettled hnewName hwhite hr hfix
      hsave htree₃ hd' hx hsameModule

set_option maxRecDepth 10000 in
theorem load_addModule_emptyModules :
    ∃ d contents w₀ w', Gives (Document.load manifestFile) (oneFile emptyModules) d w₀ ∧
      d.HasRead contents ∧ contents.withoutSubset ∧ d.encoding.toUpper = "UTF-8" ∧
      Text.strip "x" ≠ "" ∧
      Gives (Maintainer.addModule {} manifestFile "x") (oneFile emptyModules) true w' ∧
      (∃ d' w'' x, Gives (Document.load manifestFile) w' d' w'' ∧ d'.entriesAt ["modules"] = [x] ∧
        x.name = "module" ∧ Text.strip x.text = "x") ∧
      ∃ w₂, Gives (Maintainer.addModule {} manifestFile "x") w' false w₂ ∧
        w₂.tree.read manifestFile = w'.tree.read manifestFile := by
  have hload := Action.gives_resultD (a := Document.load manifestFile) (w := oneFile emptyModules) {}
    (by decide +kernel)
  have hencoding : ((Document.load manifestFile).resultD (oneFile emptyModules) {}).encoding =
      "UTF-8" := by
    decide +kernel
  have hentries : ((Document.load manifestFile).resultD (oneFile emptyModules) {}).entriesAt
      ["modules"] = [] := List.length_eq_zero_iff.mp (by decide +kernel)
  have hrun := Action.gives_resultD (a := Maintainer.addModule {} manifestFile "x")
    (w := oneFile emptyModules) false (by decide +kernel)
  have htrue : (Maintainer.addModule {} manifestFile "x").resultD (oneFile emptyModules) false = true := by
    decide +kernel
  rw [htrue] at hrun
  have hsettled : (Maintainer.withModule {} "x"
      ((Document.load manifestFile).resultD (oneFile emptyModules) {})).isSettled = true := by
    decide +kernel
  obtain ⟨contents, hcontents, hread⟩ := exists_contents hload
  have hdoctype : contents.doctype = none := by
    have hnone : (readStored emptyModules.toUTF8).bind (·.doctype) = none := by decide +kernel
    rwa [hcontents] at hnone
  have hsubset := Contents.withoutSubset_of_doctype_eq_none hdoctype
  have hname : ((Document.load manifestFile).resultD (oneFile emptyModules) {}).encoding.toUpper =
      "UTF-8" := by
    rw [hencoding, ← String.toList_inj, String.toUpper, String.toList_map]
    decide +kernel
  have hpath : Text.strip "x" ≠ "" := by decide +kernel
  have hx : Text.strip "x" = "x" := by decide +kernel
  have htype : ∀ type ∈ contents.doctype, type.id.isComplete = true := by
    rw [hdoctype]
    rintro _ ⟨⟩
  obtain ⟨-, hiff, hagain⟩ := load_addModule_iff hload hread hsubset hname rfl hpath hrun
  obtain ⟨d', w'', hloaded, old, new, heq, hold, hnew⟩ := hiff.mpr htype
  rw [hentries] at hold
  cases hold
  rw [if_pos rfl] at hnew
  obtain ⟨x, rfl, hpair⟩ := List.map_eq_singleton_iff.mp hnew
  obtain ⟨hmodule, htext⟩ := Prod.mk.inj hpair
  exact ⟨_, contents, _, _, hload, hread, hsubset, hname, hpath, hrun, ⟨d', w'', x, hloaded, heq, hmodule,
    htext.trans hx⟩, hagain htype hsettled (Or.inl rfl)⟩

set_option maxRecDepth 10000 in
/-- Where the system identifier is not written, the file can neither be loaded nor worked on again. -/
theorem addModule_publicModules_not_loaded :
    ∃ d contents w₀ w', Gives (Document.load manifestFile) (oneFile publicModules) d w₀ ∧
      d.HasRead contents ∧ contents.withoutSubset ∧ d.encoding = "UTF-8" ∧
      Gives (Maintainer.addModule {} manifestFile "x") (oneFile publicModules) true w' ∧
      (¬ ∃ d' w'', Gives (Document.load manifestFile) w' d' w'') ∧
      ¬ ∃ b w₂, Gives (Maintainer.addModule {} manifestFile "x") w' b w₂ := by
  have hload := Action.gives_resultD (a := Document.load manifestFile) (w := oneFile publicModules) {}
    (by decide +kernel)
  have hencoding : ((Document.load manifestFile).resultD (oneFile publicModules) {}).encoding =
      "UTF-8" := by
    decide +kernel
  have hrun := Action.gives_resultD (a := Maintainer.addModule {} manifestFile "x")
    (w := oneFile publicModules) false (by decide +kernel)
  have htrue : (Maintainer.addModule {} manifestFile "x").resultD (oneFile publicModules) false = true := by
    decide +kernel
  rw [htrue] at hrun
  obtain ⟨contents, hcontents, hread⟩ := exists_contents hload
  have hsubset : contents.withoutSubset := by
    have hnone : (((readStored publicModules.toUTF8).bind (·.doctype)).all (!·.hasSubset)) = true := by
      decide +kernel
    rw [hcontents, Option.bind_some, Option.all_eq_true] at hnone
    exact fun type htype => by simpa using hnone type htype
  have hname : ((Document.load manifestFile).resultD (oneFile publicModules) {}).encoding.toUpper =
      "UTF-8" := by
    rw [hencoding, ← String.toList_inj, String.toUpper, String.toList_map]
    decide +kernel
  have hincomplete : ((readStored publicModules.toUTF8).bind (·.doctype)).any (!·.id.isComplete) =
      true := by
    decide +kernel
  rw [hcontents, Option.bind_some, Option.any_eq_true] at hincomplete
  obtain ⟨type, htype, hno⟩ := hincomplete
  have hlost : ¬ ∃ d' w'', Gives (Document.load manifestFile)
      ((Maintainer.addModule {} manifestFile "x").after (oneFile publicModules)) d' w'' := by
    intro hloaded
    rw [(Maintainer.load_registered_iff hload hread hsubset hname rfl hrun).1.mp hloaded type htype] at hno
    cases hno
  exact ⟨_, contents, _, _, hload, hread, hsubset, hencoding, hrun, hlost,
    fun ⟨_, _, hagain⟩ => hlost (Maintainer.exists_load_of_addModule hagain)⟩

end Manifest
