import Manifest.Proofs.Entry
import Manifest.Proofs.Maintenance.Renewing
import Manifest.Proofs.Maintenance.Rereading

/-! Refreshing a section of a file twice in the same way. The second run finds what the first one wrote, takes
it out and puts it back, and the file stays as it is. -/

set_option autoImplicit false

namespace Manifest

open Manifest.Action (Gives gives_pure_iff)
open Xml (Contents Markup Scope isDocumentText qualify)

/-! Candidates that can stand anywhere. -/

mutual

/-- Nodes without namespaces need no declarations, wherever they stand. -/
theorem Node.known_of_isLocal {from' origin : Scope} (horigin : ∀ b ∈ origin, Xml.Allowed b)
    (node : Node) (h : node.known from') (hlocal : node.isLocal = true) : node.known origin := by
  cases node with
  | element tag children =>
    obtain ⟨⟨inner, htag, hchildren⟩, ha⟩ := h
    rw [Node.isLocal, Bool.and_eq_true, Tag.isLocal_iff] at hlocal
    obtain ⟨⟨-, hbindings, hplain⟩, hall⟩ := hlocal
    refine ⟨⟨origin, ⟨htag.ordinary, horigin, ?_, fun a ha x hx u hu => ?_, fun _ _ b hb => ?_⟩,
      knownAll_of_localAll horigin children hchildren hall⟩, ha⟩
    · rw [hbindings]
      exact Scope.Agrees.refl _
    · obtain rfl := @Xml.eq_of_parse?_tagKey none a.1 nofun (hplain a ha) x hx
      cases hu
    · rw [hbindings] at hb
      cases hb
  | _ => exact h

theorem knownAll_of_localAll {from' origin : Scope} (horigin : ∀ b ∈ origin, Xml.Allowed b)
    (nodes : List Node) (h : knownAll from' nodes) (hlocal : localAll nodes = true) :
    knownAll origin nodes := by
  cases nodes with
  | nil => trivial
  | cons node rest =>
    rw [localAll, Bool.and_eq_true] at hlocal
    exact ⟨node.known_of_isLocal horigin h.1 hlocal.1, knownAll_of_localAll horigin rest h.2 hlocal.2⟩

end

/-- A refreshed section, its texts made one, needs no more declarations than the section did. -/
theorem Renewal.Portable.known_joined_refreshed {r : Renewal}
    (hportable : r.Portable) {inner : Scope} {x : Element} (hx : x.toNode.known inner) :
    (x.refreshed r).joined.toNode.known inner := by
  obtain ⟨⟨scope, htag, hchildren⟩, -⟩ := hx
  refine ⟨⟨scope, htag, knownAll_joinTexts (knownAll_iff.mpr fun node hn => ?_)⟩, apart_joinTexts _⟩
  have hkept : ∀ node ∈ r.kept x.children, node.known scope :=
    fun node hn => knownAll_iff.mp hchildren node ((kept_sublist r _).subset hn)
  rw [Element.refreshed, r.children_eq] at hn
  rcases List.mem_append.mp hn with hn | hn
  · exact hkept node (List.mem_of_mem_take hn)
  rcases List.mem_append.mp hn with hn | hn
  · obtain ⟨c, hc, rfl⟩ := List.mem_map.mp hn
    have hcandidate := (block_sublist r _).subset hc
    exact c.toNode.known_of_isLocal htag.allowed (hportable.known c hcandidate)
      (hportable.isLocal c hcandidate)
  · exact hkept node (List.mem_of_mem_drop hn)

/-! Candidates with a version stamped on them. -/

theorem Element.isLocal_withVersion {e : Element} {version : String} (hne : version ≠ "")
    (h : e.toNode.isLocal = true) : (e.withVersion version).toNode.isLocal = true := by
  obtain ⟨front, old, back, hchildren, hversion⟩ := e.exists_withVersion hne
  rw [toNode, Node.isLocal, Bool.and_eq_true, localAll_iff, hchildren] at h
  rw [hversion, toNode, Node.isLocal, Bool.and_eq_true, localAll_iff]
  refine ⟨h.1, fun node hn => ?_⟩
  have hold : (old.getD (.ofName "version")).tag.isLocal = true := by
    cases old with
    | none => rfl
    | some old =>
      have hnode := h.2 old.toNode (by simp)
      rw [toNode, Node.isLocal, Bool.and_eq_true] at hnode
      exact hnode.1
  rcases List.mem_append.mp hn with hn | hn
  · exact h.2 node (by simp [hn])
  rcases List.mem_cons.mp hn with rfl | hn
  · rw [withText, toNode, Node.isLocal, hold, if_neg (by simpa using hne)]
    rfl
  · exact h.2 node (by simp [hn])

theorem Element.known_withVersion {origin : Scope} {e : Element} {version : String} (hne : version ≠ "")
    (h : e.toNode.known origin) : (e.withVersion version).toNode.known origin := by
  obtain ⟨front, old, back, hchildren, hversion⟩ := e.exists_withVersion hne
  obtain ⟨⟨inner, htag, hall⟩, ha⟩ := h
  have htext : ∀ x : Element, x.withText version = { x with children := [.text version] } :=
    fun x => by rw [withText, if_neg (by simpa using hne)]
  rw [hchildren] at hall ha
  rw [hversion, htext]
  obtain ⟨hfront, hrest⟩ := knownAll_append.mp hall
  obtain ⟨hold, hback⟩ := knownAll_append.mp hrest
  refine ⟨⟨inner, htag, knownAll_append.mpr ⟨hfront, ?_, hback⟩⟩, ?_⟩
  · cases old with
    | none =>
      exact known_ofName htag.allowed (by simp [isPlainName]) ⟨hne, trivial⟩ (List.isChain_singleton _)
    | some old =>
      obtain ⟨⟨scope, htag', -⟩, -⟩ := hold.1
      exact ⟨⟨scope, htag', hne, trivial⟩, List.isChain_singleton _⟩
  · cases old with
    | none => exact apart_insert rfl ha
    | some old =>
      rw [apart_iff_map, List.map_append] at ha ⊢
      exact ha

variable {m : Maintainer} {p : Path} {path : List String} {renewal : Renewal} {d : Document}
  {root : Element} {w w₀ w' : World}

/-- Stamped candidates are the same as themselves, and can be put into any document, if all were. -/
theorem Maintainer.regular_of_gives_stamp {identity : Identity} {anchor : Option Anchor}
    {requested : Option String} {candidates : List Element} {w₁ : World}
    (hstamp : Gives (m.stamp renewal.candidates requested) w candidates w₁)
    (hregular : renewal.Regular identity anchor) (hportable : renewal.Portable)
    (hne : renewal.candidates ≠ []) :
    ({ renewal with candidates } : Renewal).Regular identity anchor ∧
      ({ renewal with candidates } : Renewal).Portable ∧ candidates ≠ [] := by
  cases requested with
  | none =>
    obtain ⟨rfl, -⟩ := gives_pure_iff.mp hstamp
    exact ⟨hregular, hportable, hne⟩
  | some requested =>
    obtain ⟨version, w₂, hresolve, rfl⟩ := gives_stamp_some hstamp
    have hversion := (strip_of_gives_resolve hresolve).2
    refine ⟨⟨hregular.same, hregular.anchor, hregular.removal, List.forall_mem_map.mpr fun c hc => ?_⟩,
      ⟨List.forall_mem_map.mpr fun c hc => ?_, List.forall_mem_map.mpr fun c hc => ?_⟩, by simpa using hne⟩
    · rw [identity.same_withVersion_left, identity.same_withVersion_right]
      exact hregular.self c hc
    · exact Element.known_withVersion hversion (hportable.known c hc)
    · exact Element.isLocal_withVersion hversion (hportable.isLocal c hc)

/-! What is written. -/

/-- The document that is written when a section of one is refreshed. -/
def Maintainer.withRefresh (m : Maintainer) (path : List String) (r : Renewal) (d : Document) : Document :=
  m.settledDocument (d.withSection path (Element.refreshed r))

/--
How a section is refreshed: `x` is the root once the section is there, `position` the place of the section
in it, and `o` the section.
-/
structure Maintainer.RefreshesIn (m : Maintainer) (path : List String) (r : Renewal) (d : Document)
    (root x o : Element) (position : Position) : Prop where
  ensured : x = (root.ensure (pathBelow root path)).element
  name : x.name = root.name
  located : x.locate (pathBelow root path) = some position
  found : x.at? position = some o
  written : m.withRefresh path r d =
    d.withRoot (m.settled (x.setAt position (refresh r o.name o.children).children))
  entries : (m.withRefresh path r d).entriesAt path =
    (elementsOf (refresh r o.name o.children).children).map m.settled
  /-- What is written with the texts of the section made one. -/
  joined : (m.withRefresh path r d).withSection path Element.joined =
    d.withRoot ((m.settled x).setAt position
      (joinTexts ((refresh r o.name o.children).children.map m.settledNode)))
  settled : (m.settled x).setAt position
      (joinTexts ((refresh r o.name o.children).children.map m.settledNode)) =
    m.settled (x.modifyAt (fun e => (e.refreshed r).joined) position)

theorem Maintainer.exists_refreshesIn (hroot : d.root? = some root) (m : Maintainer)
    (path : List String) {r : Renewal} (hblock : ∀ children, r.block children ≠ []) :
    ∃ x o position, m.RefreshesIn path r d root x o position := by
  obtain ⟨o, hat, hlocate, -, -⟩ := root.at?_ensure (pathBelow root path)
  have hrootName := Element.name_ensure root (pathBelow root path)
  have hworked : d.withSection path (Element.refreshed r) = d.withRoot
      ((root.ensure (pathBelow root path)).element.setAt (root.ensure (pathBelow root path)).position
        (refresh r o.name o.children).children) := by
    rw [Document.withSection_of_root hroot]
    exact congrArg d.withRoot (Element.modifyAt_congr hat rfl)
  generalize hx : (root.ensure (pathBelow root path)).element = x at hat hlocate hworked hrootName
  generalize (root.ensure (pathBelow root path)).position = position at hat hlocate hworked
  have hwritten : m.withRefresh path r d =
      d.withRoot (m.settled (x.setAt position (refresh r o.name o.children).children)) := by
    rw [withRefresh, hworked,
      m.settledDocument_of_root (Document.root?_withRoot d _ (by rw [hroot]; rfl)),
      Document.withRoot_withRoot]
  -- the section in the root that is written
  have hleaf := collapsedLeaf?_refresh o.name (hblock o.children)
  have hnew : (m.withRefresh path r d).root? =
      some (m.settled (x.setAt position (refresh r o.name o.children).children)) := by
    rw [hwritten]
    exact Document.root?_withRoot _ _ (by rw [hroot]; rfl)
  have hname : (m.settled (x.setAt position (refresh r o.name o.children).children)).name =
      root.name := by
    rw [m.name_settled, Document.name_setAt, hrootName]
  have hlocate' : (m.settled (x.setAt position (refresh r o.name o.children).children)).locate
      (pathBelow (m.settled (x.setAt position (refresh r o.name o.children).children)) path) =
        some position := by
    rw [pathBelow_congr hname, Element.locate_settled, Element.locate_setAt hlocate]
  have hat' := m.at?_settled position (x.setAt position (refresh r o.name o.children).children)
  rw [Element.setAt, Element.at?_modifyAt, hat, Option.map_some, Option.map_some,
    m.settled_of_no_leaf hleaf, ← Element.setAt] at hat'
  refine ⟨x, o, position, hx.symm, hrootName, hlocate, hat, hwritten, ?_, ?_, ?_⟩
  · rw [Document.entriesAt, Document.sectionAt?, hnew, Option.bind_some,
      ← Element.at?_of_locate hlocate', hat']
    exact m.elementsOf_map_settledNode _
  · rw [Document.withSection_of_locate hnew hlocate', hwritten, Document.withRoot_withRoot,
      ← m.setAt_settled_setAt hat (refresh r o.name o.children).children]
    exact congrArg d.withRoot (Element.modifyAt_congr hat' rfl)
  · have hjoined : x.modifyAt (fun e => (e.refreshed r).joined) position =
        x.setAt position (joinTexts (refresh r o.name o.children).children) :=
      Element.modifyAt_congr hat rfl
    rw [hjoined, m.settled_setAt hat, map_joinTexts m.settledNode_text m.isText_settledNode]
    rw [r.children_eq, joinTexts_append_elements _ (hblock o.children)]
    exact collapsedLeaf?_append_elements _ (hblock o.children) _

theorem apply_unit {unit : String} (htext : isDocumentText unit = true) (mk : Markup) :
    (Indent.unit unit).apply mk = .ok (mk.indent unit 1) := by
  cases mk with
  | element name attributes children =>
    rw [Indent.apply]
    split
    · next hno => rw [Markup.indent, if_neg (by simpa using hno)]
    · rfl
  | _ => rfl

/-! A second run. -/

/-- The same section is refreshed in the same way in a document that was written and loaded. -/
theorem Maintainer.RefreshesIn.again {r : Renewal} {d' : Document} {x o e o' : Element} {position : Position}
    (h : m.RefreshesIn path r d root x o position) (hloaded : d'.root? = some e)
    (hsame : e.toNode.same ((m.settled x).setAt position
      (joinTexts ((refresh r o.name o.children).children.map m.settledNode))).toNode = true)
    (hato : e.at? position = some o') :
    e.locate (pathBelow e path) = some position ∧ m.withRefresh path r d' =
      d'.withRoot (m.settled (e.setAt position (refresh r o'.name o'.children).children)) := by
  have hname : e.name = root.name := by
    rw [Element.name_of_same hsame, Document.name_setAt, m.name_settled, h.name]
  have hlocate : e.locate (pathBelow e path) = some position := by
    rw [pathBelow_congr hname, Element.locate_of_same hsame]
    exact Element.locate_setAt ((Element.locate_settled m x _).trans h.located) _
  refine ⟨hlocate, ?_⟩
  rw [withRefresh, Document.withSection_of_locate hloaded hlocate,
    m.settledDocument_of_root (Document.root?_withRoot d' _ (by rw [hloaded]; rfl)),
    Document.withRoot_withRoot]
  exact congrArg (fun y => d'.withRoot (m.settled y)) (Element.modifyAt_congr hato rfl)

/-- What was settled before the texts of the section were made one is settled after it. -/
theorem Maintainer.RefreshesIn.alike {r : Renewal} {x o : Element} {position : Position}
    (h : m.RefreshesIn path r d root x o position) (hblock : ∀ children, r.block children ≠ []) :
    ((m.settled x).setAt position
      (joinTexts ((refresh r o.name o.children).children.map m.settledNode))).toNode.Alike
        (m.settled (x.setAt position (refresh r o.name o.children).children)).toNode := by
  have hat := m.at?_settled position x
  rw [h.found, Option.map_some] at hat
  rw [m.settled_setAt h.found (collapsedLeaf?_refresh o.name (hblock o.children))]
  exact (alikeAll_joinTexts _).setAt hat

/--
A second refresh of the file that a first one was saved in: it succeeds, and leaves the file as it is. What
was saved is named with the texts of the section made one.
-/
theorem Maintainer.RefreshesIn.exists_again {contents : Contents} {identity : Identity}
    {anchor : Option Anchor} {unit : String} {requested : Option String} {candidates : List Element}
    {w₁ w₂ w₃ : World} {x o : Element} {position : Position} {new d' : Document}
    (h : m.RefreshesIn path { renewal with candidates } d root x o position)
    (hregular : ({ renewal with candidates } : Renewal).Regular identity anchor)
    (hportable : ({ renewal with candidates } : Renewal).Portable) (hne : candidates ≠ [])
    (hindent : m.style.indent = .unit unit) (hwhite : Markup.isWhite unit = true)
    (htext : isDocumentText unit = true) (hx : x.toNode.known [])
    (hsettled : (m.settled (x.setAt position
      (refresh { renewal with candidates } o.name o.children).children)).toNode.settled [] none 0 = true)
    (hlegible : ∀ e ∈ elementsOf (refresh { renewal with candidates } o.name o.children).children,
      identity.isLegible (m.settled e) = true)
    (hnew : new.root? = some ((m.settled x).setAt position (joinTexts
      ((refresh { renewal with candidates } o.name o.children).children.map m.settledNode))))
    (hordinary : new.IsOrdinary contents) (hknown : knownAll [] new.nodes)
    (hnewSettled : new.isSettled = true) (hname : new.encoding.toUpper = "UTF-8")
    (hsave : Gives (new.save p m.style) w () w') (htree : w₁.tree = w'.tree)
    (hload : Gives (Document.load p) w₁ d' w₂)
    (hstamp : Gives (m.stamp renewal.candidates requested) w₁ candidates w₃) :
    ∃ report w₄, Gives (m.refreshEntries p path renewal requested) w₁ report w₄ ∧
      w₄.tree.read p = w₁.tree.read p := by
  have hwhite' : m.style.indent.isWhite = true := by rw [hindent]; exact hwhite
  have hblock : ∀ children, ({ renewal with candidates } : Renewal).block children ≠ [] :=
    fun children => hregular.block_ne_nil hne
  obtain ⟨w₀, hload'⟩ := exists_load_of_read_eq hload (congrArg (·.read p) htree.symm)
  obtain ⟨bytes, y, e, mk, laid, hbytes, hreloaded⟩ :=
    hordinary.reloaded hknown hnewSettled hname hwhite' hsave hload'
  obtain rfl := Option.some.inj (hnew.symm.trans hreloaded.saved)
  -- how the root was laid out
  obtain ⟨n, hmk⟩ := hreloaded.written
  rw [((h.alike hblock) [] none 0).1] at hmk
  have happlied := hreloaded.applied
  rw [hindent, apply_unit htext] at happlied
  obtain rfl := Except.ok.inj happlied
  have hread := hreloaded.read
  rw [Markup.laid_indent] at hread
  -- the root with the section refreshed again
  obtain ⟨o', mk', hato, -, hbare, hqualify⟩ := Renewal.exists_refresh_again hregular hportable hne hwhite
    htext h.found hx hmk hsettled hlegible hread hreloaded.same
  obtain ⟨hlocate, hwritten⟩ := h.again hreloaded.loaded hreloaded.same hato
  have hlaid : (mk'.indent unit 1).laid 0 = (mk.indent unit 1).laid 0 := by
    rw [Markup.laid_indent, Markup.laid_indent]
    exact Markup.indent_eq_of_bare unit (Xml.sound_qualify isSound_nil _ (hqualify 0))
      (Xml.sound_qualify isSound_nil _ hmk) hbare 1
  have hagain := hreloaded.again _ mk' 0 (mk'.indent unit 1) (hqualify 0)
    (by rw [hindent]; exact apply_unit htext mk') hlaid
  rw [← hwritten] at hagain
  have hresave : ∀ w₄ : World, w₄.tree = w₁.tree →
      ∃ w₅, Gives ((m.withRefresh path { renewal with candidates } d').save p m.style) w₄ () w₅ ∧
        w₅.tree.read p = w₄.tree.read p := fun w₄ htree₄ =>
    Document.gives_save_again hsave hbytes hagain (htree₄.trans htree)
  obtain ⟨report, w₄, hsecond⟩ := exists_refreshEntries hload hstamp hreloaded.loaded hlocate fun w₅ hw₅ => by
    obtain ⟨w₆, hgives, -⟩ := hresave w₅ hw₅
    exact ⟨w₆, hgives⟩
  refine ⟨report, w₄, hsecond, ?_⟩
  obtain ⟨candidates', w₅, w₆, hstamp', htree₆, hwrite⟩ :=
    gives_refreshEntries_section hload hreloaded.loaded hsecond
  obtain ⟨rfl, -⟩ := hstamp.unique hstamp'
  obtain ⟨-, w₇, w₈, htree₇, hsave₂, htree₈⟩ := gives_write hwrite
  obtain ⟨w₉, hgives, hfile⟩ := hresave w₇ (htree₇.trans htree₆)
  obtain ⟨-, rfl⟩ := hgives.unique hsave₂
  rw [htree₈, hfile, htree₇, htree₆]

section
variable {contents : Contents} {identity : Identity} {anchor : Option Anchor} {unit : String}
  {requested : Option String} {candidates : List Element} {w₁ : World} {report : Report}

/--
Once a section was refreshed, the same refresh succeeds again and leaves the file as it is exactly when a
document type with a public identifier has a system identifier and elements are not nested too deeply.
-/
theorem Maintainer.refreshEntries_again_iff (hload : Gives (Document.load p) w d w₀)
    (hread : d.HasRead contents) (hsubset : contents.withoutSubset)
    (hname : d.encoding.toUpper = "UTF-8") (hindent : m.style.indent = .unit unit)
    (hwhite : Markup.isWhite unit = true) (htext : isDocumentText unit = true)
    (hpath : ∀ name ∈ path, isPlainName name)
    (hstamp : Gives (m.stamp renewal.candidates requested) w candidates w₁)
    (hregular : renewal.Regular identity anchor) (hportable : renewal.Portable)
    (hne : renewal.candidates ≠ [])
    (hsettled : (m.withRefresh path { renewal with candidates } d).isSettled = true)
    (hlegible : ∀ e ∈ (m.withRefresh path { renewal with candidates } d).entriesAt path,
      identity.isLegible e = true)
    (hrun : Gives (m.refreshEntries p path renewal requested) w report w') :
    (∃ report' w'', Gives (m.refreshEntries p path renewal requested) w' report' w'' ∧
        w''.tree.read p = w'.tree.read p) ↔
      (∀ type ∈ contents.doctype, type.id.isComplete = true) ∧
        depthOf (m.withRefresh path { renewal with candidates } d).nodes ≤ Xml.maxDepth := by
  obtain ⟨hregular, hportable, hne⟩ := regular_of_gives_stamp hstamp hregular hportable hne
  have hd := hread.isOrdinary hsubset
  have hwhite' : m.style.indent.isWhite = true := by rw [hindent]; exact hwhite
  obtain ⟨root, hroot⟩ := hd.exists_root
  obtain ⟨candidates', w₂, w₃, hstamp', htree₃, hwrite⟩ := gives_refreshEntries_section hload hroot hrun
  obtain ⟨rfl, -⟩ := hstamp.unique hstamp'
  obtain ⟨-, w₄, w₅, htree₄, hsave, htree₅⟩ := gives_write hwrite
  rw [← withRefresh] at hsave
  -- where the section is
  have hblock : ∀ children, ({ renewal with candidates } : Renewal).block children ≠ [] :=
    fun children => hregular.block_ne_nil hne
  obtain ⟨x, o, position, hin⟩ := m.exists_refreshesIn hroot path hblock
  have hx : x.toNode.known [] := hin.ensured ▸ Element.known_ensure
    (Document.known_root (hread.known hsubset) hroot) fun name hn => hpath name (mem_of_mem_pathBelow hn)
  -- what is written could have been read with the texts of the section made one
  have hy := @known_settled m [] _ (Element.known_modifyAt (fun inner e _ he =>
    hportable.known_joined_refreshed he) position (by simp) hx)
  rw [← hin.settled] at hy
  obtain ⟨owner, hsection, -⟩ := @Document.sectionAt?_settledSection path d root
    (Element.refreshed { renewal with candidates }) (fun _ => rfl) hroot m
  rw [← withRefresh] at hsection
  have hnew : ((m.withRefresh path { renewal with candidates } d).withSection path Element.joined).root? =
      some ((m.settled x).setAt position (joinTexts
        ((refresh { renewal with candidates } o.name o.children).children.map m.settledNode))) := by
    rw [hin.joined]
    exact Document.root?_withRoot _ _ (by rw [hroot]; rfl)
  have hordinary : ((m.withRefresh path { renewal with candidates } d).withSection path
      Element.joined).IsOrdinary contents := by
    rw [hin.joined]
    refine hd.withRoot hroot (Xml.ordinary_of_known _ hy) ?_
    rw [Document.name_setAt, m.name_settled, hin.name]
  have hknown : knownAll [] ((m.withRefresh path { renewal with candidates } d).withSection path
      Element.joined).nodes := by
    rw [hin.joined]
    exact Document.knownAll_withRoot (hread.known hsubset) hy
  have hrootSettled : (m.settled (x.setAt position (refresh { renewal with candidates } o.name
      o.children).children)).toNode.settled [] none 0 = true := by
    rw [hin.written, Document.isSettled, Document.root?_withRoot _ _ (by rw [hroot]; rfl)] at hsettled
    exact hsettled
  have hnewSettled : ((m.withRefresh path { renewal with candidates } d).withSection path
      Element.joined).isSettled = true := by
    rw [Document.isSettled, hnew, Option.all_some, (hin.alike hblock [] none 0).2]
    exact hrootSettled
  have hnewName : ((m.withRefresh path { renewal with candidates } d).withSection path
      Element.joined).encoding.toUpper = "UTF-8" := by
    rw [Document.encoding_withSection, withRefresh, m.encoding_settledDocument,
      Document.encoding_withSection, hname]
  rw [← Document.save_joined hsection] at hsave
  obtain ⟨hcan, -⟩ := hordinary.exists_load_iff hnewName hwhite' hsave
  rw [Document.depthOf_joined hsection] at hcan
  have hworld : ∀ d', (∃ w'', Gives (Document.load p) w' d' w'') ↔
      ∃ w'', Gives (Document.load p) w₅ d' w'' := by
    intro d'
    rw [gives_load_iff, gives_load_iff, htree₅]
  rw [← hcan, ← exists_congr hworld]
  constructor
  · rintro ⟨report', w'', hagain, -⟩
    exact exists_load_of_refreshEntries hagain
  · rintro ⟨d', w'', hload'⟩
    obtain ⟨w₆, hstamp'⟩ := exists_stamp hstamp w'
    rw [hin.entries] at hlegible
    exact hin.exists_again hregular hportable hne hindent hwhite htext hx hrootSettled
      (List.forall_mem_map.mp hlegible) hnew hordinary hknown hnewSettled hnewName hsave htree₅ hload'
      hstamp'

end

set_option maxRecDepth 10000 in
theorem Maintainer.refreshEntries_again_emptyModules :
    ∃ d contents w₀ report w',
      Gives (Document.load manifestFile) (oneFile emptyModules) d w₀ ∧ d.HasRead contents ∧
      contents.withoutSubset ∧ d.encoding.toUpper = "UTF-8" ∧ moduleRenewal.Regular .module none ∧
      moduleRenewal.Portable ∧
      Gives (Maintainer.refreshEntries {} manifestFile ["modules"] moduleRenewal)
        (oneFile emptyModules) report w' ∧
      ∃ report' w'', Gives (Maintainer.refreshEntries {} manifestFile ["modules"] moduleRenewal) w' report'
        w'' ∧ w''.tree.read manifestFile = w'.tree.read manifestFile := by
  have hload := Action.gives_resultD (a := Document.load manifestFile) (w := oneFile emptyModules) {}
    (by decide +kernel)
  have hencoding : ((Document.load manifestFile).resultD (oneFile emptyModules) {}).encoding =
      "UTF-8" := by
    decide +kernel
  have hrun := Action.gives_resultD
    (a := Maintainer.refreshEntries {} manifestFile ["modules"] moduleRenewal)
    (w := oneFile emptyModules) .skipped (by decide +kernel)
  have hsettled : (Maintainer.withRefresh {} ["modules"]
      { moduleRenewal with candidates := moduleRenewal.candidates }
      ((Document.load manifestFile).resultD (oneFile emptyModules) {})).isSettled = true := by
    decide +kernel
  have hdepth : depthOf (Maintainer.withRefresh {} ["modules"]
      { moduleRenewal with candidates := moduleRenewal.candidates }
      ((Document.load manifestFile).resultD (oneFile emptyModules) {})).nodes ≤ Xml.maxDepth := by
    decide +kernel
  have hlegible : ((Maintainer.withRefresh {} ["modules"]
      { moduleRenewal with candidates := moduleRenewal.candidates }
      ((Document.load manifestFile).resultD (oneFile emptyModules) {})).entriesAt ["modules"]).all
        Identity.module.isLegible = true := by
    decide +kernel
  obtain ⟨contents, hcontents, hread⟩ := exists_contents hload
  have hdoctype : contents.doctype = none := by
    have hnone : (readStored emptyModules.toUTF8).bind (·.doctype) = none := by decide +kernel
    rwa [hcontents] at hnone
  have hsubset := Contents.withoutSubset_of_doctype_eq_none hdoctype
  have hname : ((Document.load manifestFile).resultD (oneFile emptyModules) {}).encoding.toUpper =
      "UTF-8" := by
    rw [hencoding, ← String.toList_inj, String.toUpper, String.toList_map]
    decide +kernel
  have hregular : moduleRenewal.Regular .module none :=
    ⟨by rw [moduleRenewal], rfl, rfl, fun c hc => by rw [List.mem_singleton.mp hc]; decide +kernel⟩
  have hportable : moduleRenewal.Portable := by
    refine ⟨fun c hc => ?_, fun c hc => ?_⟩ <;> rw [List.mem_singleton.mp hc]
    · exact known_ofName (by simp) (by simp [isPlainName]) ⟨(by decide : "x" ≠ ""), trivial⟩
        (List.isChain_singleton _)
    · rfl
  have hstamp : Gives (Maintainer.stamp {} moduleRenewal.candidates none) (oneFile emptyModules)
      moduleRenewal.candidates (oneFile emptyModules) :=
    gives_pure_iff.mpr ⟨rfl, rfl⟩
  exact ⟨_, contents, _, _, _, hload, hread, hsubset, hname, hregular, hportable, hrun,
    (refreshEntries_again_iff hload hread hsubset hname rfl (by decide +kernel) (by decide +kernel)
      (by decide) hstamp hregular hportable (by simp [moduleRenewal]) hsettled
      (List.all_eq_true.mp hlegible) hrun).mpr ⟨by rw [hdoctype]; rintro _ ⟨⟩, hdepth⟩⟩

/-- A manifest without any sections. -/
def bareManifest : String :=
  "<a/>"

/-- A refresh that brings in a module whose path is cut by comments. -/
def cutModuleRenewal : Renewal :=
  { candidates := [⟨Tag.ofName "module", [.text "a", .comment "", .comment "", .text "b"]⟩]
    same := Identity.module.same }

set_option maxRecDepth 10000 in
/--
White space comes between the comments when the module is written, so that it is not found again and another
one is added.
-/
theorem cutModule_added_again :
    ∃ d contents w₀ report w' report' w'',
      Gives (Document.load manifestFile) (oneFile bareManifest) d w₀ ∧ d.HasRead contents ∧
      contents.withoutSubset ∧ d.encoding = "UTF-8" ∧ cutModuleRenewal.Regular .module none ∧
      cutModuleRenewal.Portable ∧
      Gives (Maintainer.refreshEntries {} manifestFile ["modules"] cutModuleRenewal) (oneFile bareManifest)
        report w' ∧
      Gives (Maintainer.refreshEntries {} manifestFile ["modules"] cutModuleRenewal) w' report' w'' ∧
      w''.tree.read manifestFile ≠ w'.tree.read manifestFile := by
  have hload := Action.gives_resultD (a := Document.load manifestFile) (w := oneFile bareManifest) {}
    (by decide +kernel)
  have hrun := Action.gives_resultD
    (a := Maintainer.refreshEntries {} manifestFile ["modules"] cutModuleRenewal)
    (w := oneFile bareManifest) .skipped (by decide +kernel)
  have hagain := Action.gives_resultD
    (a := Maintainer.refreshEntries {} manifestFile ["modules"] cutModuleRenewal)
    (w := (Maintainer.refreshEntries {} manifestFile ["modules"] cutModuleRenewal).after
      (oneFile bareManifest)) .skipped (by decide +kernel)
  have hsize : (((((Maintainer.refreshEntries {} manifestFile ["modules"] cutModuleRenewal).after
      ((Maintainer.refreshEntries {} manifestFile ["modules"] cutModuleRenewal).after
        (oneFile bareManifest))).tree.read manifestFile).toOption.map ByteArray.size) ==
      ((((Maintainer.refreshEntries {} manifestFile ["modules"] cutModuleRenewal).after
        (oneFile bareManifest)).tree.read manifestFile).toOption.map ByteArray.size)) = false := by
    decide +kernel
  obtain ⟨contents, hcontents, hread⟩ := exists_contents hload
  have hsubset : contents.withoutSubset := by
    have hnone : (((readStored bareManifest.toUTF8).bind (·.doctype)).all (!·.hasSubset)) = true := by
      decide +kernel
    rw [hcontents, Option.bind_some, Option.all_eq_true] at hnone
    exact fun type htype => by simpa using hnone type htype
  have hregular : cutModuleRenewal.Regular .module none :=
    ⟨by rw [cutModuleRenewal], rfl, rfl, fun c hc => by rw [List.mem_singleton.mp hc]; decide +kernel⟩
  have hportable : cutModuleRenewal.Portable := by
    refine ⟨fun c hc => ?_, fun c hc => ?_⟩ <;> rw [List.mem_singleton.mp hc]
    · refine known_ofName (by simp) (by simp [isPlainName]) ⟨(by decide : "a" ≠ ""), nofun, nofun,
        (by decide : "b" ≠ ""), trivial⟩ ?_
      simp [apart, Node.isText]
    · rfl
  refine ⟨_, contents, _, _, _, _, _, hload, hread, hsubset, by decide +kernel, hregular, hportable, hrun,
    hagain, fun heq => ?_⟩
  rw [heq, beq_self_eq_true] at hsize
  cases hsize

end Manifest
