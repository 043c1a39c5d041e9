import Manifest.Proofs.Entry
import Manifest.Proofs.Maintenance.Renewing

/-! Upgrading the version of entries of the manifest in a file. Each candidate is there once afterwards, with
the version that was chosen, and stale entries are gone; all others are as they were. -/

set_option autoImplicit false

namespace Manifest

open Manifest.Action (Gives gives_bind_iff gives_pure_iff)
open Xml (Contents)

/-! Coordinates. -/

theorem sameField_trans {a b c : Option String} (hab : sameField a b = true) (hbc : sameField b c = true) :
    sameField a c = true := by
  simp only [sameField, Bool.and_eq_true, beq_iff_eq] at *
  exact ⟨hab.1, hab.2.trans hbc.2⟩

theorem sameCoordinates_trans {a b c : Element} (hab : sameCoordinates a b = true)
    (hbc : sameCoordinates b c = true) : sameCoordinates a c = true := by
  simp only [sameCoordinates, Bool.and_eq_true] at *
  exact ⟨sameField_trans hab.1 hbc.1, sameField_trans hab.2 hbc.2⟩

/-- Whether the fields that coordinates are read from have their texts in one piece. -/
def Element.hasWholeCoordinates (e : Element) : Bool :=
  ["groupId", "artifactId"].all fun name => (e.child? name).all (inOnePiece ·.children)

theorem sameCoordinates_congr {a b : Element} (hgroup : a.childText? "groupId" = b.childText? "groupId")
    (hartifact : a.childText? "artifactId" = b.childText? "artifactId") (c : Element) :
    sameCoordinates a c = sameCoordinates b c := by
  rw [sameCoordinates, sameCoordinates, hgroup, hartifact]

/-- A version is no coordinate. -/
theorem sameCoordinates_withVersion (e : Element) (version : String) (c : Element) :
    sameCoordinates c (e.withVersion version) = sameCoordinates c e :=
  Identity.same_withVersion_right .dependency e c version

/-- A field of an entry that was written and read is as it was, if its text is in one piece. -/
theorem Element.childText?_of_same_settled {m : Maintainer} {x y : Element}
    (h : x.toNode.same (m.settled y).toNode = true) {name : String}
    (hpiece : (y.child? name).all (inOnePiece ·.children) = true) :
    x.childText? name = y.childText? name := by
  rw [Maintainer.settled] at h
  split at h
  · rw [childText?_of_same h, Identity.childText?_collapse]
    rw [child?_collapse]
    cases hc : y.child? name with
    | none => rfl
    | some child =>
      rw [hc, Option.all_some] at hpiece
      exact Identity.inOnePiece_collapse hpiece
  · exact childText?_of_same h hpiece

theorem sameCoordinates_of_same_settled {m : Maintainer} {x y : Element}
    (h : x.toNode.same (m.settled y).toNode = true) (hwhole : y.hasWholeCoordinates = true) (c : Element) :
    sameCoordinates x c = sameCoordinates y c := by
  rw [Element.hasWholeCoordinates, List.all_eq_true] at hwhole
  exact sameCoordinates_congr (Element.childText?_of_same_settled h (hwhole _ (by simp)))
    (Element.childText?_of_same_settled h (hwhole _ (by simp))) c

theorem Element.hasWholeCoordinates_withVersion (e : Element) (version : String) :
    (e.withVersion version).hasWholeCoordinates = e.hasWholeCoordinates := by
  simp only [hasWholeCoordinates, List.all_cons, List.all_nil,
    child?_withVersion_of_ne e version (show "groupId" ≠ "version" by decide),
    child?_withVersion_of_ne e version (show "artifactId" ≠ "version" by decide)]

/-! The section. -/

section
variable {r : Renewal} {version : String} {children : List Node}

/-- The refresh with a version stamped on its candidates. -/
def Renewal.stamped (r : Renewal) (version : String) : Renewal :=
  { r with candidates := r.candidates.map (·.withVersion version) }

/-- An entry of the section afterwards has stayed, or it is a candidate, stamped. -/
theorem mem_elements_stamped {owner e : Element} (he : e ∈ (owner.refreshed (r.stamped version)).elements) :
    e ∈ elementsOf ((r.stamped version).kept owner.children) ∨
      ∃ c ∈ r.candidates, e = c.withVersion version := by
  have hparts := congrArg elementsOf ((r.stamped version).front_append_back owner.children)
  rw [elementsOf_append] at hparts
  rw [Element.elements_refreshed, List.mem_append, List.mem_append] at he
  rcases he with he | he | he
  · exact Or.inl (hparts ▸ List.mem_append_left _ he)
  · obtain ⟨c, hc, rfl⟩ := List.mem_map.mp ((block_sublist (r.stamped version) owner.children).subset he)
    exact Or.inr ⟨c, hc, rfl⟩
  · exact Or.inl (hparts ▸ List.mem_append_right _ he)

/-- The entries afterwards that meet a condition, where none of those that stayed does. -/
theorem filter_elements_stamped {owner : Element} {p : Element → Bool}
    (hp : ∀ e ∈ elementsOf ((r.stamped version).kept owner.children), p e = false) :
    (owner.refreshed (r.stamped version)).elements.filter p =
      ((r.stamped version).block owner.children).filter p := by
  have hparts := congrArg elementsOf ((r.stamped version).front_append_back owner.children)
  rw [elementsOf_append] at hparts
  have hnone : ∀ es : List Element, (∀ e ∈ es, e ∈ elementsOf ((r.stamped version).kept owner.children)) →
      es.filter p = [] := fun es hes =>
    List.filter_eq_nil_iff.mpr fun e he => by rw [hp e (hes e he)]; exact Bool.false_ne_true
  rw [Element.elements_refreshed, List.filter_append, List.filter_append,
    hnone _ fun e he => hparts ▸ List.mem_append_left _ he,
    hnone _ fun e he => hparts ▸ List.mem_append_right _ he, List.nil_append, List.append_nil]

variable (hsame : r.same = sameCoordinates) (hremoval : r.removal = none)
include hsame hremoval

theorem unwanted_stamped (e : Element) :
    (r.stamped version).unwanted e = (r.stale ++ r.candidates).any (sameCoordinates e ·) := by
  rw [Renewal.unwanted, Renewal.stamped]
  dsimp only
  rw [hremoval, hsame, Option.getD_none, isNamed, List.any_cons, List.any_nil, Bool.or_false,
    List.any_append, List.any_append, List.any_map]
  congr 2
  funext c
  exact sameCoordinates_withVersion c version e

theorem not_any_of_mem_kept_stamped {e : Element} (he : e ∈ elementsOf ((r.stamped version).kept children)) :
    (r.stale ++ r.candidates).any (sameCoordinates e ·) = false := by
  rw [← @unwanted_stamped r version hsame hremoval]
  exact not_unwanted_of_mem_kept he

/-- The entries of the section that stay. -/
theorem elementsOf_kept_stamped :
    elementsOf ((r.stamped version).kept children) =
      (elementsOf children).filter fun e => !(r.stale ++ r.candidates).any (sameCoordinates e ·) := by
  rw [Renewal.kept, elementsOf_removeFrom]
  congr 1
  funext e
  rw [unwanted_stamped hsame hremoval]

variable (hfields : ∀ c ∈ r.candidates, sameCoordinates c c = true)
include hfields

/-- Each candidate has one entry of its coordinates in the block, stamped. -/
theorem filter_block_stamped {c : Element} (hc : c ∈ r.candidates) :
    ∃ b ∈ r.candidates, ((r.stamped version).block children).filter (sameCoordinates · c) =
      [b.withVersion version] := by
  have hblock : (r.stamped version).block children = newcomers sameCoordinates id
      (elementsOf ((r.stamped version).kept children)) (r.candidates.map (·.withVersion version)) := by
    rw [← hsame]
    rfl
  have hpairwise : ((r.stamped version).block children).Pairwise fun a b =>
      sameCoordinates a b = false := by
    rw [hblock]
    exact newcomers_pairwise _ _
  -- the candidate itself is in the block, or one before it of the same coordinates
  obtain ⟨b, hb, hbc⟩ : ∃ b ∈ (r.stamped version).block children, sameCoordinates b c = true := by
    rw [hblock]
    rcases @mem_newcomers_or _ sameCoordinates id (elementsOf ((r.stamped version).kept children))
      (r.candidates.map (·.withVersion version)) (c.withVersion version)
        (List.mem_map.mpr ⟨c, hc, rfl⟩) with hmem | ⟨e, he, hsameE⟩
    · refine ⟨_, hmem, ?_⟩
      rw [sameCoordinates_comm, sameCoordinates_withVersion]
      exact hfields c hc
    · rw [id, sameCoordinates_withVersion] at hsameE
      rcases he with he | he
      · have hno := not_any_of_mem_kept_stamped hsame hremoval he
        rw [List.any_eq_false] at hno
        exact absurd hsameE (hno c (List.mem_append_right _ hc))
      · rw [List.map_id] at he
        exact ⟨e, he, hsameE⟩
  have hfilter := hpairwise.filter (sameCoordinates · c)
  obtain ⟨b', hb', rfl⟩ := List.mem_map.mp ((block_sublist (r.stamped version) children).subset hb)
  refine ⟨b', hb', ?_⟩
  have hmem : b'.withVersion version ∈ ((r.stamped version).block children).filter (sameCoordinates · c) :=
    List.mem_filter.mpr ⟨hb, hbc⟩
  have hall : ∀ x ∈ ((r.stamped version).block children).filter (sameCoordinates · c),
      sameCoordinates x c = true := fun x hx => (List.mem_filter.mp hx).2
  cases hl : ((r.stamped version).block children).filter (sameCoordinates · c) with
  | nil =>
    rw [hl] at hmem
    cases hmem
  | cons a rest =>
    rw [hl] at hmem hfilter hall
    obtain ⟨hfirst, -⟩ := List.pairwise_cons.mp hfilter
    have hrest : rest = [] := List.eq_nil_iff_forall_not_mem.mpr fun x hx => by
      have hax := sameCoordinates_trans (hall a List.mem_cons_self)
        ((sameCoordinates_comm c x).trans (hall x (List.mem_cons_of_mem a hx)))
      rw [hfirst x hx] at hax
      cases hax
    rw [hrest] at hmem ⊢
    rw [List.mem_singleton.mp hmem]

/-- Afterwards there is one entry of the coordinates of each candidate. -/
theorem filter_stamped {owner c : Element} (hc : c ∈ r.candidates) :
    ∃ b ∈ r.candidates, (owner.refreshed (r.stamped version)).elements.filter (sameCoordinates · c) =
      [b.withVersion version] := by
  obtain ⟨b, hb, hfilter⟩ := @filter_block_stamped r version owner.children hsame hremoval hfields c hc
  refine ⟨b, hb, (filter_elements_stamped fun e he => ?_).trans hfilter⟩
  have hno := not_any_of_mem_kept_stamped hsame hremoval he
  rw [List.any_eq_false] at hno
  simpa using hno c (List.mem_append_right _ hc)

omit hfields in
/-- Afterwards no entry has the coordinates of a stale one that is no candidate. -/
theorem filter_stale_stamped {owner s : Element} (hs : s ∈ r.stale)
    (hfree : ∀ c ∈ r.candidates, sameCoordinates s c = false) :
    (owner.refreshed (r.stamped version)).elements.filter (sameCoordinates · s) = [] := by
  refine (filter_elements_stamped fun e he => ?_).trans (List.filter_eq_nil_iff.mpr fun e he => ?_)
  · have hno := not_any_of_mem_kept_stamped hsame hremoval he
    rw [List.any_eq_false] at hno
    simpa using hno s (List.mem_append_left _ hs)
  · obtain ⟨c, hc, rfl⟩ := List.mem_map.mp ((block_sublist (r.stamped version) owner.children).subset he)
    rw [sameCoordinates_comm, sameCoordinates_withVersion, hfree c hc]
    exact Bool.false_ne_true

/-- Afterwards the entries of other coordinates are those that were there, but for stale ones. -/
theorem filter_others_stamped {owner : Element} :
    (owner.refreshed (r.stamped version)).elements.filter
        (fun e => !r.candidates.any (sameCoordinates e ·)) =
      owner.elements.filter fun e => !(r.stale ++ r.candidates).any (sameCoordinates e ·) := by
  have hblock : ((r.stamped version).block owner.children).filter
      (fun e => !r.candidates.any (sameCoordinates e ·)) = [] := by
    refine List.filter_eq_nil_iff.mpr fun e he => ?_
    obtain ⟨c, hc, rfl⟩ := List.mem_map.mp ((block_sublist (r.stamped version) owner.children).subset he)
    have hany : r.candidates.any (sameCoordinates (c.withVersion version) ·) = true := by
      refine List.any_eq_true.mpr ⟨c, hc, ?_⟩
      rw [sameCoordinates_comm, sameCoordinates_withVersion]
      exact hfields c hc
    simp [hany]
  have hparts := congrArg elementsOf ((r.stamped version).front_append_back owner.children)
  rw [elementsOf_append] at hparts
  rw [Element.elements_refreshed, List.filter_append, List.filter_append, hblock, List.nil_append,
    ← List.filter_append, hparts, elementsOf_kept_stamped hsame hremoval, List.filter_filter, Element.elements]
  congr 1
  funext e
  rw [List.any_append]
  cases r.candidates.any (sameCoordinates e ·) <;> simp

end

/-! What is loaded afterwards. -/

/-- What an upgrade makes of the entries of a section. -/
structure UpgradedFrom (m : Maintainer) (r : Renewal) (version : String) (old new : List Element) : Prop where
  /-- Each candidate has one entry, of the version. -/
  once : ∀ c ∈ r.candidates, ∃ e, new.filter (sameCoordinates · c) = [e] ∧
    e.childText? "version" = some version
  /-- No entry is stale. -/
  gone : ∀ s ∈ r.stale, (∀ c ∈ r.candidates, sameCoordinates s c = false) →
    ∀ e ∈ new, sameCoordinates e s = false
  /-- All other entries are as they were. -/
  others : List.Forall₂ (fun a e : Element => a.toNode.same (m.settled e).toNode = true)
    (new.filter fun e => !r.candidates.any (sameCoordinates e ·))
    (old.filter fun e => !(r.stale ++ r.candidates).any (sameCoordinates e ·))

/-- The entries of a refreshed section, written and read. -/
theorem upgradedFrom_of_same {m : Maintainer} {r : Renewal} {version : String} {owner : Element}
    {new : List Element} (hsame : r.same = sameCoordinates) (hremoval : r.removal = none)
    (hfields : ∀ c ∈ r.candidates, sameCoordinates c c = true)
    (hversion : Text.strip version = version ∧ version ≠ "")
    (hwhole : ∀ e, e ∈ r.candidates ∨ e ∈ owner.elements → e.hasWholeCoordinates = true)
    (hnew : List.Forall₂ (fun a e : Element => a.toNode.same (m.settled e).toNode = true) new
      (owner.refreshed (r.stamped version)).elements) :
    UpgradedFrom m r version owner.elements new := by
  have hrel : List.Forall₂ (fun a e : Element => a.toNode.same (m.settled e).toNode = true ∧
      ∀ c, sameCoordinates a c = sameCoordinates e c) new
      (owner.refreshed (r.stamped version)).elements := by
    refine ((List.forall₂_and_left _ _).mpr ⟨fun e he => ?_, hnew.flip⟩).flip.imp fun a e h =>
      ⟨h.2, sameCoordinates_of_same_settled h.2 h.1⟩
    rcases mem_elements_stamped he with he | ⟨c, hc, rfl⟩
    · rw [elementsOf_kept_stamped hsame hremoval] at he
      exact hwhole e (Or.inr (List.mem_filter.mp he).1)
    · rw [Element.hasWholeCoordinates_withVersion]
      exact hwhole c (Or.inl hc)
  have hfilter := fun c => @List.rel_filter _ _ _ (sameCoordinates · c) (sameCoordinates · c)
    (fun a e h => iff_of_eq (congrArg (· = true) (h.2 c))) _ _ hrel
  refine ⟨fun c hc => ?_, fun s hs hfree e he => ?_, ?_⟩
  · obtain ⟨b, hb, hone⟩ := @filter_stamped r version hsame hremoval hfields owner c hc
    have hfound := hfilter c
    rw [hone] at hfound
    obtain ⟨a, as, ⟨hsameA, -⟩, hnone, heq⟩ := List.forall₂_cons_right_iff.mp hfound
    obtain rfl := List.forall₂_nil_right_iff.mp hnone
    refine ⟨a, heq, ?_⟩
    have hpiece : (((b.withVersion version).child? "version").all (inOnePiece ·.children)) = true := by
      obtain ⟨x, hx, -, hlength⟩ := b.child?_withVersion version
      rw [hx, Option.all_some, inOnePiece, decide_eq_true_eq]
      exact (List.length_filterMap_le _ _).trans hlength
    rw [Element.childText?_of_same_settled hsameA hpiece,
      b.childText?_withVersion hversion.1 hversion.2]
  · have hfound := hfilter s
    rw [filter_stale_stamped hsame hremoval hs hfree, List.forall₂_nil_right_iff,
      List.filter_eq_nil_iff] at hfound
    simpa using hfound e he
  · have hfound := @List.rel_filter _ _ _ (fun e => !r.candidates.any (sameCoordinates e ·))
      (fun e => !r.candidates.any (sameCoordinates e ·)) (fun a e h => by simp only [h.2]) _ _ hrel
    rw [filter_others_stamped hsame hremoval hfields] at hfound
    exact hfound.imp fun a e h => h.1

/--
Once a section was refreshed with a version asked for, the file can be loaded, with one entry of that
version for each candidate in the section, no stale ones, and all others as they were, exactly when a
document type with a public identifier has a system identifier and elements are not nested too deeply.
-/
theorem load_upgraded_iff {m : Maintainer} {p : Path} {path : List String} {renewal : Renewal}
    {requested : String} {report : Report} {d : Document} {contents : Contents} {w w₀ w' : World}
    (hload : Gives (Document.load p) w d w₀) (hread : d.HasRead contents)
    (hsubset : contents.withoutSubset) (hname : d.encoding.toUpper = "UTF-8")
    (hwhite : m.style.indent.isWhite = true) (hpath : ∀ name ∈ path, isPlainName name)
    (hsame : renewal.same = Identity.dependency.same) (hremoval : renewal.removal = none)
    (hmade : ∀ c ∈ renewal.candidates, c.IsMade)
    (hfields : ∀ c ∈ renewal.candidates,
      (c.childText? "groupId").isSome = true ∧ (c.childText? "artifactId").isSome = true)
    (hwhole : ∀ e, e ∈ renewal.candidates ∨ e ∈ d.entriesAt path → e.hasWholeCoordinates = true)
    (hrun : Gives (m.refreshEntries p path renewal (some requested)) w report w') :
    ∃ version w₁, Gives (m.resolve requested) w version w₁ ∧
      ((∃ d' w'', Gives (Document.load p) w' d' w'' ∧
          UpgradedFrom m renewal version (d.entriesAt path) (d'.entriesAt path)) ↔
        (∀ type ∈ contents.doctype, type.id.isComplete = true) ∧
          depthOf (m.settledDocument
            (d.withSection path (Element.refreshed (renewal.stamped version)))).nodes ≤ Xml.maxDepth) := by
  have hsame' : renewal.same = sameCoordinates := hsame
  have hself : ∀ c ∈ renewal.candidates, sameCoordinates c c = true := by
    intro c hc
    obtain ⟨hgroup, hartifact⟩ := hfields c hc
    simp [sameCoordinates, sameField, hgroup, hartifact]
  obtain ⟨candidates, w₁, owner, hstamp, helements, hiff, hentries⟩ :=
    m.load_renewed_iff hload (hread.isOrdinary hsubset) hname hwhite hpath hmade hrun
  obtain ⟨version, w₂, hresolve, rfl⟩ := Maintainer.gives_stamp_some hstamp
  refine ⟨version, w₂, hresolve, ?_⟩
  rw [← Renewal.stamped] at hiff hentries
  rw [← hiff]
  constructor
  · rintro ⟨d', w'', hd', -⟩
    exact ⟨d', w'', hd'⟩
  · rintro ⟨d', w'', hd'⟩
    refine ⟨d', w'', hd', ?_⟩
    rw [← helements] at hwhole ⊢
    exact upgradedFrom_of_same hsame' hremoval hself (Maintainer.strip_of_gives_resolve hresolve) hwhole
      (hentries d' w'' hd')

/-- A manifest with one dependency, of an old version. -/
def oneDependency : String :=
  "<a><dependencies><d><groupId>g</groupId><artifactId>x</artifactId><version>1</version></d></dependencies></a>"

/-- A maintainer with two releases. -/
def upgrader : Maintainer :=
  { releases := some (.listed ["1.0", "1.1"]) }

/-- A refresh that brings in one dependency. -/
def dependencyRenewal : Renewal :=
  { candidates := [.dependency "g" "x"], same := Identity.dependency.same }

set_option maxRecDepth 10000 in
theorem load_upgraded_oneDependency :
    ∃ d contents w₀ report w', Gives (Document.load manifestFile) (oneFile oneDependency) d w₀ ∧
      d.HasRead contents ∧ contents.withoutSubset ∧ d.encoding.toUpper = "UTF-8" ∧
      (∀ e, e ∈ dependencyRenewal.candidates ∨ e ∈ d.entriesAt ["dependencies"] →
        e.hasWholeCoordinates = true) ∧
      Gives (upgrader.refreshEntries manifestFile ["dependencies"] dependencyRenewal (some "latest"))
        (oneFile oneDependency) report w' ∧
      ∃ d' w'', Gives (Document.load manifestFile) w' d' w'' ∧
        UpgradedFrom upgrader dependencyRenewal "1.1" (d.entriesAt ["dependencies"])
          (d'.entriesAt ["dependencies"]) := by
  have hload := Action.gives_resultD (a := Document.load manifestFile) (w := oneFile oneDependency) {}
    (by decide +kernel)
  have hencoding : ((Document.load manifestFile).resultD (oneFile oneDependency) {}).encoding =
      "UTF-8" := by
    decide +kernel
  have hrun := Action.gives_resultD
    (a := upgrader.refreshEntries manifestFile ["dependencies"] dependencyRenewal (some "latest"))
    (w := oneFile oneDependency) .skipped (by decide +kernel)
  have hentries : (((Document.load manifestFile).resultD (oneFile oneDependency) {}).entriesAt
      ["dependencies"]).all (·.hasWholeCoordinates) = true := by
    decide +kernel
  obtain ⟨contents, hcontents, hread⟩ := exists_contents hload
  have hdoctype : contents.doctype = none := by
    have hnone : (readStored oneDependency.toUTF8).bind (·.doctype) = none := by decide +kernel
    rwa [hcontents] at hnone
  have hsubset := Contents.withoutSubset_of_doctype_eq_none hdoctype
  have hname : ((Document.load manifestFile).resultD (oneFile oneDependency) {}).encoding.toUpper =
      "UTF-8" := by
    rw [hencoding, ← String.toList_inj, String.toUpper, String.toList_map]
    decide +kernel
  have hmade : ∀ c ∈ dependencyRenewal.candidates, c.IsMade := by
    intro c hc
    rw [List.mem_singleton.mp hc]
    exact .dependency "g" "x" none none none
  have hfields : ∀ c ∈ dependencyRenewal.candidates,
      (c.childText? "groupId").isSome = true ∧ (c.childText? "artifactId").isSome = true := by
    intro c hc
    rw [List.mem_singleton.mp hc]
    decide +kernel
  have hwhole : ∀ e, e ∈ dependencyRenewal.candidates ∨
      e ∈ ((Document.load manifestFile).resultD (oneFile oneDependency) {}).entriesAt ["dependencies"] →
        e.hasWholeCoordinates = true := by
    rintro e (he | he)
    · rw [List.mem_singleton.mp he]
      decide +kernel
    · exact List.all_eq_true.mp hentries e he
  obtain ⟨version, w₁, hresolve, hiff⟩ := load_upgraded_iff hload hread hsubset hname rfl
    (by decide) rfl rfl hmade hfields hwhole hrun
  have hchosen := Action.gives_resultD (a := upgrader.resolve "latest") (w := oneFile oneDependency) ""
    (by decide +kernel)
  have hversion : (upgrader.resolve "latest").resultD (oneFile oneDependency) "" = "1.1" := by
    decide +kernel
  rw [hversion] at hchosen
  obtain ⟨rfl, -⟩ := hresolve.unique hchosen
  obtain ⟨d', w'', hloaded, hupgraded⟩ := hiff.mpr ⟨by rw [hdoctype]; rintro _ ⟨⟩, by decide +kernel⟩
  exact ⟨_, contents, _, _, _, hload, hread, hsubset, hname, hwhole, hrun, d', w'', hloaded, hupgraded⟩

/-- A manifest whose document type has an empty system identifier, without dependencies. -/
def publicDependencies : String :=
  "<!DOCTYPE a PUBLIC \"p\" \"\"><a><dependencies/></a>"

set_option maxRecDepth 10000 in
/-- Where the system identifier is not written, the file cannot be loaded with the new version either. -/
theorem publicDependencies_not_loaded :
    ∃ d contents w₀ w₁ report w', Gives (Document.load manifestFile) (oneFile publicDependencies) d w₀ ∧
      d.HasRead contents ∧ contents.withoutSubset ∧ d.encoding = "UTF-8" ∧
      (d.entriesAt ["dependencies"]).length = 0 ∧
      Gives (Maintainer.resolve { releases := some (.listed ["1.0"]) } "1.0") (oneFile publicDependencies)
        "1.0" w₁ ∧
      Gives (Maintainer.refreshEntries { releases := some (.listed ["1.0"]) } manifestFile ["dependencies"]
        dependencyRenewal (some "1.0")) (oneFile publicDependencies) report w' ∧
      ¬ ∃ d' w'', Gives (Document.load manifestFile) w' d' w'' := by
  have hload := Action.gives_resultD (a := Document.load manifestFile) (w := oneFile publicDependencies) {}
    (by decide +kernel)
  have hrun := Action.gives_resultD
    (a := Maintainer.refreshEntries { releases := some (.listed ["1.0"]) } manifestFile ["dependencies"]
      dependencyRenewal (some "1.0"))
    (w := oneFile publicDependencies) .skipped (by decide +kernel)
  have hchosen := Action.gives_resultD
    (a := Maintainer.resolve { releases := some (.listed ["1.0"]) } "1.0")
    (w := oneFile publicDependencies) "" (by decide +kernel)
  have hencoding : ((Document.load manifestFile).resultD (oneFile publicDependencies) {}).encoding =
      "UTF-8" := by
    decide +kernel
  have hversion : (Maintainer.resolve { releases := some (.listed ["1.0"]) } "1.0").resultD
      (oneFile publicDependencies) "" = "1.0" := by
    decide +kernel
  rw [hversion] at hchosen
  obtain ⟨contents, hcontents, hread⟩ := exists_contents hload
  have hsubset : contents.withoutSubset := by
    have hnone : (((readStored publicDependencies.toUTF8).bind (·.doctype)).all (!·.hasSubset)) = true := by
      decide +kernel
    rw [hcontents, Option.bind_some, Option.all_eq_true] at hnone
    exact fun type htype => by simpa using hnone type htype
  have hname : ((Document.load manifestFile).resultD (oneFile publicDependencies) {}).encoding.toUpper =
      "UTF-8" := by
    rw [hencoding, ← String.toList_inj, String.toUpper, String.toList_map]
    decide +kernel
  have hmade : ∀ c ∈ dependencyRenewal.candidates, c.IsMade := by
    intro c hc
    rw [List.mem_singleton.mp hc]
    exact .dependency "g" "x" none none none
  refine ⟨_, contents, _, _, _, _, hload, hread, hsubset, hencoding, by decide +kernel, hchosen, hrun,
    fun hloaded => ?_⟩
  have hincomplete : ((readStored publicDependencies.toUTF8).bind (·.doctype)).any (!·.id.isComplete) =
      true := by
    decide +kernel
  rw [hcontents, Option.bind_some, Option.any_eq_true] at hincomplete
  obtain ⟨type, htype, hno⟩ := hincomplete
  obtain ⟨_, _, _, -, -, hiff, -⟩ := Maintainer.load_renewed_iff hload (hread.isOrdinary hsubset) hname rfl
    (by decide) hmade hrun
  rw [(hiff.mp hloaded).1 type htype] at hno
  cases hno

end Manifest
