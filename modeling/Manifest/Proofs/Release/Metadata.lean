import Mathlib.Data.List.Lex
import Mathlib.Data.List.Sort
import Manifest.Proofs.Xml.Loaded
import Manifest.Release.Metadata
import Manifest.Section

/-! The releases that metadata names. The elements at the end of a path of names are found in document
order, all of them. The releases that are listed are given if any of them has text; else the latest
version that is named, else the last release. What is given is never blank, with one exception: of the
versions that stand for a list, the first one that has any text is taken, even if the text is blank. -/

set_option autoImplicit false

namespace Manifest.Release

/-! The elements that a path of names leads to. -/

/-- Whether a child goes by a name, outside every namespace. -/
def isPlainChild (name : String) (child : Element) : Bool :=
  child.name == name && child.tag.uri.isNone

/-- Whether a position leads along the names of a path, outside every namespace. -/
def leadsAlong : Element → List String → Position → Prop
  | _, [], position => position = []
  | _, _ :: _, [] => False
  | e, name :: path, rank :: position =>
    ∃ child, e.elements[rank]? = some child ∧ isPlainChild name child = true ∧
      leadsAlong child path position

/-- The positions that lead along the names of a path. -/
def positionsAlong : Element → List String → List Position
  | _, [] => [[]]
  | e, name :: path => (e.elements.zipIdx.filter fun child => isPlainChild name child.1).flatMap
      fun child => (positionsAlong child.1 path).map (child.2 :: ·)

/-- Whether elements are all those that a path of names leads to, in document order. -/
def areAllAlong (root : Element) (path : List String) (found : List Element) : Prop :=
  ∃ positions : List Position, positions.Pairwise (· < ·) ∧
    (∀ position, position ∈ positions ↔ leadsAlong root path position) ∧
    positions.map root.at? = found.map some

variable {e root : Element} {path : List String}

theorem mem_positionsAlong {position : Position} :
    position ∈ positionsAlong e path ↔ leadsAlong e path position := by
  induction path generalizing e position with
  | nil => rw [positionsAlong, leadsAlong, List.mem_singleton]
  | cons name path ih =>
    rw [positionsAlong, List.mem_flatMap]
    constructor
    · rintro ⟨⟨child, rank⟩, hmem, hposition⟩
      obtain ⟨rest, hrest, rfl⟩ := List.mem_map.mp hposition
      obtain ⟨hchild, hname⟩ := List.mem_filter.mp hmem
      exact ⟨child, List.mem_zipIdx_iff_getElem?.mp hchild, hname, ih.mp hrest⟩
    · intro h
      cases position with
      | nil => cases h
      | cons rank position =>
        obtain ⟨child, hchild, hname, hrest⟩ := h
        exact ⟨(child, rank), List.mem_filter.mpr ⟨List.mem_zipIdx_iff_getElem?.mpr hchild, hname⟩,
          List.mem_map_of_mem (ih.mpr hrest)⟩

theorem pairwise_positionsAlong (e : Element) (path : List String) :
    (positionsAlong e path).Pairwise (· < ·) := by
  induction path generalizing e with
  | nil => exact List.pairwise_singleton _ _
  | cons name path ih =>
    have hranks : e.elements.zipIdx.Pairwise fun a b => a.2 < b.2 := by
      rw [← List.pairwise_map (f := Prod.snd), List.zipIdx_map_snd]
      exact List.pairwise_lt_range'
    rw [positionsAlong, List.pairwise_flatMap]
    refine ⟨fun child _ => ?_, (hranks.filter _).imp fun hrank => ?_⟩
    · rw [List.pairwise_map]
      exact (ih child.1).imp fun hless => List.cons_lt_cons_iff.mpr (Or.inr ⟨rfl, hless⟩)
    · simp only [List.mem_map]
      rintro _ ⟨p, -, rfl⟩ _ ⟨q, -, rfl⟩
      exact List.cons_lt_cons_iff.mpr (Or.inl hrank)

theorem map_at?_positionsAlong (e : Element) (path : List String) :
    (positionsAlong e path).map e.at? = (descend e path).map some := by
  induction path generalizing e with
  | nil => rfl
  | cons name path ih =>
    have hchildren : plainChildren name e =
        (e.elements.zipIdx.filter fun child => isPlainChild name child.1).map Prod.fst := by
      rw [plainChildren]
      conv_lhs => rw [← List.zipIdx_map_fst 0 e.elements, List.filter_map]
      rfl
    rw [positionsAlong, descend, hchildren, List.flatMap_map, List.map_flatMap, List.map_flatMap]
    refine List.flatMap_congr fun child hchild => ?_
    have hat := List.mem_zipIdx_iff_getElem?.mp (List.mem_filter.mp hchild).1
    rw [List.map_map, ← ih child.1]
    refine List.map_congr_left fun position _ => ?_
    rw [Function.comp_apply, Element.at?, hat, Option.bind_some]

theorem areAllAlong_descend (root : Element) (path : List String) :
    areAllAlong root path (descend root path) :=
  ⟨positionsAlong root path, pairwise_positionsAlong root path, fun _ => mem_positionsAlong,
    map_at?_positionsAlong root path⟩

/-- The texts of all elements that a path leads to, in document order. -/
def textsAlong (root : Element) (path : List String) (texts : List String) : Prop :=
  ∃ found, areAllAlong root path found ∧ texts = found.map leadingText

/-! What is to be given. -/

/--
What metadata is to give, from the texts of its listed versions and the first texts that stand for a
list: the stripped texts in the list that are not blank, in order; if there is none, the latest version
unless it is blank, else the last release unless it is blank, else nothing.
-/
inductive IsGiven (listed : List String) (latest release : Option String) : List String → Prop where
  | listed (hsome : ∃ text ∈ listed, Text.isBlankText text = false) :
      IsGiven listed latest release ((listed.filter fun text => !Text.isBlankText text).map Text.strip)
  | latest {text : String} (hlisted : ∀ text ∈ listed, Text.isBlankText text = true)
      (hlatest : latest = some text) (hsome : Text.isBlankText text = false) :
      IsGiven listed latest release [Text.strip text]
  | release {text : String} (hlisted : ∀ text ∈ listed, Text.isBlankText text = true)
      (hlatest : ∀ text ∈ latest, Text.isBlankText text = true)
      (hrelease : release = some text) (hsome : Text.isBlankText text = false) :
      IsGiven listed latest release [Text.strip text]
  | nothing (hlisted : ∀ text ∈ listed, Text.isBlankText text = true)
      (hlatest : ∀ text ∈ latest, Text.isBlankText text = true)
      (hrelease : ∀ text ∈ release, Text.isBlankText text = true) : IsGiven listed latest release []

/--
Whether a blank text stands for the list: no text in the list counts, and the latest version has a text
that is blank, or it has none and the last release has one that is blank.
-/
def takesBlank (listed : List String) (latest release : Option String) : Prop :=
  (∀ text ∈ listed, Text.isBlankText text = true) ∧
    ∃ text, (latest.filter (!·.isEmpty)).or (release.filter (!·.isEmpty)) = some text ∧
      Text.isBlankText text = true

theorem IsGiven.usable {listed : List String} {latest release : Option String} {versions : List String}
    (h : IsGiven listed latest release versions) :
    ∀ version ∈ versions, version ≠ "" ∧ Text.strip version = version := by
  have hstrip : ∀ {text : String}, Text.isBlankText text = false →
      Text.strip text ≠ "" ∧ Text.strip (Text.strip text) = Text.strip text := by
    intro text hsome
    rw [← Text.isEmpty_strip] at hsome
    exact ⟨by simpa using hsome, Text.strip_strip text⟩
  cases h with
  | listed hsome =>
    intro version hversion
    obtain ⟨text, htext, rfl⟩ := List.mem_map.mp hversion
    exact hstrip (by simpa using (List.mem_filter.mp htext).2)
  | latest _ _ hsome => simpa using hstrip hsome
  | release _ _ _ hsome => simpa using hstrip hsome
  | nothing _ _ _ => exact nofun

/-! What is given. -/

theorem firstText?_eq (root : Element) (path : List String) :
    firstText? root path = (((descend root path).map leadingText).head?).filter (!·.isEmpty) := by
  rw [firstText?, List.head?_map]

/-- The texts of the list that count, whether white space is looked at before it is stripped or after. -/
theorem filter_map_strip (texts : List String) :
    (texts.map Text.strip).filter (!·.isEmpty) =
      (texts.filter fun text => !Text.isBlankText text).map Text.strip := by
  rw [List.filter_map]
  refine congrArg (List.map Text.strip) (List.filter_congr fun text _ => ?_)
  rw [Function.comp_apply, Text.isEmpty_strip]

/-- What metadata names, by the texts in it. -/
theorem releasesOf_eq {listed latest release : List String}
    (hlisted : listed = (descend root ["versioning", "versions", "version"]).map leadingText)
    (hlatest : latest = (descend root ["versioning", "latest"]).map leadingText)
    (hrelease : release = (descend root ["versioning", "release"]).map leadingText) :
    releasesOf root =
      match (listed.filter fun text => !Text.isBlankText text).map Text.strip with
      | [] => (((latest.head?.filter (!·.isEmpty)).or (release.head?.filter (!·.isEmpty))).map
          Text.strip).toList
      | versions => versions := by
  have hmap : ((descend root ["versioning", "versions", "version"]).map fun e =>
      Text.strip (leadingText e)) = listed.map Text.strip := by
    rw [hlisted, List.map_map]
    rfl
  rw [releasesOf, hmap, filter_map_strip, firstText?_eq, firstText?_eq, ← hlatest, ← hrelease]
  cases (listed.filter fun text => !Text.isBlankText text).map Text.strip with
  | nil => cases (latest.head?.filter (!·.isEmpty)).or (release.head?.filter (!·.isEmpty)) <;> rfl
  | cons version versions => rfl

/-- A text that is not empty is all that counts where blank ones are not told apart. -/
theorem isBlankText_of_filter_eq_none {text? : Option String} (h : text?.filter (!·.isEmpty) = none) :
    ∀ text ∈ text?, Text.isBlankText text = true := by
  rintro text rfl
  rw [Option.filter_eq_none_iff] at h
  have hempty : text = "" := by simpa using h text rfl
  rw [hempty]
  rfl

/-- What is given is what is to be given, unless a blank text stands for the list. -/
theorem isGiven_iff {listed : List String} {latest release : Option String} {versions : List String}
    (h : versions = match (listed.filter fun text => !Text.isBlankText text).map Text.strip with
      | [] => (((latest.filter (!·.isEmpty)).or (release.filter (!·.isEmpty))).map Text.strip).toList
      | versions => versions) :
    (IsGiven listed latest release versions ∧
        ∀ version ∈ versions, version ≠ "" ∧ Text.strip version = version) ↔
      ¬ takesBlank listed latest release := by
  have hgiven : IsGiven listed latest release versions → (IsGiven listed latest release versions ∧
      ∀ version ∈ versions, version ≠ "" ∧ Text.strip version = version) := fun h => ⟨h, h.usable⟩
  by_cases hsome : ∃ text ∈ listed, Text.isBlankText text = false
  · obtain ⟨text, htext, hcounts⟩ := hsome
    have hversions : versions = (listed.filter fun text => !Text.isBlankText text).map Text.strip := by
      rw [h]
      split
      · next hnil =>
        have hmem : Text.strip text ∈
            (listed.filter fun text => !Text.isBlankText text).map Text.strip :=
          List.mem_map_of_mem (List.mem_filter.mpr ⟨htext, by rw [hcounts]; rfl⟩)
        rw [hnil] at hmem
        cases hmem
      · rfl
    refine iff_of_true (hgiven (hversions ▸ IsGiven.listed ⟨text, htext, hcounts⟩)) fun hblank => ?_
    rw [hblank.1 text htext] at hcounts
    cases hcounts
  · have hblank : ∀ text ∈ listed, Text.isBlankText text = true := by simpa using hsome
    have hnil : listed.filter (fun text => !Text.isBlankText text) = [] := by simpa using hblank
    rw [hnil] at h
    cases hchosen : (latest.filter (!·.isEmpty)).or (release.filter (!·.isEmpty)) with
    | none =>
      obtain ⟨hlatest, hrelease⟩ := Option.or_eq_none_iff.mp hchosen
      rw [hchosen] at h
      refine iff_of_true (hgiven ?_) ?_
      · rw [h]
        exact IsGiven.nothing hblank (isBlankText_of_filter_eq_none hlatest)
          (isBlankText_of_filter_eq_none hrelease)
      · rintro ⟨-, text, htext, -⟩
        rw [hchosen] at htext
        cases htext
    | some text =>
      have hversions : versions = [Text.strip text] := by
        rw [h, hchosen]
        rfl
      cases hcounts : Text.isBlankText text with
      | true =>
        refine iff_of_false ?_ (not_not_intro ⟨hblank, text, hchosen, hcounts⟩)
        rintro ⟨-, husable⟩
        refine (husable (Text.strip text) (by rw [hversions]; exact List.mem_cons_self)).1 ?_
        rwa [← String.isEmpty_iff, Text.isEmpty_strip]
      | false =>
        refine iff_of_true (hgiven ?_) ?_
        · rw [hversions]
          rcases Option.or_eq_some_iff.mp hchosen with hlatest | ⟨hlatest, hrelease⟩
          · exact IsGiven.latest hblank (Option.filter_eq_some_iff.mp hlatest).1 hcounts
          · exact IsGiven.release hblank (isBlankText_of_filter_eq_none hlatest)
              (Option.filter_eq_some_iff.mp hrelease).1 hcounts
        · rintro ⟨-, other, hother, hno⟩
          rw [hchosen, Option.some.injEq] at hother
          rw [← hother, hcounts] at hno
          cases hno

/--
Metadata that is well-formed, in a text or in bytes, names releases. They are what is to be given, and
each is a text that is not empty and has no white space at its ends, exactly if no blank text stands for
the list.
-/
theorem readMetadata_usable_iff {text : String} {contents : Xml.Contents}
    (h : Xml.readDocument text.toList = some contents) :
    ∃ root versions, elementsOf contents.nodes = [root] ∧ readMetadata text = .ok versions ∧
      (∀ bytes, readStored bytes = some contents → readStoredMetadata bytes = .ok versions) ∧
      ∃ listed latest release, textsAlong root ["versioning", "versions", "version"] listed ∧
        textsAlong root ["versioning", "latest"] latest ∧
        textsAlong root ["versioning", "release"] release ∧
        ((IsGiven listed latest.head? release.head? versions ∧
            ∀ version ∈ versions, version ≠ "" ∧ Text.strip version = version) ↔
          ¬ takesBlank listed latest.head? release.head?) := by
  obtain ⟨-, root, hroot⟩ := Xml.rooted_readDocument h
  have hreleases : releasesIn (some contents) = .ok (releasesOf root) := by
    rw [releasesIn, Option.bind_some, hroot]
    rfl
  refine ⟨root, releasesOf root, hroot, ?_, fun bytes hbytes => ?_, _, _, _,
    ⟨_, areAllAlong_descend _ _, rfl⟩, ⟨_, areAllAlong_descend _ _, rfl⟩,
    ⟨_, areAllAlong_descend _ _, rfl⟩, isGiven_iff (releasesOf_eq rfl rfl rfl)⟩
  · rw [readMetadata, h, hreleases]
  · rw [readStoredMetadata, hbytes, hreleases]

/-- Two blocks, a version that is blank, and one that is cut by a comment. -/
def twoBlocks : String :=
  "<m><versioning><versions><version> 1<!-- -->.0</version></versions>" ++
    "<versions><version> </version><version>2</version></versions></versioning></m>"

theorem readMetadata_usable_twoBlocks :
    ∃ contents, Xml.readDocument twoBlocks.toList = some contents ∧
      ∃ root versions, elementsOf contents.nodes = [root] ∧ readMetadata twoBlocks = .ok versions ∧
        ∃ listed latest release, textsAlong root ["versioning", "versions", "version"] listed ∧
          ((IsGiven listed latest release versions ∧
              ∀ version ∈ versions, version ≠ "" ∧ Text.strip version = version) ↔
            ¬ takesBlank listed latest release) ∧ versions = ["1", "2"] := by
  have hread : readMetadata twoBlocks = .ok ["1", "2"] := by decide +kernel
  cases h : Xml.readDocument twoBlocks.toList with
  | none =>
    rw [readMetadata, h] at hread
    cases hread
  | some contents =>
    obtain ⟨root, versions, hroot, hversions, -, listed, latest, release, hlisted, -, -, hiff⟩ :=
      readMetadata_usable_iff h
    rw [hread, Except.ok.injEq] at hversions
    exact ⟨contents, rfl, root, versions, hroot, hversions ▸ hread, listed, _, _, hlisted, hiff,
      hversions.symm⟩

/-- A latest version that is blank is given as a release that is empty. -/
theorem blankLatest_given :
    ∃ versions, readMetadata "<m><versioning><latest> </latest></versioning></m>" = .ok versions ∧
      ¬ ∀ version ∈ versions, version ≠ "" ∧ Text.strip version = version := by
  refine ⟨[""], by decide +kernel, fun h => ?_⟩
  exact (h "" List.mem_cons_self).1 rfl

end Manifest.Release
