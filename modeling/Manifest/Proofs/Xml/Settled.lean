import Manifest.Proofs.Xml.Loaded
import Manifest.Proofs.Xml.Steady

/-! Settled nodes. What is written for nodes that were read, or made by hand without namespaces, is written
again when it is read again, unless some tag uses a declaration of its own that says nothing new where
it is written. Such a declaration is left out, so that the next time the tag uses the first one in force
for its namespace. -/

set_option autoImplicit false

namespace Manifest

open Xml (Scope)
open Xml.Markup (rawAttribute)

/--
Whether the declaration that a tag uses is the one that it would use if it made only those that say
something new. A tag that declares nothing for its namespace uses the one in force anyway.
-/
def Tag.settled (outer : Scope) (parent : Option String) (tag : Tag) : Bool :=
  (tag.uri.or parent).all fun u => (tag.bindings.find? (·.uri == u)).all fun b =>
    Xml.ownBinding (tag.bindings.filter fun x => outer.stands? x.pfx != some x.uri) outer (some u) ==
      some b

mutual

/-- Whether all tags of a node are settled where they are written. -/
def Node.settled (scope : Scope) (parent : Option String) (next : Nat) : Node → Bool
  | .element tag children =>
    tag.settled scope parent &&
      match Xml.qualifyTag scope parent next tag with
      | none => true
      | some written => settledAll written.scope written.uri written.next children
  | _ => true

/-- Whether all tags of some nodes are settled where they are written. -/
def settledAll (scope : Scope) (parent : Option String) (next : Nat) : List Node → Bool
  | [] => true
  | node :: rest =>
    node.settled scope parent next &&
      match Xml.qualify scope parent next node with
      | none => true
      | some (_, next) => settledAll scope parent next rest

end

/--
Whether a tag needs no more declarations than there are: those of the place that it comes from, which are
in force around it, and its own. All of them are in force inside it.
-/
structure Tag.Known (origin inner : Scope) (tag : Tag) : Prop where
  ordinary : Xml.Ordinary tag
  allowed : ∀ b ∈ inner, Xml.Allowed b
  inside : Scope.Agrees (tag.bindings ++ origin) inner
  keys : ∀ a ∈ tag.attributes, ∀ x, Xml.ExpandedName.parse? a.1 = some x →
    ∀ u ∈ x.uri, ∃ p, inner.stands? (some p) = some u
  unprefixed : Xml.isLocalName tag.name.toList = true → tag.uri = none →
    ∀ b ∈ tag.bindings, b.pfx = none → b.uri = ""

mutual

/-- Whether all tags of a node need no more declarations than there are, and its texts stand apart. -/
def Node.known (origin : Scope) : Node → Prop
  | .element tag children =>
    (∃ inner, tag.Known origin inner ∧ knownAll inner children) ∧ apart children
  | .text value => value ≠ ""
  | .comment value => '\r' ∉ value.toList
  | .instruction _ value => '\r' ∉ value.toList ∧ Xml.skipSpace value.toList = value.toList

/-- Whether all tags of some nodes need no more declarations than there are. -/
def knownAll (origin : Scope) : List Node → Prop
  | [] => True
  | node :: rest => node.known origin ∧ knownAll origin rest

end

theorem knownAll_iff {origin : Scope} {nodes : List Node} :
    knownAll origin nodes ↔ ∀ node ∈ nodes, node.known origin := by
  induction nodes with
  | nil => simp [knownAll]
  | cons node rest ih => simp [knownAll, ih]

theorem knownAll_append {origin : Scope} {a b : List Node} :
    knownAll origin (a ++ b) ↔ knownAll origin a ∧ knownAll origin b := by
  simp [knownAll_iff, or_imp, forall_and]

namespace Xml

/-! What was read is known where it was read. -/

theorem known_resolveTag {outer : Scope} (houter : ∀ b ∈ outer, Allowed b) {name : String}
    {attributes : List (String × String)} (hname : isRawName name.toList = true)
    (hattributes : ∀ a ∈ attributes, isRawName a.1.toList = true)
    (hdistinct : (attributes.map Prod.fst).Nodup) :
    let r := resolveTag [] outer name.toList (attributes.map rawAttribute)
    r.tag.Known outer r.scope := by
  intro r
  obtain ⟨htag, hnative, hinner, hallowed, -⟩ :=
    native_resolveTag houter hname hattributes hdistinct
  refine ⟨htag, hallowed, hinner, hnative.keys, fun hlocal huri b hb hp => ?_⟩
  refine hnative.spaceless hlocal huri b.uri ?_
  rw [← hinner none, ← hp]
  exact stands?_of_mem htag.distinct hb (htag.allowed b hb).notXml outer

mutual

theorem known_of_readIn {outer : Scope} (houter : ∀ b ∈ outer, Allowed b) (node : Node)
    (h : node.readIn outer) (hcalm : node.calm) : node.known outer := by
  cases node with
  | element tag children =>
    obtain ⟨⟨name, attributes, hname, hattributes, hnodup, rfl, hchildren⟩, ha⟩ := h
    have hknown := known_resolveTag houter hname hattributes hnodup
    exact ⟨⟨_, hknown, knownAll_of_readsIn hknown.allowed children hchildren hcalm⟩, ha⟩
  | text value => exact h
  | comment value => exact hcalm
  | instruction target value => exact ⟨hcalm, h⟩

theorem knownAll_of_readsIn {outer : Scope} (houter : ∀ b ∈ outer, Allowed b) (nodes : List Node)
    (h : readsIn outer nodes) (hcalm : calmAll nodes) : knownAll outer nodes := by
  cases nodes with
  | nil => trivial
  | cons node rest =>
    exact ⟨known_of_readIn houter node h.1 hcalm.1, knownAll_of_readsIn houter rest h.2 hcalm.2⟩

end

/-! A settled tag uses the first declaration for its namespace among those that are made for it. -/

theorem own_eq_ownBinding {outer : Scope} {next : Nat} {bindings : List Binding}
    (hdistinct : (bindings.map Binding.pfx).Nodup) (hallowed : ∀ b ∈ bindings, Allowed b)
    (hwritable : bindings.all isWritable = true) {uri : Option String}
    (hsettled : (uri.all fun u => (bindings.find? (·.uri == u)).all fun b =>
      ownBinding (bindings.filter fun x => outer.stands? x.pfx != some x.uri) outer (some u) ==
        some b) = true) {own : Option Binding} {t : Naming}
    (h : (bindings.foldl Naming.declare ⟨[], outer, next⟩).own bindings uri = some (own, t)) :
    own = ownBinding t.declared outer uri ∧ uri.all Uri.isReference = true := by
  rw [@Naming.foldl_declare outer next [] bindings hdistinct fun b hb => (hallowed b hb).notXml,
    List.nil_append] at h
  cases uri with
  | none =>
    cases h
    exact ⟨rfl, rfl⟩
  | some u =>
    rw [Option.all_some] at hsettled ⊢
    rw [Naming.own] at h
    split at h
    · next b hb =>
      cases h
      rw [hb, Option.all_some, beq_iff_eq] at hsettled
      have hmem := List.mem_of_find?_eq_some hb
      have huri : b.uri = u := by simpa using List.find?_some hb
      have hw := List.all_eq_true.mp hwritable b hmem
      rw [isWritable, Bool.and_eq_true, Bool.and_eq_true, huri] at hw
      exact ⟨hsettled.symm, hw.1.1⟩
    · next hnone =>
      split at h
      · next href =>
        refine ⟨?_, href⟩
        cases h
        have hno : (bindings.filter fun x => outer.stands? x.pfx != some x.uri).find?
            (·.uri == u) = none := by
          rw [List.find?_eq_none] at hnone ⊢
          exact fun x hx => hnone x (List.mem_filter.mp hx).1
        rw [ownBinding, Option.bind_some, Naming.use]
        split
        · next b hb => rw [hno, Option.none_or, ← hb, Naming.scope]
        · next hb =>
          dsimp only
          rw [List.find?_append, hno, Option.none_or, List.find?_singleton, if_pos (by simp)]
          rfl
      · cases h

/--
What a tag is written with, in a scope that says all that there is where it comes from. A settled one
uses the first declaration for its namespace.
-/
theorem chosen_of_known {outer origin inner : Scope} (houter : outer.isSound = true)
    (hcovers : outer.Covers origin) {parent : Option String}
    (hparent : ∀ u ∈ parent, u ≠ "" ∧ u ≠ xmlnsUri) {tag : Tag} (ht : tag.Known origin inner)
    {next : Nat} {w : WrittenTag} (hw : qualifyTag outer parent next tag = some w) :
    ∃ declared own xs next', Chosen outer (tag.uri.or parent) tag declared own xs ∧
      w = chosenTag outer (tag.uri.or parent) tag.name declared own xs next' ∧
      Scope.Covers (declared ++ outer) inner ∧
      (tag.settled outer parent = true → own = ownBinding declared outer (tag.uri.or parent) ∧
        (tag.uri.or parent).all Uri.isReference = true) := by
  obtain ⟨x, own, t, t', attributes, hname, hwritable, hown, hattributes, rfl⟩ :=
    qualifyTag_eq_some.mp hw
  have hspaced := ht.ordinary.spaced_or hparent
  obtain rfl := eq_of_parse?_tagKey (fun u hu => (hspaced u hu).1) ht.ordinary.name hname
  obtain ⟨-, houter', hgrown, -, -⟩ :=
    ht.ordinary.owned hspaced (parse?_sound hname) hwritable hown
  have hall : t.scope.Covers inner :=
    hgrown.trans ((hcovers.append tag.bindings).trans ht.inside.covers)
  -- what stood for the namespaces of the attributes does so still, so they add no declarations
  obtain rfl : t' = t := by
    rw [qualifyAttributes_eq fun a ha x hx u hu => ?_] at hattributes
    · obtain ⟨xs, -, hpair⟩ := Option.map_eq_some_iff.mp hattributes
      exact (Prod.mk.inj hpair).1.symm
    · obtain ⟨p, hp⟩ := ht.keys a ha x hx u hu
      exact ⟨p, hall.stands hp⟩
  obtain ⟨-, xs, hc, rfl⟩ :=
    ht.ordinary.chosen_of houter hspaced (parse?_sound hname) hwritable hown hattributes
  rw [Naming.scope, houter'] at hall
  exact ⟨t'.declared, own, xs, t'.next, hc, by simp only [chosenTag, writtenTag], hall,
    fun hsettled => own_eq_ownBinding ht.ordinary.distinct ht.ordinary.allowed hwritable hsettled hown⟩

/--
A place in a document: the declarations in force there when it is written and when it is read, those of
the place that its nodes come from, and the namespace that elements without one take.
-/
structure Site (scope reading origin : Scope) (parent : Option String) : Prop where
  sound : scope.isSound = true
  notXmlns : scope.stands? (some "xmlns") = none
  agrees : reading.Agrees scope
  covers : scope.Covers origin
  spaced : ∀ u ∈ parent, (u ≠ "" ∧ u ≠ xmlnsUri) ∧ ∃ pfx, scope.stands? pfx = some u
  unprefixed : parent = none → ∀ u ∈ scope.stands? none, u = ""

/-- The place outside all elements. -/
theorem Site.top : Site [] [] [] none :=
  ⟨rfl, rfl, Scope.Agrees.refl _, (Scope.Agrees.refl _).covers, nofun, nofun⟩

/-- What a start tag that was written is read as. -/
def WrittenTag.read (reading : Scope) (w : WrittenTag) : ResolvedTag :=
  resolveTag [] reading w.name.toList (w.attributes.map rawAttribute)

/--
What is written for a tag at a place is read there as a tag with its name, in the namespace that it was
written in.
-/
theorem Site.enter {scope reading origin inner : Scope} {parent : Option String}
    (hsite : Site scope reading origin parent) {tag : Tag} (ht : tag.Known origin inner)
    {next : Nat} {w : WrittenTag} (hw : qualifyTag scope parent next tag = some w) :
    Site w.scope (w.read reading).scope inner w.uri ∧ (w.read reading).tag.name = tag.name ∧
      (w.read reading).tag.uri = w.uri ∧ w.uri = tag.uri.or parent ∧
      (tag.settled scope parent = true →
        ∀ k, qualifyTag scope parent k (w.read reading).tag = some { w with next := k }) := by
  obtain ⟨declared, own, xs, next₁, hc, rfl, hcovered, hsettled⟩ :=
    chosen_of_known hsite.sound hsite.covers (fun u hu => (hsite.spaced u hu).1) ht hw
  have hsame := hc.agrees_scope next₁
  obtain ⟨hread, hresolved, -⟩ :=
    hc.resolveTag_chosenTag hsite.agrees hsite.sound hsite.notXmlns next₁
  -- without a prefix and without a namespace around it a name stays without one
  have hunprefixed : tag.uri.or parent = none →
      ∀ u ∈ Scope.stands? (declared ++ scope) none, u = "" := by
    intro hnone u hu
    obtain ⟨huri, hparent⟩ := Option.or_eq_none_iff.mp hnone
    have hin : Scope.stands? (tag.bindings ++ origin) none = some u := by
      rw [ht.inside none, ← hcovered.unprefixed]
      exact hu
    rw [stands?_append] at hin
    split at hin
    · rw [stands?_eq_uri? (by simp)] at hin
      exact ht.unprefixed hc.sound.isLocal huri ⟨none, u⟩ (mem_of_uri? hin) rfl
    · rw [← hsite.covers.unprefixed] at hin
      exact hsite.unprefixed hparent u hin
  have hstated : (tag.uri.or parent).or
      ((Scope.stands? (declared ++ scope) none).filter (!·.isEmpty)) = tag.uri.or parent := by
    cases hu : tag.uri.or parent with
    | none =>
      rw [Option.none_or, Option.filter_eq_none_iff]
      intro u hstands
      rw [hunprefixed hu u hstands]
      simp
    | some u => rfl
  rw [hstated] at hresolved
  refine ⟨⟨(isSound_qualifyTag hsite.sound hw).2.1, ?_, ?_, hsame.covers.trans hcovered, ?_, ?_⟩,
    by rw [WrittenTag.read, hresolved], by rw [WrittenTag.read, hresolved]; rfl, rfl, ?_⟩
  · rw [hsame]
    exact stands?_xmlns_append (fun b hb => (hc.declares b hb).toAllowed) hsite.notXmlns
  · rw [WrittenTag.read, hread]
    exact (hsite.agrees.append declared).trans hsame.symm
  · intro u hu
    obtain ⟨b, -, -, hstands, -⟩ := hc.spaced u hu
    exact ⟨ht.ordinary.spaced_or (fun v hv => (hsite.spaced v hv).1) u hu, b.pfx,
      (hsame b.pfx).trans hstands⟩
  · intro hnone u hu
    exact hunprefixed hnone u ((hsame none).symm.trans hu)
  · intro htag k
    obtain ⟨hown, href⟩ := hsettled htag
    rw [WrittenTag.read, hresolved, hc.reread (by cases tag.uri <;> cases parent <;> rfl) hown href k]
    rfl

namespace Markup

mutual

/-- What is written for a settled node is steady. -/
theorem steady_qualify {scope reading origin : Scope} {parent : Option String}
    (hsite : Site scope reading origin parent) (node : Node) (hn : node.known origin)
    {next next' : Nat} (hsettled : node.settled scope parent next = true) {m : Markup}
    (h : qualify scope parent next node = some (m, next')) : m.steady scope parent reading := by
  cases node with
  | element tag children =>
    obtain ⟨⟨inner, htag, hchildren⟩, -⟩ := hn
    rw [Node.settled, Bool.and_eq_true] at hsettled
    rw [qualify] at h
    split at h
    · cases h
    · next w hw =>
      rw [hw] at hsettled
      obtain ⟨hinner, -, -, -, hagain⟩ := hsite.enter htag hw
      split at h
      · cases h
      · next ms n hms =>
        cases h
        exact ⟨w.scope, w.uri, hagain hsettled.1,
          steadyAll_qualifyNodes hinner children hchildren hsettled.2 hms⟩
  | text value =>
    rw [qualify] at h
    split at h
    · cases h
      exact hn
    · cases h
  | comment value =>
    rw [qualify] at h
    split at h
    · cases h
      exact hn
    · cases h
  | instruction target value =>
    rw [qualify] at h
    split at h
    · cases h
      exact hn
    · cases h

theorem steadyAll_qualifyNodes {scope reading origin : Scope} {parent : Option String}
    (hsite : Site scope reading origin parent) (nodes : List Node) (hn : knownAll origin nodes)
    {next next' : Nat} (hsettled : settledAll scope parent next nodes = true) {ms : List Markup}
    (h : qualifyNodes scope parent next nodes = some (ms, next')) :
    steadyAll scope parent reading ms := by
  cases nodes with
  | nil =>
    cases h
    trivial
  | cons node rest =>
    rw [settledAll, Bool.and_eq_true] at hsettled
    rw [qualifyNodes] at h
    split at h
    · cases h
    · next m n hm =>
      rw [hm] at hsettled
      have hfirst := steady_qualify hsite node hn.1 hsettled.1 hm
      split at h
      · cases h
      · next ms' n' hms =>
        have hrest := steadyAll_qualifyNodes hsite rest hn.2 hsettled.2 hms
        split at h
        · cases h
          exact steadyAll_joinText hfirst hrest
        · cases h
          exact ⟨hfirst, hrest⟩

end

end Markup

end Xml

end Manifest
