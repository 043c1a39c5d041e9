import Manifest.Proofs.Xml.Naming
import Manifest.Proofs.Xml.Token

/-! What choosing prefixes gives is sound: names are names, values and texts are such as a document may
hold, and no two texts stand side by side. -/

set_option autoImplicit false

namespace Manifest.Xml

/-! Names with their namespaces. -/

theorem isDocumentText_ofList {cs : List Char} (h : cs.all isChar = true) :
    isDocumentText (String.ofList cs) = true := by
  rw [isDocumentText, String.toList_ofList]
  exact h

/-- The name of an element with its namespace in front, as names are given. -/
def tagKey (uri : Option String) (name : String) : String :=
  match uri with
  | some uri => if uri.isEmpty then name else attributeKey uri name
  | none => name

/-- A name that can be written, with its namespace in braces in front or without. -/
structure ExpandedName.Sound (x : ExpandedName) : Prop where
  isLocal : isLocalName x.name.toList = true
  isText : isDocumentText x.name = true
  uri : ∀ u ∈ x.uri, u ≠ "" ∧ isDocumentText u = true ∧ '\x7d' ∉ u.toList

/-- Reading a name with its namespace in front. -/
theorem parse?_brace {s : String} {cs : List Char} (hs : isDocumentText s = true)
    (h : s.toList = '\x7b' :: cs) :
    ExpandedName.parse? s =
      match cs.drop (cs.takeWhile (· != '\x7d')).length with
      | _ :: name =>
        if isLocalName name then
          some ⟨if (cs.takeWhile (· != '\x7d')).isEmpty then none
            else some (String.ofList (cs.takeWhile (· != '\x7d'))), String.ofList name⟩
        else none
      | [] => none := by
  rw [ExpandedName.parse?, hs, if_neg (by simp), h]
  rfl

/-- Reading a name without a namespace in front. -/
theorem parse?_plain {s : String} (hs : isDocumentText s = true)
    (h : s.toList.head? ≠ some '\x7b') :
    ExpandedName.parse? s = if isLocalName s.toList then some ⟨none, s⟩ else none := by
  rw [ExpandedName.parse?, hs, if_neg (by simp)]
  split
  · next cs hcs =>
    rw [hcs] at h
    exact absurd rfl h
  · rfl

/-- The parts of a name that is read are sound. -/
theorem parse?_sound {s : String} {x : ExpandedName} (h : ExpandedName.parse? s = some x) :
    x.Sound := by
  have hs : isDocumentText s = true := by
    rw [ExpandedName.parse?] at h
    split at h
    · cases h
    · next hs => simpa using hs
  by_cases hbrace : s.toList.head? = some '\x7b'
  · obtain ⟨cs, hcs⟩ := List.head?_eq_some_iff.mp hbrace
    rw [parse?_brace hs hcs] at h
    have hall : ∀ {back : List Char}, back <:+ cs → back.all isChar = true := by
      intro back hback
      rw [List.all_eq_true]
      intro c hc
      refine List.all_eq_true.mp hs c ?_
      rw [hcs]
      exact .tail _ (hback.subset hc)
    have hfront : (cs.takeWhile (· != '\x7d')).all isChar = true := by
      rw [List.all_eq_true]
      intro c hc
      refine List.all_eq_true.mp hs c ?_
      rw [hcs]
      exact .tail _ ((List.takeWhile_sublist _).mem hc)
    split at h
    · next c name hname =>
      have hsuffix : name <:+ cs :=
        (List.suffix_cons c name).trans (hname ▸ List.drop_suffix _ cs)
      split at h
      · next hlocal =>
        cases h
        refine ⟨by simpa using hlocal, isDocumentText_ofList (hall hsuffix), ?_⟩
        intro u hu
        dsimp only at hu
        split at hu
        · cases hu
        · next hne =>
          cases hu
          refine ⟨?_, isDocumentText_ofList hfront, ?_⟩
          · rw [ne_eq, String.ofList_eq_empty_iff]
            simpa using hne
          · rw [String.toList_ofList]
            intro hmem
            simpa using List.mem_takeWhile_imp hmem
      · cases h
    · cases h
  · rw [parse?_plain hs hbrace] at h
    split at h
    · next hlocal =>
      cases h
      exact ⟨hlocal, hs, nofun⟩
    · cases h

theorem isRawName_prefixed {pfx : Option String} {name : String}
    (hpfx : ∀ p ∈ pfx, isLocalName p.toList = true) (hname : isLocalName name.toList = true) :
    isRawName (prefixed pfx name).toList = true := by
  cases pfx with
  | none => exact isRawName_of_isLocalName hname
  | some p =>
    have hcolon : (prefixed (some p) name).toList = p.toList ++ ':' :: name.toList := by
      simp [prefixed]
    rw [hcolon]
    exact isRawName_colon (hpfx p rfl) hname

/-! Scopes that can be written. -/

/-- Whether every declaration of a scope consists of a name and a text. -/
def Scope.isSound (scope : Scope) : Bool :=
  scope.all fun b => isDocumentText b.uri && b.pfx.all fun p => isLocalName p.toList

theorem Scope.isSound_iff {scope : Scope} :
    scope.isSound = true ↔
      ∀ b ∈ scope, isDocumentText b.uri = true ∧ ∀ p ∈ b.pfx, isLocalName p.toList = true := by
  rw [Scope.isSound, List.all_eq_true]
  simp [Option.all_eq_true]

theorem Scope.isSound_append {a b : Scope} :
    Scope.isSound (a ++ b) = true ↔ a.isSound = true ∧ b.isSound = true := by
  rw [Scope.isSound, List.all_append, Bool.and_eq_true]
  rfl

theorem isSound_of_isWritable {b : Binding} (h : isWritable b = true) :
    Scope.isSound [b] = true := by
  rw [isWritable, Bool.and_eq_true, Bool.and_eq_true] at h
  simp [Scope.isSound, h.1.2, h.2]

theorem Scope.isSound_mem {scope : Scope} (h : scope.isSound = true) {b : Binding}
    (hb : b ∈ scope) : Scope.isSound [b] = true := by
  rw [Scope.isSound_iff] at h ⊢
  intro x hx
  rw [List.mem_singleton] at hx
  exact hx ▸ h b hb

theorem Scope.isSound_binding? {scope : Scope} (h : scope.isSound = true) {uri : String}
    {needsPrefix : Bool} {b : Binding} (hb : scope.binding? uri needsPrefix = some b) :
    Scope.isSound [b] = true := by
  obtain ⟨-, -, -, hmem | rfl⟩ := binding?_eq_some hb
  · exact Scope.isSound_mem h hmem
  · decide

theorem isSound_bindings {bindings : List Binding} (h : bindings.all isWritable = true) :
    Scope.isSound bindings = true := by
  rw [Scope.isSound_iff]
  intro b hb
  exact Scope.isSound_iff.mp (isSound_of_isWritable (List.all_eq_true.mp h b hb)) b (by simp)

theorem isLocalName_of_stands? {scope : Scope} (h : scope.isSound = true) {pfx : Option String}
    {uri : String} (hpfx : scope.stands? pfx = some uri) : ∀ p ∈ pfx, isLocalName p.toList = true := by
  rintro p rfl
  by_cases hx : p = "xml"
  · rw [hx]
    decide
  · rw [stands?_eq_uri? (by simpa using hx)] at hpfx
    exact (Scope.isSound_iff.mp h _ (mem_of_uri? hpfx)).2 p rfl

namespace Naming

theorem isSound_declare {t : Naming} (h : t.scope.isSound = true) {b : Binding}
    (hb : isWritable b = true) :
    (t.declare b).scope.isSound = true ∧ (t.declare b).outer = t.outer := by
  rw [declare]
  split
  · exact ⟨h, rfl⟩
  · rw [scope, Scope.isSound_append] at h ⊢
    exact ⟨⟨Scope.isSound_append.mpr ⟨h.1, isSound_of_isWritable hb⟩, h.2⟩, rfl⟩

theorem isSound_foldl_declare {bindings : List Binding} (hb : bindings.all isWritable = true)
    {t : Naming} (h : t.scope.isSound = true) :
    (bindings.foldl declare t).scope.isSound = true ∧ (bindings.foldl declare t).outer = t.outer := by
  induction bindings generalizing t with
  | nil => exact ⟨h, rfl⟩
  | cons b bindings ih =>
    rw [List.all_cons, Bool.and_eq_true] at hb
    obtain ⟨hsound, houter⟩ := isSound_declare h hb.1
    obtain ⟨hrest, houter'⟩ := ih hb.2 hsound
    exact ⟨hrest, houter'.trans houter⟩

theorem isSound_use {t : Naming} (h : t.scope.isSound = true) {uri : String}
    (huri : isDocumentText uri = true) (needsPrefix : Bool) :
    Scope.isSound [(t.use uri needsPrefix).1] = true ∧
      (t.use uri needsPrefix).2.scope.isSound = true ∧
        (t.use uri needsPrefix).2.outer = t.outer := by
  rw [use]
  cases hb : t.scope.binding? uri needsPrefix with
  | some b => exact ⟨Scope.isSound_binding? h hb, h, rfl⟩
  | none =>
    have hlocal := (newPrefix_spec t.scope t.next uri).1
    have hnew : Scope.isSound [⟨some (newPrefix t.scope t.next uri).1, uri⟩] = true := by
      rw [Scope.isSound_iff]
      intro b hb
      rw [List.mem_singleton] at hb
      subst hb
      exact ⟨huri, fun p hp => by cases hp; exact hlocal⟩
    refine ⟨hnew, ?_, rfl⟩
    rw [scope, Scope.isSound_append] at h ⊢
    exact ⟨Scope.isSound_append.mpr ⟨h.1, hnew⟩, h.2⟩

/-- The declaration that an element uses, given those of its tag. -/
def own (t : Naming) (bindings : List Binding) : Option String → Option (Option Binding × Naming)
  | none => some (none, t)
  | some uri =>
    match bindings.find? (·.uri == uri) with
    | some b => some (some b, t)
    | none =>
      if Uri.isReference uri then some (some (t.use uri false).1, (t.use uri false).2) else none

theorem isSound_own {t t' : Naming} {bindings : List Binding} {uri : Option String}
    {b : Option Binding} (h : t.scope.isSound = true) (hb : bindings.all isWritable = true)
    (huri : ∀ u ∈ uri, isDocumentText u = true) (hown : t.own bindings uri = some (b, t')) :
    Scope.isSound b.toList = true ∧ t'.scope.isSound = true ∧ t'.outer = t.outer := by
  cases uri with
  | none =>
    cases hown
    exact ⟨rfl, h, rfl⟩
  | some uri =>
    rw [own] at hown
    split at hown
    · next x hx =>
      cases hown
      have hmem := List.mem_of_find?_eq_some hx
      exact ⟨isSound_of_isWritable (List.all_eq_true.mp hb x hmem), h, rfl⟩
    · split at hown
      · cases hown
        exact isSound_use h (huri uri rfl) false
      · cases hown

end Naming

/-- The tag that is written with given choices. -/
def writtenTag (outer : Scope) (uri : Option String) (name : String) (own : Option Binding)
    (t : Naming) (attributes : List (String × String)) : WrittenTag where
  name := prefixed (own.bind (·.pfx)) name
  attributes := t.declared.filterMap declarationAttribute? ++ attributes
  scope := t.declared ++ own.toList ++ outer
  uri := uri
  next := t.next

theorem qualifyTag_eq (outer : Scope) (parent : Option String) (next : Nat) (tag : Tag) :
    qualifyTag outer parent next tag =
      (ExpandedName.parse? (tagKey (tag.uri.or parent) tag.name)).bind fun name =>
        if !tag.bindings.all isWritable then none
        else ((tag.bindings.foldl Naming.declare { outer := outer, next := next }).own tag.bindings
          name.uri).bind fun p =>
            (qualifyAttributes p.2 [] tag.attributes).bind fun q =>
              some (writtenTag outer (tag.uri.or parent) name.name p.1 q.1 q.2) := by
  rw [qualifyTag]
  simp only [Option.bind_eq_bind, Option.pure_def]
  congr 1
  funext name
  split
  · rfl
  · cases name.uri with
    | none => rfl
    | some uri =>
      dsimp only [Naming.own]
      cases tag.bindings.find? (·.uri == uri) with
      | some b => rfl
      | none =>
        dsimp only
        split <;> rfl

/-- The parts that a start tag is written from. -/
theorem qualifyTag_eq_some {outer : Scope} {parent : Option String} {next : Nat} {tag : Tag}
    {w : WrittenTag} :
    qualifyTag outer parent next tag = some w ↔
      ∃ name own t t' attributes,
        ExpandedName.parse? (tagKey (tag.uri.or parent) tag.name) = some name ∧
          tag.bindings.all isWritable = true ∧
          (tag.bindings.foldl Naming.declare { outer := outer, next := next }).own tag.bindings
            name.uri = some (own, t) ∧
          qualifyAttributes t [] tag.attributes = some (t', attributes) ∧
          w = writtenTag outer (tag.uri.or parent) name.name own t' attributes := by
  rw [qualifyTag_eq]
  constructor
  · intro h
    obtain ⟨name, hname, h⟩ := Option.bind_eq_some_iff.mp h
    split at h
    · cases h
    · next hwritable =>
      obtain ⟨⟨own, t⟩, hown, h⟩ := Option.bind_eq_some_iff.mp h
      obtain ⟨⟨t', attributes⟩, hattributes, h⟩ := Option.bind_eq_some_iff.mp h
      rw [Option.some.injEq] at h
      exact ⟨name, own, t, t', attributes, hname, by simpa using hwritable, hown, hattributes, h.symm⟩
  · rintro ⟨name, own, t, t', attributes, hname, hwritable, hown, hattributes, rfl⟩
    rw [hname, Option.bind_some, if_neg (by simp [hwritable]), hown, Option.bind_some, hattributes,
      Option.bind_some]

/-- The prefix of an attribute in a namespace or in none, declared if need be. -/
def Naming.prefixFor (t : Naming) : Option String → Option (Option String × Naming)
  | none => some (none, t)
  | some uri =>
    if Uri.isReference uri then some ((t.use uri true).1.pfx, (t.use uri true).2) else none

theorem qualifyAttributes_cons (t : Naming) (seen : List ExpandedName) (key value : String)
    (rest : List (String × String)) :
    qualifyAttributes t seen ((key, value) :: rest) =
      (ExpandedName.parse? key).bind fun name =>
        if seen.contains name then qualifyAttributes t seen rest
        else if !isDocumentText value then none
        else (t.prefixFor name.uri).bind fun p =>
          (qualifyAttributes p.2 (name :: seen) rest).map fun q =>
            (q.1, (prefixed p.1 name.name, value) :: q.2) := by
  rw [qualifyAttributes, Option.bind_eq_bind]
  congr 1
  funext name
  split
  · rfl
  · split
    · rfl
    · cases name.uri with
      | none =>
        dsimp only [Naming.prefixFor]
        rw [Option.bind_some]
        cases qualifyAttributes t (name :: seen) rest <;> rfl
      | some uri =>
        dsimp only [Naming.prefixFor]
        cases Uri.isReference uri with
        | false => rfl
        | true =>
          rw [if_pos rfl, Option.bind_some, if_neg (by simp)]
          dsimp only
          cases qualifyAttributes (t.use uri true).2 (name :: seen) rest <;> rfl

theorem isSound_prefixFor {t t' : Naming} {uri pfx : Option String} (h : t.scope.isSound = true)
    (huri : ∀ u ∈ uri, isDocumentText u = true) (hp : t.prefixFor uri = some (pfx, t')) :
    (∀ p ∈ pfx, isLocalName p.toList = true) ∧ t'.scope.isSound = true ∧ t'.outer = t.outer := by
  cases uri with
  | none =>
    cases hp
    exact ⟨nofun, h, rfl⟩
  | some u =>
    rw [Naming.prefixFor] at hp
    split at hp
    · rw [Option.some.injEq, Prod.mk.injEq] at hp
      obtain ⟨hpfx, ht⟩ := hp
      obtain ⟨hb, hused, houter⟩ := Naming.isSound_use h (huri u rfl) true
      rw [← hpfx, ← ht]
      exact ⟨(Scope.isSound_iff.mp hb _ (List.mem_singleton_self _)).2, hused, houter⟩
    · cases hp

theorem isSound_qualifyAttributes {t t' : Naming} {seen : List ExpandedName}
    {attributes written : List (String × String)} (h : t.scope.isSound = true)
    (hq : qualifyAttributes t seen attributes = some (t', written)) :
    t'.scope.isSound = true ∧ t'.outer = t.outer ∧
      written.all (fun a => isRawName a.1.toList && isDocumentText a.2) = true := by
  induction attributes generalizing t seen written with
  | nil =>
    cases hq
    exact ⟨h, rfl, rfl⟩
  | cons a rest ih =>
    obtain ⟨key, value⟩ := a
    rw [qualifyAttributes_cons] at hq
    obtain ⟨name, hname, hq⟩ := Option.bind_eq_some_iff.mp hq
    have hsound := parse?_sound hname
    have huri := fun u hu => (hsound.uri u hu).2.1
    split at hq
    · exact ih h hq
    · split at hq
      · cases hq
      · next hvalue =>
        obtain ⟨⟨pfx, t₁⟩, hpfx, hq⟩ := Option.bind_eq_some_iff.mp hq
        obtain ⟨⟨t₂, more⟩, hmore, hq⟩ := Option.map_eq_some_iff.mp hq
        cases hq
        obtain ⟨hp, hscope, houter⟩ := isSound_prefixFor h huri hpfx
        obtain ⟨hscope', houter', hall⟩ := ih hscope hmore
        refine ⟨hscope', houter'.trans houter, ?_⟩
        have hvalue : isDocumentText value = true := by simpa using hvalue
        rw [List.all_cons, hall, isRawName_prefixed hp hsound.isLocal, hvalue]
        rfl

/-- A tag is written with names and texts, and so are the declarations in force inside. -/
theorem isSound_qualifyTag {outer : Scope} (h : outer.isSound = true) {parent : Option String}
    {next : Nat} {tag : Tag} {w : WrittenTag} (hw : qualifyTag outer parent next tag = some w) :
    isRawName w.name.toList = true ∧ w.scope.isSound = true ∧
      w.attributes.all (fun a => isRawName a.1.toList && isDocumentText a.2) = true := by
  obtain ⟨name, own, t, t', attributes, hname, hwritable, hown, hattributes, rfl⟩ :=
    qualifyTag_eq_some.mp hw
  have hsound := parse?_sound hname
  have huri := fun u hu => (hsound.uri u hu).2.1
  obtain ⟨hfold, houter⟩ := Naming.isSound_foldl_declare hwritable
    (t := { outer := outer, next := next }) (by simpa [Naming.scope] using h)
  obtain ⟨hown', hscope, houter'⟩ := Naming.isSound_own hfold hwritable huri hown
  obtain ⟨hscope', houter'', hall⟩ := isSound_qualifyAttributes hscope hattributes
  rw [Naming.scope, Scope.isSound_append] at hscope'
  refine ⟨?_, ?_, ?_⟩
  · refine isRawName_prefixed (fun p hp => ?_) hsound.isLocal
    obtain ⟨b, rfl, hb⟩ := Option.bind_eq_some_iff.mp hp
    exact (Scope.isSound_iff.mp hown' b (by simp)).2 p hb
  · rw [writtenTag, Scope.isSound_append, Scope.isSound_append]
    exact ⟨⟨hscope'.1, hown'⟩, h⟩
  · rw [writtenTag, List.all_append, hall, Bool.and_true, List.all_eq_true]
    intro a ha
    obtain ⟨b, hb, hdeclared⟩ := List.mem_filterMap.mp ha
    obtain ⟨hb, hp⟩ := Scope.isSound_iff.mp hscope'.1 b hb
    rw [declarationAttribute?] at hdeclared
    split at hdeclared
    · cases hdeclared
      rw [hb, Bool.and_true]
      dsimp only
      decide
    · next p hpfx =>
      split at hdeclared
      · cases hdeclared
      · cases hdeclared
        dsimp only
        have hxmlns : ("xmlns:" ++ p).toList = "xmlns".toList ++ ':' :: p.toList := by simp
        rw [hxmlns, hb, isRawName_colon (by decide) (hp p hpfx)]
        rfl

theorem soundAll_joinText {value : String} (hvalue : isDocumentText value = true)
    {ms : List Markup} (h : Markup.soundAll ms = true) :
    Markup.soundAll (joinText value ms) = true := by
  rw [joinText.eq_def]
  split
  · next after rest =>
    obtain ⟨hafter, hstart, hrest⟩ := Markup.soundAll_cons.mp h
    rw [Markup.soundAll_cons]
    refine ⟨?_, fun _ => hstart rfl, hrest⟩
    rw [Markup.sound, isDocumentText, String.toList_append, List.all_append]
    exact Bool.and_eq_true_iff.mpr ⟨hvalue, hafter⟩
  · next hno =>
    rw [Markup.soundAll_cons]
    refine ⟨hvalue, fun _ => ?_, h⟩
    cases ms with
    | nil => rfl
    | cons m rest =>
      cases m with
      | text after => exact absurd rfl (hno after rest)
      | _ => rfl

mutual

/-- What is written for a node is sound. -/
theorem sound_qualify {scope : Scope} (hscope : scope.isSound = true) {parent : Option String}
    {next next' : Nat} (node : Node) {m : Markup}
    (h : qualify scope parent next node = some (m, next')) : m.sound = true := by
  cases node with
  | text value =>
    rw [qualify] at h
    split at h
    · next hv => cases h; exact hv
    · cases h
  | comment value =>
    rw [qualify] at h
    split at h
    · next hv => cases h; exact hv
    · cases h
  | instruction target value =>
    rw [qualify] at h
    split at h
    · next hv => cases h; exact hv
    · cases h
  | element tag children =>
    rw [qualify] at h
    split at h
    · cases h
    · next w hw =>
      obtain ⟨hname, hinner, hattributes⟩ := isSound_qualifyTag hscope hw
      split at h
      · cases h
      · next ms n hms =>
        cases h
        rw [Markup.sound, hname, hattributes, soundAll_qualifyNodes hinner children hms]
        rfl

theorem soundAll_qualifyNodes {scope : Scope} (hscope : scope.isSound = true)
    {parent : Option String} {next next' : Nat} (nodes : List Node) {ms : List Markup}
    (h : qualifyNodes scope parent next nodes = some (ms, next')) : Markup.soundAll ms = true := by
  cases nodes with
  | nil =>
    cases h
    rfl
  | cons node rest =>
    rw [qualifyNodes] at h
    split at h
    · cases h
    · next m n hm =>
      have hfirst := sound_qualify hscope node hm
      split at h
      · cases h
      · next ms' n' hms =>
        have hrest := soundAll_qualifyNodes hscope rest hms
        split at h
        · cases h
          exact soundAll_joinText hfirst hrest
        · next hno =>
          cases h
          rw [Markup.soundAll_cons]
          refine ⟨hfirst, fun htext => ?_, hrest⟩
          cases m with
          | text value => exact absurd rfl (hno value)
          | _ => cases htext

end

end Manifest.Xml
