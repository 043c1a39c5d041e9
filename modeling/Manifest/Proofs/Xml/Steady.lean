import Manifest.Proofs.Xml.Layout
import Manifest.Proofs.Xml.Reread

/-! Steady markup: read where it stands and written again it is the same, whatever prefixes were made up
before. Layout keeps markup steady. -/

set_option autoImplicit false

namespace Manifest

namespace Xml

open Markup (rawAttribute resolveAll)

/-! Reading and writing a tag once more. -/

/--
What was written for a tag is written again when it is read, if the tag uses the declaration that is
the first one for its namespace among those that were made.
-/
theorem Chosen.reread {outer : Scope} {parent uri : Option String} (huri : uri.or parent = uri)
    {tag : Tag} {declared : List Binding} {own : Option Binding}
    {xs : List (ExpandedName × String)} (hc : Chosen outer uri tag declared own xs)
    (hown : own = ownBinding declared outer uri) (href : uri.all Uri.isReference = true) (k : Nat) :
    qualifyTag outer parent k
        { name := tag.name, uri, bindings := declared, attributes := xs.map keyedAttribute } =
      some (chosenTag outer uri tag.name declared own xs k) := by
  obtain ⟨hnodup, hspec⟩ := expandAttributes_spec hc.expand
  have hexpand : expandAttributes [] (xs.map keyedAttribute) = some xs :=
    expandAttributes_keyed hnodup fun a ha =>
      ⟨(hspec a ha).1, (hspec a ha).2.1, (hspec a ha).2.2.1, hc.sound_of_mem ha⟩
  have hfold := @Naming.foldl_declare_new outer k declared hc.distinct hc.declares
  have hforce : ∀ u ∈ uri, ∃ pfx, Scope.stands? (declared ++ outer) pfx = some u := by
    intro u hu
    obtain ⟨b, -, -, hstands, -⟩ := hc.spaced u hu
    exact ⟨b.pfx, hstands⟩
  refine qualifyTag_eq_some.mpr ⟨⟨uri, tag.name⟩, own, ⟨declared, outer, k⟩, ⟨declared, outer, k⟩,
    xs.map (writeAttribute (declared ++ outer)), ?_, hc.writable, ?_, ?_, ?_⟩
  · rw [huri]
    exact hc.sound.parse?_tagKey
  · dsimp only
    rw [hfold, Naming.own_eq (t := ⟨declared, outer, k⟩) hforce, if_pos, hown]
    rw [Option.all_eq_true] at href ⊢
    exact fun u hu => by rw [href u hu, Bool.or_true]
  · rw [qualifyAttributes_eq, hexpand]
    · rfl
    · intro a ha x hx u hu
      obtain ⟨b, hb, rfl⟩ := List.mem_map.mp ha
      rw [keyedAttribute, (hc.sound_of_mem hb).parse?_tagKey, Option.some.injEq] at hx
      exact (hc.keys b hb).2 u (hx ▸ hu)
  · dsimp only
    rw [huri]
    rfl

namespace Markup

mutual

/--
Whether markup is written again as it is when it is read where it stands: inside an element of a
namespace, in a scope that reading knows as another.
-/
def steady (scope : Scope) (parent : Option String) (reading : Scope) : Markup → Prop
  | .text value => value ≠ ""
  | .comment value => '\r' ∉ value.toList
  | .instruction _ value => '\r' ∉ value.toList ∧ skipSpace value.toList = value.toList
  | .element name attributes children =>
    let r := resolveTag [] reading name.toList (attributes.map rawAttribute)
    ∃ inner uri, (∀ k, qualifyTag scope parent k r.tag = some ⟨name, attributes, inner, uri, k⟩) ∧
      steadyAll inner uri r.scope children

/-- Whether all of some markup is steady. -/
def steadyAll (scope : Scope) (parent : Option String) (reading : Scope) : List Markup → Prop
  | [] => True
  | m :: rest => m.steady scope parent reading ∧ steadyAll scope parent reading rest

end

theorem steadyAll_append {scope reading : Scope} {parent : Option String} {a b : List Markup} :
    steadyAll scope parent reading (a ++ b) ↔
      steadyAll scope parent reading a ∧ steadyAll scope parent reading b := by
  induction a with
  | nil => simp [steadyAll]
  | cons m a ih => rw [List.cons_append, steadyAll, steadyAll, ih, and_assoc]

theorem not_isVoid_of_steady {scope reading : Scope} {parent : Option String} {m : Markup}
    (h : m.steady scope parent reading) : m.isVoid = false := by
  cases m with
  | text value =>
    rw [isVoid, ← Bool.not_eq_true, String.isEmpty_iff]
    exact h
  | _ => rfl

mutual

/-- Steady markup is written as it is when it has been read. -/
theorem qualify_resolve {scope reading : Scope} {parent : Option String} (m : Markup)
    (hm : m.sound = true) (h : m.steady scope parent reading) (k : Nat) :
    qualify scope parent k (m.resolve reading) = some (m, k) := by
  cases m with
  | text value =>
    rw [sound] at hm
    rw [resolve, qualify, if_pos hm]
  | comment value =>
    rw [sound] at hm
    rw [resolve, qualify, if_pos hm]
  | instruction target value =>
    rw [sound] at hm
    rw [resolve, h.2, String.ofList_toList, qualify, if_pos hm]
  | element name attributes children =>
    obtain ⟨inner, uri, htag, hchildren⟩ := h
    rw [sound, Bool.and_eq_true] at hm
    rw [resolve, qualify, htag k]
    dsimp only
    rw [qualifyNodes_resolveAll children hm.2 hchildren k]

theorem qualifyNodes_resolveAll {scope reading : Scope} {parent : Option String} (ms : List Markup)
    (hms : soundAll ms = true) (h : steadyAll scope parent reading ms) (k : Nat) :
    qualifyNodes scope parent k (resolveAll reading ms) = some (ms, k) := by
  cases ms with
  | nil => rfl
  | cons m ms =>
    obtain ⟨hm, hnext, hms⟩ := soundAll_cons.mp hms
    rw [resolveAll, not_isVoid_of_steady h.1, if_neg (by simp), qualifyNodes,
      qualify_resolve m hm h.1 k]
    dsimp only
    rw [qualifyNodes_resolveAll ms hms h.2 k]
    dsimp only
    cases m with
    | text value =>
      have hstart := hnext rfl
      dsimp only
      rw [joinText.eq_def]
      split
      · cases hstart
      · rfl
    | _ => rfl

end

theorem steadyAll_joinText {scope reading : Scope} {parent : Option String} {value : String}
    (hv : value ≠ "") {ms : List Markup} (h : steadyAll scope parent reading ms) :
    steadyAll scope parent reading (joinText value ms) := by
  rw [joinText.eq_def]
  split
  · next after rest =>
    refine ⟨?_, h.2⟩
    rw [steady, ne_eq, String.append_eq_empty_iff]
    exact fun he => hv he.1
  · exact ⟨hv, h⟩

mutual

theorem unified_of_steady {scope reading : Scope} {parent : Option String} (m : Markup)
    (h : m.steady scope parent reading) : m.unified = m := by
  cases m with
  | text value => rfl
  | comment value => rw [unified, unifiedText_eq_self h]
  | instruction target value => rw [unified, unifiedText_eq_self h.1]
  | element name attributes children =>
    obtain ⟨inner, uri, -, hchildren⟩ := h
    rw [unified, unifiedAll_of_steadyAll children hchildren]

theorem unifiedAll_of_steadyAll {scope reading : Scope} {parent : Option String} (ms : List Markup)
    (h : steadyAll scope parent reading ms) : unifiedAll ms = ms := by
  cases ms with
  | nil => rfl
  | cons m ms => rw [unifiedAll, unified_of_steady m h.1, unifiedAll_of_steadyAll ms h.2]

end

/-! Layout keeps markup steady. -/

theorem steady_lineBreak {scope reading : Scope} {parent : Option String} (unit : String)
    (level : Nat) : (lineBreak unit level).steady scope parent reading := by
  rw [lineBreak, steady, ne_eq, String.ofList_eq_empty_iff]
  simp

mutual

theorem steady_indent {scope reading : Scope} {parent : Option String} {unit : String} (m : Markup)
    (h : m.steady scope parent reading) (level : Nat) :
    (m.indent unit level).steady scope parent reading := by
  cases m with
  | element name attributes children =>
    rw [indent]
    split
    · obtain ⟨inner, uri, htag, hchildren⟩ := h
      exact ⟨inner, uri, htag, steadyAll_indentNodes children hchildren level true⟩
    · exact h
  | _ => exact h

theorem steadyAll_indentNodes {scope reading : Scope} {parent : Option String} {unit : String}
    (ms : List Markup) (h : steadyAll scope parent reading ms) (level : Nat) (gap : Bool) :
    steadyAll scope parent reading (indentNodes unit level gap ms) := by
  have hbreak : ∀ level, steadyAll scope parent reading
      (if gap then [lineBreak unit level] else []) := by
    intro level
    cases gap with
    | true => exact ⟨steady_lineBreak unit level, trivial⟩
    | false => trivial
  cases ms with
  | nil => exact hbreak (level - 1)
  | cons m ms =>
    rcases blank_or_text_or_node m with hm | ⟨hm, hb⟩ | hm
    · rw [indentNodes_blank unit hm, steadyAll_append]
      exact ⟨hbreak _, steadyAll_indentNodes ms h.2 level false⟩
    · rw [indentNodes_text unit hm hb]
      exact ⟨h.1, steadyAll_indentNodes ms h.2 level false⟩
    · rw [indentNodes_node unit hm, steadyAll_append]
      exact ⟨hbreak _, steady_indent m h.1 (level + 1), steadyAll_indentNodes ms h.2 level true⟩

end

theorem steady_newLine {scope reading : Scope} {parent : Option String} (level : Nat) :
    (newLine level).steady scope parent reading := by
  rw [newLine, steady, ne_eq, String.ofList_eq_empty_iff]
  simp

mutual

theorem steady_laid {scope reading : Scope} {parent : Option String} (m : Markup)
    (h : m.steady scope parent reading) (level : Nat) : (m.laid level).steady scope parent reading := by
  cases m with
  | element name attributes children =>
    rw [laid]
    split
    · exact h
    · obtain ⟨inner, uri, htag, hchildren⟩ := h
      exact ⟨inner, uri, htag, steadyAll_laidLines children hchildren (level + 1)⟩
  | _ => exact h

theorem steadyAll_laidLines {scope reading : Scope} {parent : Option String} (ms : List Markup)
    (h : steadyAll scope parent reading ms) (level : Nat) :
    steadyAll scope parent reading (laidLines level ms) := by
  cases ms with
  | nil => exact ⟨steady_newLine (level - 1), trivial⟩
  | cons m ms =>
    exact ⟨steady_newLine level, steady_laid m h.1 level, steadyAll_laidLines ms h.2 level⟩

end

end Markup

end Xml

end Manifest
