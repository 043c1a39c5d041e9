import Manifest.Proofs.Xml.Naming
import Manifest.Proofs.Xml.Qualify

/-! The numbers of generated prefixes. They only go up while a tree is written, so where none was used up
in the end none was used up anywhere in it. -/

set_option autoImplicit false

namespace Manifest.Xml

namespace Naming

theorem next_foldl_declare (bindings : List Binding) (t : Naming) :
    (bindings.foldl declare t).next = t.next := by
  induction bindings generalizing t with
  | nil => rfl
  | cons b bindings ih =>
    rw [List.foldl_cons, ih, declare]
    split <;> rfl

theorem le_next_use (t : Naming) (uri : String) (needsPrefix : Bool) :
    t.next ≤ (t.use uri needsPrefix).2.next := by
  rw [use]
  split
  · exact Nat.le_refl _
  · exact (newPrefix_spec t.scope t.next uri).2.2.1

theorem le_next_own {t t' : Naming} {bindings : List Binding} {uri : Option String}
    {own : Option Binding} (h : t.own bindings uri = some (own, t')) : t.next ≤ t'.next := by
  rw [Naming.own.eq_def] at h
  split at h
  · cases h
    exact Nat.le_refl _
  · split at h
    · cases h
      exact Nat.le_refl _
    · split at h <;> cases h
      exact t.le_next_use _ _

theorem le_next_prefixFor {t t' : Naming} {uri pfx : Option String}
    (h : t.prefixFor uri = some (pfx, t')) : t.next ≤ t'.next := by
  rw [prefixFor.eq_def] at h
  split at h
  · cases h
    exact Nat.le_refl _
  · split at h <;> cases h
    exact t.le_next_use _ _

end Naming

theorem le_next_qualifyAttributes {t t' : Naming} {seen : List ExpandedName}
    {attributes written : List (String × String)}
    (h : qualifyAttributes t seen attributes = some (t', written)) : t.next ≤ t'.next := by
  induction attributes generalizing t seen written with
  | nil =>
    cases h
    exact Nat.le_refl _
  | cons a rest ih =>
    rw [qualifyAttributes_cons] at h
    obtain ⟨name, -, h⟩ := Option.bind_eq_some_iff.mp h
    split at h
    · exact ih h
    · split at h
      · cases h
      · obtain ⟨⟨pfx, t₁⟩, hpfx, h⟩ := Option.bind_eq_some_iff.mp h
        obtain ⟨⟨t₂, more⟩, hmore, h⟩ := Option.map_eq_some_iff.mp h
        cases h
        exact Nat.le_trans (Naming.le_next_prefixFor hpfx) (ih hmore)

theorem le_next_qualifyTag {outer : Scope} {parent : Option String} {next : Nat} {tag : Tag}
    {w : WrittenTag} (h : qualifyTag outer parent next tag = some w) : next ≤ w.next := by
  obtain ⟨name, own, t, t', attributes, -, -, hown, hattributes, rfl⟩ := qualifyTag_eq_some.mp h
  have hnext := Naming.le_next_own hown
  rw [Naming.next_foldl_declare] at hnext
  exact Nat.le_trans hnext (le_next_qualifyAttributes hattributes)

mutual

theorem le_of_qualify {scope : Scope} {parent : Option String} {next next' : Nat} (node : Node)
    {m : Markup} (h : qualify scope parent next node = some (m, next')) : next ≤ next' := by
  cases node with
  | element tag children =>
    rw [qualify] at h
    split at h
    · cases h
    · next w hw =>
      split at h
      · cases h
      · next ms n hms =>
        cases h
        exact Nat.le_trans (le_next_qualifyTag hw) (le_of_qualifyNodes children hms)
  | text value => rw [qualify] at h; split at h <;> cases h; exact Nat.le_refl _
  | comment value => rw [qualify] at h; split at h <;> cases h; exact Nat.le_refl _
  | instruction target value => rw [qualify] at h; split at h <;> cases h; exact Nat.le_refl _

theorem le_of_qualifyNodes {scope : Scope} {parent : Option String} {next next' : Nat}
    (nodes : List Node) {ms : List Markup}
    (h : qualifyNodes scope parent next nodes = some (ms, next')) : next ≤ next' := by
  cases nodes with
  | nil =>
    cases h
    exact Nat.le_refl _
  | cons node rest =>
    rw [qualifyNodes] at h
    split at h
    · cases h
    · next m n hm =>
      split at h
      · cases h
      · next ms' n' hms =>
        have hle := Nat.le_trans (le_of_qualify node hm) (le_of_qualifyNodes rest hms)
        split at h <;> cases h <;> exact hle

end

end Manifest.Xml
