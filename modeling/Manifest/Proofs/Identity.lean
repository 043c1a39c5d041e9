import Manifest.Identity

/-! Identities as relations. All but one compare the fields of two entries, and these do not depend on
the order in which the entries are given. Those in `Identity.keyed` go by a key: entries are the same exactly
if they have one and it is the same. -/

set_option autoImplicit false

namespace Manifest

/-- The identities that compare two entries; the one left out looks at the existing entry alone. -/
def Identity.comparing : List Identity :=
  [.dependency, .plugin, .embedded, .profile, .property, .module]

theorem sameField_comm (a b : Option String) : sameField a b = sameField b a := by
  cases a <;> cases b <;> simp [sameField, BEq.comm]

/-- Texts that are equal and not empty. -/
theorem sameText_comm (a b : String) : (!a.isEmpty && a == b) = (!b.isEmpty && b == a) := by
  by_cases h : a = b
  · rw [h]
  · have hab : (a == b) = false := beq_false_of_ne h
    have hba : (b == a) = false := beq_false_of_ne (Ne.symm h)
    rw [hab, hba, Bool.and_false, Bool.and_false]

theorem sameCoordinates_comm (a b : Element) : sameCoordinates a b = sameCoordinates b a := by
  rw [sameCoordinates, sameCoordinates, sameField_comm, sameField_comm (b.childText? "artifactId")]

theorem samePlugin_comm (a b : Element) : samePlugin a b = samePlugin b a := by
  rw [samePlugin, samePlugin, sameField_comm]
  cases a.childText? "groupId" <;> cases b.childText? "groupId" <;> simp [BEq.comm]

theorem Identity.same_comm {identity : Identity} (h : identity ∈ comparing) (a b : Element) :
    identity.same a b = identity.same b a := by
  simp only [comparing, List.mem_cons, List.not_mem_nil, or_false] at h
  rcases h with rfl | rfl | rfl | rfl | rfl | rfl
  · exact sameCoordinates_comm a b
  · exact samePlugin_comm a b
  · exact sameCoordinates_comm a b
  · exact sameField_comm _ _
  · exact sameText_comm _ _
  · exact sameText_comm _ _

/-! Keys. -/

/-- The identities that go by a key. For plugins there is none, as a group that is missing could be any. -/
def Identity.keyed : List Identity :=
  [.dependency, .embedded, .profile, .property, .module]

/-- A text as a key, if it is not empty. -/
def keyOfText (text : String) : Option (List String) :=
  if text.isEmpty then none else some [text]

/-- What an entry is known by under an identity that goes by a key, if it has all that belongs to it. -/
def Identity.key? : Identity → Element → Option (List String)
  | .dependency, e | .embedded, e =>
    (e.childText? "groupId").bind fun group =>
      (e.childText? "artifactId").map fun artifact => [group, artifact]
  | .profile, e => (e.childText? "id").map fun id => [id]
  | .property, e => keyOfText e.name
  | .module, e => keyOfText (Text.strip e.text)
  | .plugin, _ | .artifactIn _, _ => none

theorem sameField_iff {a b : Option String} : sameField a b = true ↔ ∃ v, a = some v ∧ b = some v := by
  rw [sameField, Bool.and_eq_true, beq_iff_eq, Option.isSome_iff_exists]
  constructor
  · rintro ⟨⟨v, rfl⟩, rfl⟩
    exact ⟨v, rfl, rfl⟩
  · rintro ⟨v, rfl, rfl⟩
    exact ⟨⟨v, rfl⟩, rfl⟩

theorem sameText_iff {a b : String} :
    (!a.isEmpty && a == b) = true ↔ ∃ k, keyOfText a = some k ∧ keyOfText b = some k := by
  rw [keyOfText, keyOfText, Bool.and_eq_true, Bool.not_eq_true', beq_iff_eq]
  constructor
  · rintro ⟨ha, rfl⟩
    exact ⟨[a], by rw [ha]; rfl, by rw [ha]; rfl⟩
  · rintro ⟨k, ha, hb⟩
    split at ha
    · cases ha
    · next hempty =>
      cases ha
      split at hb
      · cases hb
      · exact ⟨by simpa using hempty, (List.cons.inj (Option.some.inj hb)).1.symm⟩

theorem sameCoordinates_iff {a b : Element} :
    sameCoordinates a b = true ↔
      ∃ k, Identity.dependency.key? a = some k ∧ Identity.dependency.key? b = some k := by
  rw [sameCoordinates, Bool.and_eq_true, sameField_iff, sameField_iff, Identity.key?, Identity.key?]
  constructor
  · rintro ⟨⟨group, ha, hb⟩, artifact, ha', hb'⟩
    exact ⟨[group, artifact], by rw [ha, ha']; rfl, by rw [hb, hb']; rfl⟩
  · rintro ⟨k, ha, hb⟩
    obtain ⟨group, hgroup, ha⟩ := Option.bind_eq_some_iff.mp ha
    obtain ⟨artifact, hartifact, rfl⟩ := Option.map_eq_some_iff.mp ha
    obtain ⟨group', hgroup', hb⟩ := Option.bind_eq_some_iff.mp hb
    obtain ⟨artifact', hartifact', hkey⟩ := Option.map_eq_some_iff.mp hb
    obtain ⟨rfl, hrest⟩ := List.cons.inj hkey
    obtain ⟨rfl, -⟩ := List.cons.inj hrest
    exact ⟨⟨group', hgroup, hgroup'⟩, artifact', hartifact, hartifact'⟩

/-- Entries are the same exactly if they have the same key. -/
theorem Identity.same_iff_key {identity : Identity} (h : identity ∈ keyed) {a b : Element} :
    identity.same a b = true ↔ ∃ k, identity.key? a = some k ∧ identity.key? b = some k := by
  simp only [keyed, List.mem_cons, List.not_mem_nil, or_false] at h
  rcases h with rfl | rfl | rfl | rfl | rfl
  · exact sameCoordinates_iff
  · exact sameCoordinates_iff
  · rw [same, sameField_iff, key?, key?]
    constructor
    · rintro ⟨v, ha, hb⟩
      exact ⟨[v], by rw [ha]; rfl, by rw [hb]; rfl⟩
    · rintro ⟨k, ha, hb⟩
      obtain ⟨v, hv, rfl⟩ := Option.map_eq_some_iff.mp ha
      obtain ⟨w, hw, hkey⟩ := Option.map_eq_some_iff.mp hb
      exact ⟨v, hv, by rw [hw, (List.cons.inj hkey).1]⟩
  · exact sameText_iff
  · exact sameText_iff

end Manifest
