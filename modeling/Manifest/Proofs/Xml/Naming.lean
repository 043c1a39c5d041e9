import Manifest.Proofs.Xml.Scan
import Manifest.Xml.Qualify
import Mathlib.Data.List.Nodup
import Mathlib.Data.List.Perm.Subperm
import Std.Data.String.ToNat

/-! Choosing prefixes. A binding that is used for a namespace is in force at its tag, whether it was
found or made up; a prefix that is made up is in nothing's way. -/

set_option autoImplicit false

namespace Manifest.Xml

/-! What prefixes stand for. -/

theorem stands?_append (a b : Scope) (pfx : Option String) :
    Scope.stands? (a ++ b) pfx =
      if (a.uri? pfx).isSome || pfx == some "xml" then a.stands? pfx else b.stands? pfx := by
  rw [Scope.stands?, Scope.stands?, Scope.stands?]
  cases hx : pfx == some "xml" with
  | true => simp
  | false =>
    simp only [Bool.false_eq_true, if_false, Bool.or_false]
    rw [Scope.uri?, List.find?_append, Scope.uri?]
    cases List.find? (fun b => b.pfx == pfx) a with
    | none => simp [Scope.uri?]
    | some x => simp

theorem uri?_eq_none_iff {scope : Scope} {pfx : Option String} :
    scope.uri? pfx = none ↔ ∀ b ∈ scope, b.pfx ≠ pfx := by
  rw [Scope.uri?, Option.map_eq_none_iff, List.find?_eq_none]
  simp

theorem stands?_eq_uri? {scope : Scope} {pfx : Option String} (h : pfx ≠ some "xml") :
    scope.stands? pfx = scope.uri? pfx := by
  rw [Scope.stands?, if_neg (by simpa using h)]

theorem stands?_xml (scope : Scope) : scope.stands? (some "xml") = some xmlUri := rfl

theorem stands?_cons {b : Binding} (hb : b.pfx ≠ some "xml") (scope : Scope) (pfx : Option String) :
    Scope.stands? (b :: scope) pfx = if b.pfx = pfx then some b.uri else scope.stands? pfx := by
  by_cases hx : pfx = some "xml"
  · rw [hx, stands?_xml, stands?_xml, if_neg hb]
  · rw [stands?_eq_uri? hx, stands?_eq_uri? hx, Scope.uri?, List.find?_cons]
    by_cases hp : b.pfx = pfx
    · simp [hp]
    · rw [beq_false_of_ne hp, if_neg hp]
      rfl

theorem mem_of_uri? {scope : Scope} {pfx : Option String} {uri : String}
    (h : scope.uri? pfx = some uri) : (⟨pfx, uri⟩ : Binding) ∈ scope := by
  rw [Scope.uri?, Option.map_eq_some_iff] at h
  obtain ⟨b, hfind, rfl⟩ := h
  have hpfx : b.pfx = pfx := by simpa using List.find?_some hfind
  rw [← hpfx]
  exact List.mem_of_find?_eq_some hfind

/-- Where no prefix is declared twice, every declaration is the one for its prefix. -/
theorem uri?_of_mem {bindings : List Binding} (hdistinct : (bindings.map Binding.pfx).Nodup)
    {b : Binding} (hb : b ∈ bindings) : Scope.uri? bindings b.pfx = some b.uri := by
  obtain ⟨front, back, rfl⟩ := List.append_of_mem hb
  rw [List.map_append, List.nodup_append] at hdistinct
  rw [Scope.uri?, List.find?_append, List.find?_eq_none.mpr, Option.none_or,
    List.find?_cons_of_pos (by simp)]
  · rfl
  · intro x hx hp
    rw [beq_iff_eq] at hp
    exact hdistinct.2.2 x.pfx (List.mem_map_of_mem hx) b.pfx (by simp) hp

/-- The reserved binding, which is in force everywhere. -/
def xmlBinding : Binding := ⟨some "xml", xmlUri⟩

/-- A binding that is found for a namespace is in force. -/
theorem binding?_eq_some {scope : Scope} {uri : String} {needsPrefix : Bool} {b : Binding}
    (h : scope.binding? uri needsPrefix = some b) :
    b.uri = uri ∧ (needsPrefix = true → b.pfx.isSome = true) ∧ scope.stands? b.pfx = some uri ∧
      (b ∈ scope ∨ b = xmlBinding) := by
  rw [Scope.binding?] at h
  split at h
  · next hx =>
    rw [beq_iff_eq] at hx
    cases h
    exact ⟨rfl, fun _ => rfl, by rw [hx]; rfl, Or.inr (by rw [xmlBinding, hx])⟩
  · have hmem := List.mem_of_find?_eq_some h
    have hcond := List.find?_some h
    simp only [Bool.and_eq_true, beq_iff_eq, Bool.not_eq_true', Bool.and_eq_false_iff] at hcond
    obtain ⟨⟨huri, hneeded⟩, hstands⟩ := hcond
    refine ⟨huri, fun hn => ?_, hstands, Or.inl hmem⟩
    rcases hneeded with hneeded | hneeded
    · rw [hn] at hneeded
      cases hneeded
    · cases hp : b.pfx with
      | none => simp [hp] at hneeded
      | some p => rfl

/-- If no binding is found for a namespace, none of those in force would do. -/
theorem binding?_eq_none {scope : Scope} {uri : String} {needsPrefix : Bool}
    (h : scope.binding? uri needsPrefix = none) :
    uri ≠ xmlUri ∧ ∀ pfx, (needsPrefix = true → pfx.isSome = true) → scope.stands? pfx ≠ some uri := by
  rw [Scope.binding?] at h
  split at h
  · cases h
  · next hx =>
    have hne : uri ≠ xmlUri := by simpa using hx
    refine ⟨hne, fun pfx hpfx hstands => ?_⟩
    rw [List.find?_eq_none] at h
    by_cases hxml : pfx = some "xml"
    · rw [hxml, stands?_xml, Option.some.injEq] at hstands
      exact hne hstands.symm
    · have huri := hstands
      rw [stands?_eq_uri? hxml, Scope.uri?, Option.map_eq_some_iff] at huri
      obtain ⟨b, hfind, hb⟩ := huri
      have hmem := List.mem_of_find?_eq_some hfind
      have hp : b.pfx = pfx := by simpa using List.find?_some hfind
      apply h b hmem
      rw [hp, hstands, hb]
      cases needsPrefix with
      | false => simp
      | true =>
        have := hpfx rfl
        cases pfx <;> simp_all

/-! Made-up prefixes. -/

theorem numberedPrefix_injective {m n : Nat} (h : numberedPrefix m = numberedPrefix n) : m = n := by
  rw [numberedPrefix, numberedPrefix, String.append_right_inj] at h
  exact Nat.repr_injective h

theorem isLocalName_numberedPrefix (n : Nat) : isLocalName (numberedPrefix n).toList = true := by
  have hdigit : ∀ c : Char, c.isDigit = true → isNameChar c = true := by
    intro c hc
    rw [isNameChar, nameFollowers, Text.Ranges.has]
    simp only [Char.isDigit, Bool.and_eq_true, decide_eq_true_eq, ge_iff_le, UInt32.le_iff_toNat_le] at hc
    have h1 : 48 ≤ c.toNat := hc.1
    have h2 : c.toNat ≤ 57 := hc.2
    simp [h1, h2]
  have hall : (toString n).toList.all isNameChar = true := by
    rw [List.all_eq_true]
    intro c hc
    apply hdigit
    rw [Nat.toString_eq_repr, Nat.repr, String.toList_ofList] at hc
    exact Nat.isDigit_of_mem_toDigits (by decide) (by decide) hc
  have hns : "ns".toList = ['n', 's'] := rfl
  rw [numberedPrefix, String.toList_append, hns, List.cons_append, List.cons_append, List.nil_append,
    isLocalName, List.all_cons, hall]
  decide

theorem freeNumber_spec (scope : Scope) (fuel n : Nat) :
    ∃ j ≤ fuel, freeNumber scope fuel n = n + j ∧
      (∀ i < j, (scope.uri? (some (numberedPrefix (n + i)))).isSome = true) ∧
      (j < fuel → scope.uri? (some (numberedPrefix (n + j))) = none) := by
  induction fuel generalizing n with
  | zero => exact ⟨0, Nat.le_refl 0, rfl, nofun, nofun⟩
  | succ fuel ih =>
    rw [freeNumber]
    cases hn : (scope.uri? (some (numberedPrefix n))).isSome with
    | false =>
      refine ⟨0, Nat.zero_le _, by simp, nofun, fun _ => ?_⟩
      simpa using hn
    | true =>
      obtain ⟨j, hj, heq, hbelow, hfree⟩ := ih (n + 1)
      refine ⟨j + 1, by omega, ?_, ?_, ?_⟩
      · rw [if_pos rfl, heq]
        omega
      · intro i hi
        cases i with
        | zero => exact hn
        | succ i =>
          have hb := hbelow i (by omega)
          rwa [show n + 1 + i = n + (i + 1) by omega] at hb
      · intro hlt
        have hf := hfree (by omega)
        rwa [show n + 1 + j = n + (j + 1) by omega] at hf

/-- Among more numbers than there are bindings one is free. -/
theorem uri?_freeNumber (scope : Scope) (n : Nat) :
    scope.uri? (some (numberedPrefix (freeNumber scope (scope.length + 1) n))) = none := by
  obtain ⟨j, hj, heq, hbelow, hfree⟩ := freeNumber_spec scope (scope.length + 1) n
  rw [heq]
  by_cases hlt : j < scope.length + 1
  · exact hfree hlt
  · exfalso
    have hall : ∀ i < scope.length + 1,
        some (numberedPrefix (n + i)) ∈ scope.map Binding.pfx := by
      intro i hi
      have hsome := hbelow i (by omega)
      obtain ⟨uri, huri⟩ := Option.isSome_iff_exists.mp hsome
      rw [Scope.uri?, Option.map_eq_some_iff] at huri
      obtain ⟨b, hfind, -⟩ := huri
      rw [List.mem_map]
      exact ⟨b, List.mem_of_find?_eq_some hfind, by simpa using List.find?_some hfind⟩
    have hnodup : ((List.range (scope.length + 1)).map
        fun i => some (numberedPrefix (n + i))).Nodup := by
      apply List.Nodup.map _ List.nodup_range
      intro a b hab
      have := numberedPrefix_injective (Option.some.inj hab)
      omega
    have hsub : ((List.range (scope.length + 1)).map fun i => some (numberedPrefix (n + i))) ⊆
        scope.map Binding.pfx := by
      intro x hx
      rw [List.mem_map] at hx
      obtain ⟨i, hi, rfl⟩ := hx
      exact hall i (List.mem_range.mp hi)
    have hle := (List.subperm_of_subset hnodup hsub).length_le
    simp only [List.length_map, List.length_range] at hle
    omega

theorem isLocalName_customary {uri pfx : String} (h : customaryPrefixes.lookup uri = some pfx) :
    isLocalName pfx.toList = true := by
  have hall : ∀ x ∈ customaryPrefixes, isLocalName x.2.toList = true := by decide
  have hmem : ∀ xs : List (String × String), xs.lookup uri = some pfx → (uri, pfx) ∈ xs := by
    intro xs hxs
    induction xs with
    | nil => cases hxs
    | cons x xs ih =>
      rw [List.lookup_cons] at hxs
      cases hx : uri == x.1 with
      | true =>
        rw [hx] at hxs
        rw [beq_iff_eq] at hx
        cases hxs
        rw [hx]
        simp
      | false =>
        rw [hx] at hxs
        exact .tail x (ih hxs)
  exact hall _ (hmem _ h)

/-- A prefix that is made up is a name, and nothing has it yet. Numbers are only counted up. -/
theorem newPrefix_spec (scope : Scope) (n : Nat) (uri : String) :
    isLocalName (newPrefix scope n uri).1.toList = true ∧
      scope.stands? (some (newPrefix scope n uri).1) = none ∧ n ≤ (newPrefix scope n uri).2 ∧
      ((newPrefix scope n uri).2 = n → ∀ k, newPrefix scope k uri = ((newPrefix scope n uri).1, k)) := by
  rw [newPrefix]
  cases hc : (customaryPrefixes.lookup uri).filter fun pfx => (scope.stands? (some pfx)).isNone with
  | some pfx =>
    obtain ⟨hlookup, hnone⟩ := Option.filter_eq_some_iff.mp hc
    refine ⟨isLocalName_customary hlookup, by simpa using hnone, Nat.le_refl n, fun _ k => ?_⟩
    rw [newPrefix, hc]
  | none =>
    obtain ⟨j, -, heq, -⟩ := freeNumber_spec scope (scope.length + 1) n
    have hfree := uri?_freeNumber scope n
    refine ⟨isLocalName_numberedPrefix _, ?_, ?_, ?_⟩
    · rw [stands?_eq_uri?]
      · exact hfree
      · intro hxml
        have hlist := congrArg (fun s : String => s.toList.head?) (Option.some.inj hxml)
        simp only [numberedPrefix, String.toList_append] at hlist
        revert hlist
        simp
    · simp only
      omega
    · intro hsame
      exfalso
      simp only at hsame
      omega

end Manifest.Xml
