import Manifest.Proofs.Traversal
import Manifest.Yaml.Value

/-!
Tables of settings texts. What is put under a key is found under it, and what stands under other keys stays. In
a table that a text gives, every key that is text stands once.
-/

set_option autoImplicit false

namespace Manifest.Yaml

namespace Value

theorem fraction?_text (s : String) : fraction? (.text s) = none :=
  rfl

theorem sameKey_text_iff {k : Value} {key : String} : k.sameKey (.text key) = true ↔ k = .text key := by
  cases k with
  | text s => simp only [sameKey, beq_iff_eq, text.injEq]
  | decimal negative mantissa exponent =>
    simp only [sameKey, fraction?_text, reduceCtorEq]
    cases (decimal negative mantissa exponent).fraction? <;> simp
  | _ => simp [sameKey, fraction?]

theorem text_sameKey_iff {k : Value} {key : String} :
    (Value.text key).sameKey k = true ↔ k = .text key := by
  cases k with
  | text s =>
    simp only [sameKey, beq_iff_eq, text.injEq]
    exact eq_comm
  | _ => simp [sameKey, fraction?]

instance (k : Value) (key : String) : Decidable (k = .text key) :=
  decidable_of_iff _ sameKey_text_iff

end Value

/-! ### What is found under a key -/

namespace Entries

@[simp] theorem get?_nil (key : String) : Entries.get? [] key = none :=
  rfl

theorem get?_cons (k v : Value) (rest : Entries) (key : String) :
    Entries.get? ((k, v) :: rest) key = if k = .text key then some v else Entries.get? rest key := by
  rw [get?, List.find?_cons]
  split
  case h_1 h => rw [if_pos (Value.sameKey_text_iff.mp h), Option.map_some]
  case h_2 h =>
    rw [if_neg fun hk => Bool.false_ne_true (h.symm.trans (Value.sameKey_text_iff.mpr hk))]
    rfl

theorem get?_append (a b : Entries) (key : String) :
    Entries.get? (a ++ b) key = (Entries.get? a key).or (Entries.get? b key) := by
  induction a with
  | nil => rfl
  | cons entry rest ih =>
    obtain ⟨k, v⟩ := entry
    rw [List.cons_append, get?_cons, get?_cons, ih]
    split <;> rfl

theorem get?_eq_none_iff {entries : Entries} {key : String} :
    Entries.get? entries key = none ↔ ∀ e ∈ entries, e.1 ≠ .text key := by
  simp [get?, List.find?_eq_none, Value.sameKey_text_iff]

/-- What is found where the values under a key have been replaced. -/
theorem get?_map_replace (entries : Entries) (k v : Value) (key : String) :
    Entries.get? (entries.map fun (k', v') => (k', if k'.sameKey k then v else v')) key =
      (Entries.get? entries key).map fun v' => if k = .text key then v else v' := by
  induction entries with
  | nil => rfl
  | cons entry rest ih =>
    obtain ⟨k', v'⟩ := entry
    rw [List.map_cons, get?_cons, get?_cons, ih]
    by_cases h : k' = .text key
    · rw [if_pos h, if_pos h, Option.map_some, h]
      simp only [Value.text_sameKey_iff]
    · rw [if_neg h, if_neg h]

theorem put_eq (entries : Entries) (k v : Value) :
    entries.put k v =
      if entries.any fun e => e.1.sameKey k then
        entries.map fun (k', v') => (k', if k'.sameKey k then v else v')
      else entries ++ [(k, v)] :=
  rfl

theorem any_sameKey_text_iff {entries : Entries} {key : String} :
    (entries.any fun e => e.1.sameKey (.text key)) = true ↔ Entries.get? entries key ≠ none := by
  rw [Ne, get?_eq_none_iff]
  simp [Value.sameKey_text_iff]

theorem get?_put (entries : Entries) (k v : Value) (key : String) :
    Entries.get? (entries.put k v) key = if k = .text key then some v else Entries.get? entries key := by
  rw [put_eq]
  split
  case isTrue hsame =>
    rw [get?_map_replace]
    split
    case isTrue hk =>
      rw [hk, any_sameKey_text_iff] at hsame
      obtain ⟨v', hv'⟩ := Option.ne_none_iff_exists'.mp hsame
      rw [hv', Option.map_some]
    case isFalse => exact Option.map_id'
  case isFalse hno =>
    rw [get?_append, get?_cons, get?_nil]
    split
    case isTrue hk =>
      rw [hk, any_sameKey_text_iff, ne_eq, Decidable.not_not] at hno
      rw [hno, Option.none_or]
    case isFalse => exact Option.or_none

/-- What is found last. -/
theorem get?_reverse_put (entries : Entries) (k v : Value) (key : String) :
    Entries.get? (entries.put k v).reverse key =
      if k = .text key then some v else Entries.get? entries.reverse key := by
  rw [put_eq]
  split
  case isTrue hsame =>
    rw [← List.map_reverse, get?_map_replace]
    split
    case isTrue hk =>
      rw [hk, ← List.any_reverse, any_sameKey_text_iff] at hsame
      obtain ⟨v', hv'⟩ := Option.ne_none_iff_exists'.mp hsame
      rw [hv', Option.map_some]
    case isFalse => exact Option.map_id'
  case isFalse => rw [List.reverse_append, List.reverse_singleton, List.singleton_append, get?_cons]

/-- Under a key stands the last of what is put over it, else what stood there before. -/
theorem get?_overlay (entries others : Entries) (key : String) :
    Entries.get? (entries.overlay others) key =
      (Entries.get? others.reverse key).or (Entries.get? entries key) := by
  -- What is put first lies below the rest, so the start changes with every step.
  induction others generalizing entries with
  | nil => rfl
  | cons e rest ih =>
    obtain ⟨k, v⟩ := e
    have hstep : entries.overlay ((k, v) :: rest) = (entries.put k v).overlay rest := rfl
    rw [hstep, ih, get?_put, List.reverse_cons, get?_append, get?_cons, get?_nil, Option.or_assoc]
    split <;> rfl

/-- Whether no key that is text stands twice with different values. -/
def IsDefinite (entries : Entries) : Prop :=
  ∀ key, Entries.get? entries.reverse key = Entries.get? entries key

theorem isDefinite_nil : IsDefinite [] :=
  fun _ => rfl

theorem IsDefinite.put {entries : Entries} (h : entries.IsDefinite) (k v : Value) :
    (entries.put k v).IsDefinite := by
  intro key
  rw [get?_reverse_put, get?_put, h key]

theorem IsDefinite.overlay {entries : Entries} (h : entries.IsDefinite) (others : Entries) :
    (entries.overlay others).IsDefinite := by
  induction others generalizing entries with
  | nil => exact h
  | cons e rest ih => exact ih (h.put e.1 e.2)

end Entries

/-! ### Tables that a text gives -/

theorem simpleReal_ne_table (negative : Bool) (cs : List Char) (entries : Entries) :
    simpleReal negative cs ≠ .ok (.table entries) := by
  intro h
  simp only [simpleReal] at h
  split at h
  · cases h
  · cases h
  · cases h
  · split at h <;> cases h

theorem real_ne_table (text : String) (entries : Entries) : real text ≠ .ok (.table entries) := by
  intro h
  simp only [real] at h
  split at h
  · cases h
  · split at h
    · cases h
    · split at h
      · cases h
      · split at h
        · exact simpleReal_ne_table _ _ _ h
        · split at h <;> cases h

/-- A scalar is no table. -/
theorem scalarValue_ne_table (kind : Kind) (text : String) (entries : Entries) :
    scalarValue kind text ≠ .ok (.table entries) := by
  intro h
  cases kind with
  | real => exact real_ne_table _ _ h
  | integer =>
    obtain ⟨n, -, hn⟩ := map_eq_ok.mp h
    cases hn
  | date =>
    simp only [scalarValue] at h
    split at h
    · split at h <;> cases h
    · cases h
  | truth | binary =>
    simp only [scalarValue] at h
    split at h <;> cases h
  | _ => cases h

/-- A node that gives a table gives one in which its entries are put one after the other. -/
theorem Node.isDefinite_of_value {depth : Nat} {node : Node} {entries : Entries}
    (h : node.value depth = .ok (.table entries)) : entries.IsDefinite := by
  cases node with
  | scalar kind text => exact absurd (mapError_eq_ok.mp h) (scalarValue_ne_table kind text entries)
  | around anchor => cases h
  | list kind items =>
    cases kind with
    | list | pairs =>
      rw [Node.value] at h
      obtain ⟨_, -, hv⟩ := map_eq_ok.mp h
      cases hv
    | _ => cases h
  | table kind all =>
    cases kind with
    | table =>
      rw [Node.value] at h
      obtain ⟨put, -, hv⟩ := map_eq_ok.mp h
      cases hv
      exact Entries.isDefinite_nil.overlay put
    | set =>
      rw [Node.value] at h
      obtain ⟨_, -, hv⟩ := map_eq_ok.mp h
      cases hv
    | _ =>
      simp only [Node.value] at h
      split at h
      · cases h
      · split at h
        · cases h
        · exact absurd (mapError_eq_ok.mp h) (scalarValue_ne_table _ _ entries)

/-- In a table that a text gives, no key that is text stands twice with different values. -/
theorem isDefinite_of_read {text : String} {entries : Entries} (h : read text = .ok (.table entries)) :
    entries.IsDefinite := by
  rw [read] at h
  cases hnode : Node.read? text.toList with
  | error f =>
    rw [hnode] at h
    cases h
  | ok found =>
    rw [hnode] at h
    cases found with
    | none => cases h
    | some node => exact Node.isDefinite_of_value (mapError_eq_ok.mp h)

end Manifest.Yaml
