import Manifest.Document.Read

/-! Results of reading. Documents that were read have a root. -/

set_option autoImplicit false

namespace Manifest

theorem ok_bind_iff {ε α β : Type} {x : Except ε α} {f : α → Except ε β} {b : β} :
    (x >>= f) = .ok b ↔ ∃ a, x = .ok a ∧ f a = .ok b := by
  cases x with
  | error e => exact ⟨nofun, fun ⟨a, h, _⟩ => nomatch h⟩
  | ok a => exact ⟨fun h => ⟨a, rfl, h⟩, fun ⟨_, h, h'⟩ => by cases h; exact h'⟩

theorem eq_ok_getD {ε α : Type} (r : Except ε α) (default : α) (h : r.toOption.isSome = true) :
    r = .ok (r.toOption.getD default) := by
  cases r with
  | error e => cases h
  | ok a => rfl

theorem getD_of_eq_ok {ε α : Type} {r : Except ε α} {a : α} (h : r = .ok a) (default : α) :
    r.toOption.getD default = a := by
  rw [h]
  rfl

/-! What is read of characters. A text that is given is taken for its characters first, so that they are not
looked up in its bytes whenever it is read. -/

/-- The encoding that the beginning of some characters names. -/
def namedIn? (cs : List Char) : Option String := do
  let cs ← Xml.skipWord "<?xml".toList (cs.dropWhile Text.isBlank)
  let name ← findEncodingSetting 'l' cs
  return String.ofList name

theorem namedEncoding?_ofList (cs : List Char) : namedEncoding? (String.ofList cs) = namedIn? cs := by
  rw [namedEncoding?, @String.toList_ofList cs, namedIn?]

/-- What is read of some characters. -/
def readChars (cs : List Char) (source : Option String) : Except ReadError Document :=
  if cs.all fun c => isAsciiSpace c.toNat then .error (.empty source)
  else match Xml.readDocument cs with
    | none => .error (.malformed source)
    | some contents => .ok (documentOf contents ((namedIn? cs).getD "UTF-8"))

theorem readText_ofList (cs : List Char) (source : Option String) :
    readText (String.ofList cs) source = readChars cs source := by
  rw [readText, namedEncoding?_ofList, @String.toList_ofList cs]
  rfl

theorem isSome_head?_elementsOf {nodes : List Node} (h : nodes.any Node.isElement = true) :
    (elementsOf nodes).head?.isSome = true := by
  obtain ⟨node, hmem, helement⟩ := List.any_eq_true.mp h
  cases node with
  | element tag children =>
    have hin : (⟨tag, children⟩ : Element) ∈ elementsOf nodes :=
      List.mem_filterMap.mpr ⟨_, hmem, rfl⟩
    cases hn : elementsOf nodes with
    | nil =>
      rw [hn] at hin
      cases hin
    | cons e rest => rfl
  | _ => cases helement

theorem isSome_root?_of_readDocument {cs : List Char} {contents : Xml.Contents}
    (h : Xml.readDocument cs = some contents) (encoding : String) :
    (documentOf contents encoding).root?.isSome = true := by
  simp only [Xml.readDocument, Xml.readLines, Option.bind_eq_bind, Option.bind_eq_some_iff,
    Option.pure_def, Option.some.injEq] at h
  obtain ⟨prolog, -, body, -, body', -, p, -, nodes, hfinish, rfl⟩ := h
  rw [Xml.Progress.finish] at hfinish
  split at hfinish
  · next hcond =>
    cases hfinish
    simp only [Bool.and_eq_true] at hcond
    have hany : p.done.reverse.any Node.isElement = true := by
      rw [List.any_reverse]
      exact hcond.1.2
    exact isSome_head?_elementsOf hany
  · cases hfinish

/-- A text that can be read has a root. -/
theorem exists_root_of_readText {text : String} {source : Option String} {d : Document}
    (h : readText text source = .ok d) : ∃ root, d.root? = some root := by
  rw [readText] at h
  split at h
  · cases h
  · split at h
    · cases h
    · next contents hcontents =>
      cases h
      exact Option.isSome_iff_exists.mp (isSome_root?_of_readDocument hcontents _)

end Manifest
