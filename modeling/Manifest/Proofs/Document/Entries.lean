import Manifest.Proofs.Xml.Wrapped

/-! Entries side by side. Texts of entries are put into one element before they are read; two of them make
one text, which holds the entries of both. -/

set_option autoImplicit false

namespace Manifest

open Text (unifyLineEnds)
open Xml (wrapped HoldsNodes addNodes)

/-! Texts of entries. -/

theorem unifyLineEnds_wrapped (cs : List Char) :
    unifyLineEnds ("<fragment>".toList ++ (cs ++ "</fragment>".toList)) = wrapped (unifyLineEnds cs) := by
  have hstart : '\r' ∉ "<fragment>".toList := by decide
  have hfinish : "</fragment>".toList = '<' :: "/fragment>".toList := by decide
  have hkept : unifyLineEnds "</fragment>".toList = "</fragment>".toList := by decide
  rw [Text.unifyLineEnds_append_of_not_mem hstart, hfinish, Text.unifyLineEnds_append_cons _ (by decide),
    ← hfinish, hkept, Xml.wrapped_eq]

theorem readEntries_eq_ok_iff {text : String} {d : Document} : readEntries text = .ok d ↔
    ∃ contents, Xml.readLines (wrapped (unifyLineEnds text.toList)) = some contents ∧
      d = documentOf contents
        ((namedEncoding? ("<fragment>" ++ text ++ "</fragment>")).getD "UTF-8") := by
  have hchars : ("<fragment>" ++ text ++ "</fragment>").toList =
      "<fragment>".toList ++ (text.toList ++ "</fragment>".toList) := by simp
  have hblank : ("<fragment>" ++ text ++ "</fragment>").toList.all (fun c => isAsciiSpace c.toNat) =
      false := by
    have hstart : "<fragment>".toList.all (fun c => isAsciiSpace c.toNat) = false := by decide
    rw [hchars, List.all_append, hstart, Bool.false_and]
  have hread : Xml.readDocument ("<fragment>" ++ text ++ "</fragment>").toList =
      Xml.readLines (wrapped (unifyLineEnds text.toList)) := by
    have hmark : ("<fragment>".toList ++ (text.toList ++ "</fragment>".toList)).head? ≠
        some Xml.byteOrderMark := by
      have hhead : "<fragment>".toList.head? = some '<' := by decide
      rw [List.head?_append, hhead, Option.some_or]
      decide
    rw [hchars, Xml.readDocument, Xml.dropMark_of_head? hmark, unifyLineEnds_wrapped]
  rw [readEntries, readText, hblank, hread]
  cases Xml.readLines (wrapped (unifyLineEnds text.toList)) with
  | none => simp
  | some contents => simp [eq_comm]

/-- What is read of a text of entries is the element around them, and nothing beside it. -/
theorem nodes_readEntries {text : String} {d : Document} (h : readEntries text = .ok d) :
    ∃ nodes remark, HoldsNodes (unifyLineEnds text.toList) nodes remark ∧ remark ≠ some .fault ∧
      d.nodes = [.element { name := "fragment" } (addNodes nodes []).reverse] := by
  obtain ⟨contents, hcontents, rfl⟩ := readEntries_eq_ok_iff.mp h
  obtain ⟨nodes, remark, hholds, hremark, rfl⟩ := Xml.readLines_wrapped_iff.mp hcontents
  exact ⟨nodes, remark, hholds, hremark, rfl⟩

theorem exists_readEntries {text : String} {es : List Element} (h : entriesOfText text = .ok es) :
    ∃ d, readEntries text = .ok d ∧ d.entries = es := by
  rw [entriesOfText] at h
  cases hread : readEntries text with
  | error e =>
    rw [hread] at h
    cases h
  | ok d =>
    rw [hread] at h
    exact ⟨d, rfl, Except.ok.inj h⟩

theorem entriesOfText_eq_ok_iff {text : String} {es : List Element} : entriesOfText text = .ok es ↔
    ∃ nodes remark, HoldsNodes (unifyLineEnds text.toList) nodes remark ∧ remark ≠ some .fault ∧
      elementsOf nodes = es := by
  have hentries : ∀ {d : Document} {nodes : List Node},
      d.nodes = [.element { name := "fragment" } (addNodes nodes []).reverse] →
      d.entries = elementsOf nodes := by
    intro d nodes hnodes
    have helements := Xml.elementsOf_addNodes nodes []
    rw [Document.entries, Document.root?, hnodes]
    exact helements
  constructor
  · intro h
    obtain ⟨d, hread, rfl⟩ := exists_readEntries h
    obtain ⟨nodes, remark, hholds, hremark, hnodes⟩ := nodes_readEntries hread
    exact ⟨nodes, remark, hholds, hremark, (hentries hnodes).symm⟩
  · rintro ⟨nodes, remark, hholds, hremark, rfl⟩
    have hcontents := Xml.readLines_wrapped_iff.mpr ⟨nodes, remark, hholds, hremark, rfl⟩
    rw [entriesOfText, readEntries_eq_ok_iff.mpr ⟨_, hcontents, rfl⟩]
    exact congrArg Except.ok (hentries rfl)

/--
Entries can be read one text after another: two texts that are read make one that is read as the entries of
both, unless the first one ends with a bracket that could be part of an end mark. No text reaches beyond the
element around it: its own tags match, and there is nothing but that element in the document.
-/
theorem entriesOfText_append :
    (∀ (text text' : String) (es es' : List Element), entriesOfText text = .ok es →
      entriesOfText text' = .ok es' → text.toList.getLast? ≠ some ']' →
        entriesOfText (text ++ text') = .ok (es ++ es')) ∧
      ∀ (text : String) (d : Document), readEntries text = .ok d → ∃ ts children,
        Xml.tokens Xml.noEntities (unifyLineEnds text.toList) = some ts ∧
          Xml.tokens Xml.noEntities (wrapped (unifyLineEnds text.toList)) =
            some (.startTag "fragment".toList [] false :: (ts ++ [.endTag "fragment".toList])) ∧
          Xml.balanced [] ts = true ∧ d.nodes = [.element { name := "fragment" } children] := by
  refine ⟨fun text text' es es' h h' hlast => ?_, fun text d h => ?_⟩
  · rw [entriesOfText_eq_ok_iff] at h h' ⊢
    obtain ⟨nodes, remark, hholds, hremark, rfl⟩ := h
    obtain ⟨nodes', remark', hholds', hremark', rfl⟩ := h'
    have hfair : remark'.or remark ≠ some .fault := by
      cases remark' with
      | none => exact hremark
      | some r => exact hremark'
    have hlast' : (unifyLineEnds text.toList).getLast? ≠ some ']' := fun hend =>
      hlast (Text.getLast?_unifyLineEnds (by decide) hend)
    rw [String.toList_append]
    rcases Text.unifyLineEnds_append text.toList text'.toList with hsplit | ⟨rest, hnewline, hsplit⟩
    · rw [hsplit]
      exact ⟨_, _, hholds.append hholds' hlast', hfair, elementsOf_append nodes nodes'⟩
    · rw [hnewline] at hholds'
      obtain ⟨nodes'', hholds'', helements⟩ := hholds'.of_newline
      rw [hsplit]
      exact ⟨_, _, hholds.append hholds'' hlast', hfair, by rw [elementsOf_append, helements]⟩
  · obtain ⟨nodes, remark, ⟨ts, hts, hread⟩, -, hnodes⟩ := nodes_readEntries h
    refine ⟨ts, _, hts.tokens, (Xml.lexes_wrapped.mpr ⟨ts, hts, rfl⟩).tokens, ?_, hnodes⟩
    have hbalanced := hread.balanced []
    rwa [List.append_nil] at hbalanced

/-- Two texts with a line end across their seam are read as the entries of both. -/
theorem entriesOfText_append_lineEnd :
    ∃ es es' d, entriesOfText "<!-- x --><a/>\r" = .ok es ∧ entriesOfText "\n<b k='1'><c/></b>" = .ok es' ∧
      entriesOfText ("<!-- x --><a/>\r" ++ "\n<b k='1'><c/></b>") = .ok (es ++ es') ∧
      (es ++ es').map (·.name) = ["a", "b"] ∧ readEntries "<!-- x --><a/>\r" = .ok d ∧
      ∃ children, d.nodes = [.element { name := "fragment" } children] := by
  have hread : ∀ {text : String} {names : List String},
      (entriesOfText text).toOption.map (·.map (·.name)) = some names →
      ∃ es, entriesOfText text = .ok es ∧ es.map (·.name) = names := by
    intro text names h
    cases hes : entriesOfText text with
    | error e =>
      rw [hes] at h
      cases h
    | ok es =>
      rw [hes] at h
      exact ⟨es, rfl, Option.some.inj h⟩
  obtain ⟨es, hes, hnames⟩ := @hread "<!-- x --><a/>\r" ["a"] (by decide +kernel)
  obtain ⟨es', hes', hnames'⟩ := @hread "\n<b k='1'><c/></b>" ["b"] (by decide +kernel)
  obtain ⟨d, hd, -⟩ := exists_readEntries hes
  obtain ⟨ts, children, -, -, -, hnodes⟩ := entriesOfText_append.2 _ d hd
  exact ⟨es, es', d, hes, hes', entriesOfText_append.1 _ _ es es' hes hes' (by decide +kernel),
    by rw [List.map_append, hnames, hnames']; rfl, hd, children, hnodes⟩

end Manifest
