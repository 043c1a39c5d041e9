import Manifest.Document.Read
import Manifest.Entry
import Manifest.Proofs.Document.Shape
import Manifest.Proofs.Xml.Contents

/-! Documents that were read, and those made of them by inserting entries. All are ordinary: what they
hold could have been read as it stands. -/

set_option autoImplicit false

namespace Manifest

open Xml (Contents Ordinary)

/-! Where documents and entries come from. -/

/-- Whether a document was read from a text or from stored bytes that hold some contents. -/
inductive Document.HasRead (contents : Contents) : Document → Prop where
  | text {text : String} {source : Option String} {d : Document} :
      readText text source = .ok d → Xml.readDocument text.toList = some contents →
      HasRead contents d
  | bytes {bytes : ByteArray} {source : Option String} {d : Document} :
      readBytes bytes source = .ok d → readStored bytes = some contents → HasRead contents d

theorem exists_contents_of_readBytes {bytes : ByteArray} {source : Option String} {d : Document}
    (h : readBytes bytes source = .ok d) :
    ∃ contents, readStored bytes = some contents ∧ d.HasRead contents := by
  have hread := h
  rw [readBytes] at h
  split at h
  · cases h
  · split at h
    · cases h
    · next contents hcontents => exact ⟨contents, hcontents, .bytes hread hcontents⟩

/-- Whether an entry was made by a builder, under a plain name, or read from markup. -/
inductive Element.IsMade : Element → Prop where
  | leaf (name value : String) : isPlainName name → IsMade (.leaf name value)
  | coordinates (kind group artifact : String) (version : Option String) :
      isPlainName kind → IsMade (.coordinates kind group artifact version)
  | dependency (group artifact : String) (version type scope : Option String) :
      IsMade (.dependency group artifact version type scope)
  | module (path : String) : IsMade (.module path)
  | withVersion (e : Element) (version : String) : e.IsMade → IsMade (e.withVersion version)
  | fragment {text : String} {contents : Contents} {d : Document} {root : Element} :
      readFragment text = .ok d → Xml.readDocument text.toList = some contents →
      contents.withoutSubset → d.root? = some root → IsMade root
  | entry {text : String} {d : Document} {root e : Element} :
      readEntries text = .ok d → d.root? = some root → e ∈ root.elements → IsMade e

/-- Whether some nodes become others when an entry is put among the children of an element in them. -/
inductive Inserted (entry : Element) : List Node → List Node → Prop where
  | here (before after front back : List Node) (tag : Tag) :
      Inserted entry (before ++ .element tag (front ++ back) :: after)
        (before ++ .element tag (front ++ entry.toNode :: back) :: after)
  | within (before after : List Node) (tag : Tag) {children children' : List Node} :
      Inserted entry children children' →
      Inserted entry (before ++ .element tag children :: after)
        (before ++ .element tag children' :: after)

/-- Whether a document was read, or made from one that was read by inserting entries. -/
inductive Document.Assembled (contents : Contents) : Document → Prop where
  | read {d : Document} : d.HasRead contents → Assembled contents d
  | insert {d : Document} {entry : Element} {nodes : List Node} :
      Assembled contents d → entry.IsMade → Inserted entry d.nodes nodes →
      Assembled contents { d with nodes }

/-- An entry that is put among the children of the root is inserted. -/
theorem inserted_withRoot {d : Document} {root : Element} (hroot : d.root? = some root)
    (entry : Element) (index : Nat) :
    Inserted entry d.nodes
      (d.withRoot { root with children := insertNodes [entry.toNode] index root.children }).nodes := by
  have hsplit : ∀ nodes : List Node, (elementsOf nodes).head? = some root → ∀ e : Element,
      ∃ front back, nodes = front ++ root.toNode :: back ∧
        Document.setFirstElement e nodes = front ++ e.toNode :: back := by
    intro nodes
    induction nodes with
    | nil => nofun
    | cons node rest ih =>
      intro h e
      cases node with
      | element tag children =>
        cases h
        exact ⟨[], rest, rfl, rfl⟩
      | _ =>
        obtain ⟨front, back, hnodes, hset⟩ := ih h e
        exact ⟨_ :: front, back, congrArg (List.cons _) hnodes, congrArg (List.cons _) hset⟩
  obtain ⟨front, back, hnodes, hset⟩ := hsplit d.nodes hroot
    { root with children := insertNodes [entry.toNode] index root.children }
  have hhere := @Inserted.here entry front back (root.children.take index)
    (root.children.drop index) root.tag
  rw [List.take_append_drop] at hhere
  rw [Document.withRoot, hset, hnodes]
  exact hhere

/-! What was read is ordinary. -/

theorem ordinaries_readDocument {cs : List Char} {contents : Contents}
    (h : Xml.readDocument cs = some contents) (hsubset : contents.withoutSubset) :
    ordinaries contents.nodes :=
  @Xml.ordinaries_of_readsIn [] nofun contents.nodes (Xml.readsIn_readDocument h)
    (Xml.calmAll_readDocument h hsubset)

/-- A document that was read from text holds what the text holds. -/
theorem readText_eq_ok {text : String} {source : Option String} {d : Document}
    (h : readText text source = .ok d) : ∃ contents, Xml.readDocument text.toList = some contents ∧
      d = documentOf contents ((namedEncoding? text).getD "UTF-8") := by
  rw [readText] at h
  split at h
  · cases h
  · split at h
    · cases h
    · next contents hcontents =>
      cases h
      exact ⟨contents, hcontents, rfl⟩

theorem ordinary_root {cs : List Char} {contents : Contents}
    (h : Xml.readDocument cs = some contents) (hsubset : contents.withoutSubset) {encoding : String}
    {root : Element} (hroot : (documentOf contents encoding).root? = some root) :
    root.toNode.ordinary := by
  have hmem : root ∈ elementsOf contents.nodes := List.mem_of_mem_head? hroot
  obtain ⟨node, hn, he⟩ := List.mem_filterMap.mp hmem
  rw [Element.toNode_of_element? he]
  exact ordinaries_iff.mp (ordinaries_readDocument h hsubset) node hn

/-- What stands inside an element that is put around it has no document type. -/
theorem withoutSubset_of_wrapped {text : String} {contents : Contents}
    (h : Xml.readDocument ("<fragment>" ++ text ++ "</fragment>").toList = some contents) :
    contents.withoutSubset := by
  have hlist : ("<fragment>" ++ text ++ "</fragment>").toList =
      "<fragment>".toList ++ (text.toList ++ "</fragment>".toList) := by
    simp [String.toList_append]
  have hmark : ∀ cs, Xml.dropMark ("<fragment>".toList ++ cs) = "<fragment>".toList ++ cs :=
    fun cs => rfl
  rw [Xml.readDocument, hlist, hmark, Text.unifyLineEnds_append_of_not_mem (by decide)] at h
  generalize Text.unifyLineEnds (text.toList ++ "</fragment>".toList) = rest at h
  have hdeclared : Xml.takeDeclared ("<fragment>".toList ++ rest) =
      some (none, "<fragment>".toList ++ rest) := by
    apply Xml.takeDeclared_eq_none
    intro c cs hcs
    cases hcs
  have hmisc := @Xml.takeMisc_root ("<fragment>".toList ++ rest).length none
    ("<fragment>".toList ++ rest) rfl
  rw [Xml.readLines, Xml.takeProlog, hdeclared] at h
  simp only [Option.bind_eq_bind, Option.bind_some, hmisc, Option.pure_def] at h
  obtain ⟨body, -, h⟩ := Option.bind_eq_some_iff.mp h
  obtain ⟨body', -, h⟩ := Option.bind_eq_some_iff.mp h
  obtain ⟨p, -, h⟩ := Option.bind_eq_some_iff.mp h
  obtain ⟨nodes, -, h⟩ := Option.bind_eq_some_iff.mp h
  cases h
  exact Xml.Contents.withoutSubset_of_doctype_eq_none rfl

/-- Entries are ordinary, however they were made. -/
theorem Element.IsMade.ordinary {e : Element} (h : e.IsMade) : e.toNode.ordinary := by
  induction h with
  | leaf name value hname => exact shape_ordinary.leaf (ordinary_tag_ofName hname) value
  | coordinates kind group artifact version hkind =>
    exact shape_ordinary.coordinates (fun _ => ordinary_tag_ofName) (ordinary_tag_ofName hkind) _ _ _
  | dependency group artifact version type scope =>
    exact shape_ordinary.dependency (fun _ => ordinary_tag_ofName) _ _ _ _ _
  | module path => exact shape_ordinary.leaf (ordinary_tag_ofName (by simp [isPlainName])) path
  | withVersion e version _ ih =>
    exact shape_ordinary.withVersion (ordinary_tag_ofName (by simp [isPlainName])) ih version
  | fragment hread hcontents hsubset hroot =>
    obtain ⟨contents, hcontents', rfl⟩ := readText_eq_ok hread
    rw [hcontents] at hcontents'
    cases hcontents'
    exact ordinary_root hcontents hsubset hroot
  | @entry text d root e hread hroot he =>
    obtain ⟨contents, hcontents, rfl⟩ := readText_eq_ok hread
    have hordinary := ordinary_root hcontents (withoutSubset_of_wrapped hcontents) hroot
    obtain ⟨node, hn, helement⟩ := List.mem_filterMap.mp he
    rw [Element.toNode_of_element? helement]
    exact ordinaries_iff.mp hordinary.2.2 node hn

/-! Documents that were assembled. -/

theorem Inserted.ordinaries {entry : Element} (he : entry.toNode.ordinary) {nodes nodes' : List Node}
    (h : Inserted entry nodes nodes') (hn : ordinaries nodes) : ordinaries nodes' := by
  induction h with
  | here before after front back tag =>
    obtain ⟨hbefore, ⟨htag, ha, hc⟩, hafter⟩ := ordinaries_append.mp hn
    obtain ⟨hfront, hback⟩ := ordinaries_append.mp hc
    exact ordinaries_append.mpr ⟨hbefore, ⟨htag, apart_insert (isText_toNode entry) ha,
      ordinaries_append.mpr ⟨hfront, he, hback⟩⟩, hafter⟩
  | @within before after tag children children' hinner ih =>
    obtain ⟨hbefore, ⟨htag, ha, hc⟩, hafter⟩ := ordinaries_append.mp hn
    refine ordinaries_append.mpr ⟨hbefore, ⟨htag, ?_, ih hc⟩, hafter⟩
    -- the element below stays where it was
    cases hinner with
    | here =>
      rw [apart_iff_map, List.map_append, List.map_cons] at ha ⊢
      exact ha
    | within =>
      rw [apart_iff_map, List.map_append, List.map_cons] at ha ⊢
      exact ha

/-- The top level stays as it was, but for what is inside the elements. -/
theorem Inserted.toplevel {entry : Element} {nodes nodes' : List Node}
    (h : Inserted entry nodes nodes') :
    nodes'.map Node.isText = nodes.map Node.isText ∧
      (elementsOf nodes').map Element.tag = (elementsOf nodes).map Element.tag := by
  cases h with
  | here before after front back tag => simp [Node.isText]
  | within before after tag hinner => simp [Node.isText]

/-- The declared encoding of a text is a word of letters, digits, dots, dashes and low lines. -/
theorem encodingSetting?_spec {cs name : List Char} (h : encodingSetting? cs = some name) :
    name.all isDeclaredNameChar = true := by
  rw [encodingSetting?] at h
  obtain ⟨cs₁, -, h⟩ := Option.bind_eq_some_iff.mp h
  obtain ⟨cs₂, -, h⟩ := Option.bind_eq_some_iff.mp h
  split at h
  · dsimp only at h
    split at h
    · cases h
      exact List.all_takeWhile
    · cases h
  · cases h

theorem findEncodingSetting_spec {before : Char} {cs name : List Char}
    (h : findEncodingSetting before cs = some name) : name.all isDeclaredNameChar = true := by
  induction cs generalizing before with
  | nil => cases h
  | cons c cs ih =>
    rw [findEncodingSetting] at h
    split at h
    · next found hfound =>
      cases h
      split at hfound
      · cases hfound
      · exact encodingSetting?_spec hfound
    · split at h
      · cases h
      · exact ih h

theorem namedEncoding?_spec {text name : String} (h : namedEncoding? text = some name) :
    name.toList.all isDeclaredNameChar = true := by
  rw [namedEncoding?] at h
  obtain ⟨cs, -, h⟩ := Option.bind_eq_some_iff.mp h
  obtain ⟨found, hfound, h⟩ := Option.bind_eq_some_iff.mp h
  cases h
  rw [String.toList_ofList]
  exact findEncodingSetting_spec hfound

/-- The names of encodings that documents have. -/
def isEncodingWord (name : String) : Prop :=
  name.toList.all isDeclaredNameChar = true

/-- What holds of a document that was assembled. -/
structure Document.IsOrdinary (d : Document) (contents : Contents) : Prop where
  ordinary : ordinaries d.nodes
  noText : ∀ node ∈ d.nodes, node.isText = false
  oneRoot : ∃ root, elementsOf d.nodes = [root] ∧
    d.doctype = contents.doctype.map (·.render root.name)
  quotable : ∀ type ∈ contents.doctype, type.id.Quotable
  encoding : isEncodingWord d.encoding

theorem isEncodingWord_of_isEncodingName {name : List Char} (h : Xml.isEncodingName name = true) :
    isEncodingWord (String.ofList name) := by
  have hchar : ∀ c : Char, (c.isAlpha || c.isDigit || c == '.' || c == '_' || c == '-') = true →
      isDeclaredNameChar c = true := fun c hc => hc
  cases name with
  | nil => cases h
  | cons c cs =>
    rw [Xml.isEncodingName, Bool.and_eq_true] at h
    rw [isEncodingWord, String.toList_ofList, List.all_cons, Bool.and_eq_true]
    refine ⟨hchar c (by simp [h.1]), ?_⟩
    rw [List.all_eq_true]
    exact fun d hd => hchar d (List.all_eq_true.mp h.2 d hd)

theorem isOrdinary_documentOf {cs : List Char} {contents : Contents}
    (h : Xml.readDocument cs = some contents) (hcalm : calmAll contents.nodes) {encoding : String}
    (hencoding : isEncodingWord encoding) :
    (documentOf contents encoding).IsOrdinary contents := by
  obtain ⟨hno, root, hroot⟩ := Xml.rooted_readDocument h
  obtain ⟨-, hquotable⟩ := Xml.readLines_front (Text.not_mem_unifyLineEnds _) h
  refine ⟨@Xml.ordinaries_of_readsIn [] nofun _ (Xml.readsIn_readDocument h) hcalm, hno,
    ⟨root, hroot, ?_⟩, hquotable, hencoding⟩
  rw [documentOf]
  dsimp only
  rw [hroot]
  rfl

/-- What was read of a text or of stored bytes, and under which name of an encoding. -/
theorem Document.HasRead.documentOf_eq {contents : Contents} {d : Document}
    (h : d.HasRead contents) :
    ∃ cs encoding, Xml.readDocument cs = some contents ∧ isEncodingWord encoding ∧
      d = documentOf contents encoding := by
  cases h with
  | @text text source _ hread hcontents =>
    obtain ⟨contents', hcontents', rfl⟩ := readText_eq_ok hread
    rw [hcontents] at hcontents'
    cases hcontents'
    refine ⟨_, _, hcontents, ?_, rfl⟩
    cases hname : namedEncoding? text with
    | none => simp +decide [isEncodingWord]
    | some name => exact namedEncoding?_spec hname
  | @bytes bytes source _ hread hcontents =>
    rw [readBytes] at hread
    split at hread
    · cases hread
    · rw [hcontents] at hread
      cases hread
      rw [readStored] at hcontents
      obtain ⟨text, -, hcontents⟩ := Option.bind_eq_some_iff.mp hcontents
      refine ⟨_, _, hcontents, ?_, rfl⟩
      obtain ⟨hname, -⟩ := Xml.readLines_front (Text.not_mem_unifyLineEnds _) hcontents
      cases hd : contents.declaration.bind (·.encoding) with
      | none => simp +decide [isEncodingWord]
      | some name =>
        obtain ⟨declaration, hdeclaration, hencoding⟩ := Option.bind_eq_some_iff.mp hd
        exact isEncodingWord_of_isEncodingName (hname declaration hdeclaration name hencoding)

theorem Document.HasRead.readsIn {contents : Contents} {d : Document} (h : d.HasRead contents) :
    Manifest.readsIn [] d.nodes := by
  obtain ⟨cs, encoding, hcontents, -, rfl⟩ := h.documentOf_eq
  exact Xml.readsIn_readDocument hcontents

/-- No document that was read is nested too deeply to be read. -/
theorem Document.HasRead.depth_le {d : Document} {contents : Contents} (h : d.HasRead contents) :
    depthOf d.nodes ≤ Xml.maxDepth := by
  obtain ⟨cs, encoding, hcontents, -, rfl⟩ := h.documentOf_eq
  exact Xml.depthOf_readDocument hcontents

/-- A document that was read is ordinary, unless an entity brought other line ends into it. -/
theorem Document.HasRead.isOrdinary_of_calm {contents : Contents} {d : Document}
    (h : d.HasRead contents) (hcalm : calmAll d.nodes) : d.IsOrdinary contents := by
  obtain ⟨cs, encoding, hcontents, hencoding, rfl⟩ := h.documentOf_eq
  exact isOrdinary_documentOf hcontents hcalm hencoding

/-- Without an internal subset there is no such entity. -/
theorem Document.HasRead.calm {contents : Contents} {d : Document} (h : d.HasRead contents)
    (hsubset : contents.withoutSubset) : calmAll d.nodes := by
  obtain ⟨cs, encoding, hcontents, -, rfl⟩ := h.documentOf_eq
  exact Xml.calmAll_readDocument hcontents hsubset

/-- A document that was read is ordinary. -/
theorem Document.HasRead.isOrdinary {contents : Contents} {d : Document} (h : d.HasRead contents)
    (hsubset : contents.withoutSubset) : d.IsOrdinary contents :=
  h.isOrdinary_of_calm (h.calm hsubset)

/-- A document stays ordinary when entries are inserted. -/
theorem Document.Assembled.isOrdinary {contents : Contents} {d : Document}
    (h : d.Assembled contents) (hsubset : contents.withoutSubset) : d.IsOrdinary contents := by
  induction h with
  | read hread => exact hread.isOrdinary hsubset
  | @insert d entry nodes _ hmade hinserted ih =>
    obtain ⟨htext, htags⟩ := hinserted.toplevel
    obtain ⟨root, hroot, hdoctype⟩ := ih.oneRoot
    refine ⟨hinserted.ordinaries hmade.ordinary ih.ordinary, ?_, ?_, ih.quotable, ih.encoding⟩
    · have hall : ∀ t ∈ nodes.map Node.isText, t = false := by
        rw [htext]
        intro t ht
        obtain ⟨node, hn, rfl⟩ := List.mem_map.mp ht
        exact ih.noText node hn
      exact fun node hn => hall _ (List.mem_map_of_mem hn)
    · rw [hroot, List.map_singleton] at htags
      obtain ⟨root', hroot', htag⟩ := List.map_eq_singleton_iff.mp htags
      refine ⟨root', hroot', ?_⟩
      rw [Element.name, htag]
      exact hdoctype

end Manifest
