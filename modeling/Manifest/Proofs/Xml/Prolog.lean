import Manifest.Document.Write
import Manifest.Proofs.Xml.Reading

/-! What is written in front of a root is read back: the declaration, the document type without its
internal subset, and comments and instructions. -/

set_option autoImplicit false

namespace Manifest.Xml

open Markup (rawAttribute tokensOf soundAll addResolved resolveAll renderAttribute)

theorem dropMark_of_head? {cs : List Char} (h : cs.head? ≠ some byteOrderMark) : dropMark cs = cs := by
  cases cs with
  | nil => rfl
  | cons c cs => exact if_neg fun hc => h (congrArg some (beq_iff_eq.mp hc))

theorem skipWord_eq_some_iff {word cs rest : List Char} :
    skipWord word cs = some rest ↔ cs = word ++ rest := by
  constructor
  · intro h
    induction word generalizing cs with
    | nil => exact Option.some.inj h
    | cons w ws ih =>
      cases cs with
      | nil => cases h
      | cons c cs =>
        rw [skipWord] at h
        split at h
        · next hwc =>
          rw [beq_iff_eq] at hwc
          rw [ih h, hwc, List.cons_append]
        · cases h
  · rintro rfl
    exact skipWord_append word rest

theorem takeQuoted_mark {mark : Char} {cs : List Char} (hmark : mark = '"' ∨ mark = '\'')
    (h : mark ∉ cs) (rest : List Char) :
    takeQuoted (mark :: (cs ++ mark :: rest)) = some (cs, rest) := by
  have hall : ∀ c ∈ cs, (c != mark) = true := by
    intro c hc
    rw [bne_iff_ne]
    rintro rfl
    exact h hc
  have hquote : (mark == '"' || mark == '\'') = true := by simpa using hmark
  rw [takeQuoted]
  simp only [hquote, if_true]
  rw [List.dropWhile_append_of_pos hall, List.takeWhile_append_of_pos hall]
  simp

/-! The declaration. -/

theorem takeSetting_append (keyword : String) (value : List Char) (h : '"' ∉ value)
    (rest : List Char) :
    takeSetting keyword (keyword.toList ++ '=' :: '"' :: (value ++ '"' :: rest)) =
      some (value, rest) := by
  rw [takeSetting, skipWord_append keyword.toList]
  have he : skipEquals ('=' :: '"' :: (value ++ '"' :: rest)) =
      some ('"' :: (value ++ '"' :: rest)) := by
    rw [skipEquals, skipSpace_cons (by decide)]
    simp only [skipWord, beq_self_eq_true, if_true, Option.map_some]
    rw [skipSpace_cons (by decide)]
  simp only [Option.bind_eq_bind, Option.bind_some, he, takeQuoted_mark (Or.inl rfl) h]

/-- What stands in a declaration before the name of the encoding. -/
def declarationFront : List Char :=
  "<?xml".toList ++ ' ' :: ("version".toList ++ '=' :: '"' :: ("1.0".toList ++ '"' :: ' ' ::
    ("encoding".toList ++ ['=', '"'])))

theorem renderDeclaration_append (encoding : String) (rest : List Char) :
    renderDeclaration encoding ++ rest =
      declarationFront ++ (encoding.toList ++ '"' :: '?' :: '>' :: '\n' :: rest) := by
  have hopen : "<?xml version=\"1.0\" encoding=\"".toList = declarationFront := by decide
  have hclose : "\"?>\n".toList = ['"', '?', '>', '\n'] := by decide
  have happend : ∀ front back e : List Char, front = declarationFront →
      back = ['"', '?', '>', '\n'] → (front ++ e ++ back) ++ rest =
        declarationFront ++ (e ++ '"' :: '?' :: '>' :: '\n' :: rest) := by
    rintro _ _ e rfl rfl
    simp only [List.append_assoc, List.cons_append, List.nil_append]
  exact happend _ _ encoding.toList hopen hclose

/-- A written declaration is read back if it is read at all. -/
theorem takeDeclared_renderDeclaration {encoding : String} (h : '"' ∉ encoding.toList)
    (rest : List Char) :
    takeDeclared (renderDeclaration encoding ++ rest) =
      if isEncodingName encoding.toList then
        some (some ⟨"1.0".toList, some encoding.toList⟩, '\n' :: rest)
      else none := by
  have hversion := takeSetting_append "version" "1.0".toList (by decide)
    (' ' :: ("encoding".toList ++ '=' :: '"' :: (encoding.toList ++ '"' :: '?' :: '>' :: '\n' ::
      rest)))
  have hencoding := takeSetting_append "encoding" _ h ('?' :: '>' :: '\n' :: rest)
  have hend : takeStandalone ('?' :: '>' :: '\n' :: rest) = some ('\n' :: rest) := by
    rw [takeStandalone, endXmlDeclaration, skipSpace_cons (by decide)]
    simp [skipWord]
  have hword : ∀ cs, skipWord "<?xml".toList (declarationFront ++ cs) =
      some (' ' :: ("version".toList ++ '=' :: '"' :: ("1.0".toList ++ '"' :: ' ' ::
        ("encoding".toList ++ '=' :: '"' :: cs)))) := by
    intro cs
    rw [skipWord_eq_some_iff, declarationFront]
    simp only [List.append_assoc, List.cons_append, List.nil_append]
  have hskip : ∀ cs, skipSpace ("version".toList ++ cs) = "version".toList ++ cs := fun cs =>
    skipSpace_eq_self (by simp +decide)
  have hskip' : ∀ cs, skipSpace ("encoding".toList ++ cs) = "encoding".toList ++ cs := fun cs =>
    skipSpace_eq_self (by simp +decide)
  rw [renderDeclaration_append, takeDeclared, hword, Option.bind_some, skipSpaces1,
    if_pos (by decide)]
  simp only
  rw [takeXmlDeclaration, hskip, hskip, hversion]
  simp only [Option.bind_eq_bind, Option.bind_some]
  rw [if_neg (by decide), skipSpaces1, if_pos (by decide), hskip', Option.bind_some, hencoding]
  simp only
  split
  · rw [hend]
    rfl
  · rfl

/-- What does not begin with a declaration is read as having none. -/
theorem takeDeclared_eq_none {cs : List Char}
    (h : ∀ c rest, cs = "<?xml".toList ++ c :: rest → isSpace c = false) :
    takeDeclared cs = some (none, cs) := by
  rw [takeDeclared]
  cases hs : skipWord "<?xml".toList cs with
  | none => rfl
  | some rest =>
    rw [Option.bind_some]
    cases rest with
    | nil => rfl
    | cons c rest => rw [skipSpaces1, h c rest (skipWord_eq_some_iff.mp hs)]; rfl

/-! The document type. -/

/-- A system identifier between the quotation marks that it allows. -/
def quotedSystemId (systemId : List Char) : List Char :=
  let mark := if systemId.contains '"' then '\'' else '"'
  mark :: (systemId ++ [mark])

/-- An external identifier as it is written, with the space before it. -/
def ExternalId.written (id : ExternalId) : List Char :=
  let systemId := id.systemId.getD []
  let publicId := id.publicId.getD []
  if publicId.isEmpty then
    if systemId.isEmpty then [] else " SYSTEM ".toList ++ quotedSystemId systemId
  else
    " PUBLIC ".toList ++ '"' :: (publicId ++ '"' ::
      if systemId.isEmpty then [] else ' ' :: quotedSystemId systemId)

theorem toList_quoteSystemId (systemId : List Char) :
    (quoteSystemId (String.ofList systemId)).toList = quotedSystemId systemId := by
  have hc : (String.ofList systemId).contains '"' = systemId.contains '"' := by
    simp [String.contains_char_eq]
  rw [quoteSystemId, quotedSystemId, hc]
  cases systemId.contains '"' <;> simp [String.toList_append]

theorem isEmpty_ofList (cs : List Char) : (String.ofList cs).isEmpty = cs.isEmpty := by
  cases cs <;> simp [String.isEmpty_iff]

theorem toList_render (d : Doctype) (root : String) :
    (d.render root).toList =
      "<!DOCTYPE".toList ++ ' ' :: (root.toList ++ (d.id.written ++ ['>'])) := by
  rw [Doctype.render, ExternalId.written]
  simp only [isEmpty_ofList]
  cases hp : (d.id.publicId.getD []).isEmpty <;> cases hs : (d.id.systemId.getD []).isEmpty <;>
    simp [String.toList_append, toList_quoteSystemId]

/-- An external identifier whose parts can stand between quotation marks. -/
structure ExternalId.Quotable (id : ExternalId) : Prop where
  publicChars : (id.publicId.getD []).all isPublicChar = true
  systemChars : (id.systemId.getD []).all isChar = true
  oneMark : '"' ∉ id.systemId.getD [] ∨ '\'' ∉ id.systemId.getD []
  noReturn : '\r' ∉ id.systemId.getD []

theorem takeSystemLiteral_quotedSystemId {systemId : List Char}
    (hchars : systemId.all isChar = true) (hmark : '"' ∉ systemId ∨ '\'' ∉ systemId)
    (rest : List Char) :
    takeSystemLiteral (quotedSystemId systemId ++ rest) = some (systemId, rest) := by
  have hquoted : takeQuoted (quotedSystemId systemId ++ rest) = some (systemId, rest) := by
    rw [quotedSystemId]
    simp only [List.cons_append, List.append_assoc, List.nil_append]
    cases hc : systemId.contains '"' with
    | true =>
      rw [if_pos rfl]
      refine takeQuoted_mark (Or.inr rfl) ?_ rest
      rcases hmark with hmark | hmark
      · exact absurd (by simpa using hc) hmark
      · exact hmark
    | false =>
      rw [if_neg (by simp)]
      exact takeQuoted_mark (Or.inl rfl) (by simpa using hc) rest
  rw [takeSystemLiteral, hquoted]
  simp only [Option.bind_eq_bind, Option.bind_some, hchars, if_true, Option.pure_def]

theorem skipSpace_quotedSystemId (systemId rest : List Char) :
    skipSpace (quotedSystemId systemId ++ rest) = quotedSystemId systemId ++ rest := by
  apply skipSpace_eq_self
  intro c hc
  rw [quotedSystemId, List.cons_append, List.head?_cons, Option.mem_def, Option.some.injEq] at hc
  rw [← hc]
  split <;> decide

theorem takePublicLiteral_append {publicId : List Char} (h : publicId.all isPublicChar = true)
    (rest : List Char) :
    takePublicLiteral ('"' :: (publicId ++ '"' :: rest)) = some (publicId, rest) := by
  have hno : '"' ∉ publicId := fun hm => absurd (List.all_eq_true.mp h _ hm) (by decide)
  rw [takePublicLiteral, takeQuoted_mark (Or.inl rfl) hno]
  simp only [Option.bind_eq_bind, Option.bind_some, h, if_true, Option.pure_def]

theorem skipSpaces1_quotedSystemId (systemId rest : List Char) :
    skipSpaces1 (' ' :: (quotedSystemId systemId ++ rest)) =
      some (quotedSystemId systemId ++ rest) := by
  rw [skipSpaces1, if_pos (by decide), skipSpace_quotedSystemId]

theorem takeExternalId_system {systemId : List Char} (hchars : systemId.all isChar = true)
    (hmark : '"' ∉ systemId ∨ '\'' ∉ systemId) (rest : List Char) :
    takeExternalId ("SYSTEM".toList ++ ' ' :: (quotedSystemId systemId ++ rest)) =
      some (⟨none, some systemId⟩, rest) := by
  rw [takeExternalId, skipWord_append "SYSTEM".toList]
  simp only [skipSpaces1_quotedSystemId, takeSystemLiteral_quotedSystemId hchars hmark,
    Option.bind_eq_bind, Option.bind_some, Option.pure_def]

/-- A public identifier is read only if a system identifier follows it. -/
theorem takeExternalId_public {publicId : List Char} (h : publicId.all isPublicChar = true)
    (rest : List Char) :
    takeExternalId ("PUBLIC".toList ++ ' ' :: '"' :: (publicId ++ '"' :: rest)) =
      ((skipSpaces1 rest).bind takeSystemLiteral).map fun (systemId, rest) =>
        (⟨some publicId, some systemId⟩, rest) := by
  have hno : ∀ cs, skipWord "SYSTEM".toList ("PUBLIC".toList ++ cs) = none := fun cs => by
    simp +decide [skipWord]
  have hskip : ∀ cs, skipSpaces1 (' ' :: '"' :: cs) = some ('"' :: cs) := fun cs => by
    rw [skipSpaces1, if_pos (by decide), skipSpace_cons (by decide)]
  rw [takeExternalId, hno]
  simp only [skipWord_append "PUBLIC".toList, Option.bind_eq_bind, Option.bind_some, hskip,
    takePublicLiteral_append h, Option.pure_def]
  cases skipSpaces1 rest with
  | none => rfl
  | some cs =>
    simp only [Option.bind_some]
    cases takeSystemLiteral cs <;> rfl

/--
What is read of an external identifier that was written: its parts, unless they are empty. What
follows is left alone if nothing could be read.
-/
theorem takeExternalId_written {id : ExternalId} (h : id.Quotable) (rest : List Char) :
    takeExternalId (skipSpace (id.written ++ '>' :: rest)) =
      if (id.systemId.getD []).isEmpty then none
      else if (id.publicId.getD []).isEmpty then
        some (⟨none, some (id.systemId.getD [])⟩, '>' :: rest)
      else some (⟨some (id.publicId.getD []), some (id.systemId.getD [])⟩, '>' :: rest) := by
  have hblank : ∀ cs, skipSpace (' ' :: 'P' :: cs) = 'P' :: cs := fun cs => by
    simp +decide [skipSpace]
  have hblank' : ∀ cs, skipSpace (' ' :: 'S' :: cs) = 'S' :: cs := fun cs => by
    simp +decide [skipSpace]
  rw [ExternalId.written]
  cases hp : (id.publicId.getD []).isEmpty with
  | true =>
    cases hs : (id.systemId.getD []).isEmpty with
    | true =>
      simp only [if_true, List.nil_append]
      rw [skipSpace_cons (by decide)]
      rfl
    | false =>
      have hsystem := takeExternalId_system h.systemChars h.oneMark ('>' :: rest)
      simp only [if_true, Bool.false_eq_true, if_false, List.append_assoc]
      rw [← hsystem]
      exact congrArg takeExternalId (hblank' _)
  | false =>
    have hpublic := fun more => takeExternalId_public h.publicChars more
    cases hs : (id.systemId.getD []).isEmpty with
    | true =>
      simp only [if_true, Bool.false_eq_true, if_false]
      have hnone : skipSpaces1 ('>' :: rest) = none := rfl
      have hread := hpublic ('>' :: rest)
      rw [hnone] at hread
      rw [← show takeExternalId _ = none from hread]
      simp only [List.append_assoc, List.cons_append, List.nil_append]
      exact congrArg takeExternalId (hblank _)
    | false =>
      have hread := hpublic (' ' :: (quotedSystemId (id.systemId.getD []) ++ '>' :: rest))
      rw [skipSpaces1_quotedSystemId, Option.bind_some,
        takeSystemLiteral_quotedSystemId h.systemChars h.oneMark, Option.map_some] at hread
      simp only [Bool.false_eq_true, if_false]
      rw [← hread]
      simp only [List.append_assoc, List.cons_append]
      exact congrArg takeExternalId (hblank _)

theorem render_congr {d d' : Doctype}
    (hp : d'.id.publicId.getD [] = d.id.publicId.getD [])
    (hs : d'.id.systemId.getD [] = d.id.systemId.getD []) (root : String) :
    d'.render root = d.render root := by
  rw [Doctype.render, Doctype.render, hp, hs]

theorem head?_written (id : ExternalId) (rest : List Char) :
    ∀ c ∈ (id.written ++ '>' :: rest).head?, isRawNameChar c = false := by
  intro c hc
  rw [ExternalId.written] at hc
  split at hc
  · split at hc
    · cases hc
      decide
    · cases hc
      decide
  · cases hc
    decide

/-- Whether an external identifier with a public part has a system part as well. -/
def ExternalId.isComplete (id : ExternalId) : Bool :=
  (id.publicId.getD []).isEmpty || !(id.systemId.getD []).isEmpty

/-- An external identifier without the parts that are empty. -/
def ExternalId.trimmed (id : ExternalId) : ExternalId :=
  if (id.systemId.getD []).isEmpty then {}
  else if (id.publicId.getD []).isEmpty then ⟨none, some (id.systemId.getD [])⟩
  else ⟨some (id.publicId.getD []), some (id.systemId.getD [])⟩

/-- A document type is written as it is without the empty parts of its identifier. -/
theorem render_trimmed {d : Doctype} (h : d.id.isComplete = true) (root : String) :
    ({ id := d.id.trimmed } : Doctype).render root = d.render root := by
  rw [ExternalId.isComplete] at h
  apply render_congr <;> rw [ExternalId.trimmed] <;>
    cases hp : (d.id.publicId.getD []).isEmpty <;> cases hs : (d.id.systemId.getD []).isEmpty <;>
      simp_all

/-- A document type that was written is read again if its identifier is complete. -/
theorem takeDoctype_written {d : Doctype} {name : List Char} (hid : d.id.Quotable)
    (hname : isRawName name = true) (rest : List Char) :
    takeDoctype (' ' :: (name ++ (d.id.written ++ '>' :: rest))) =
      if d.id.isComplete then some ({ id := d.id.trimmed }, rest) else none := by
  obtain ⟨c, cs, hcs, hc, -⟩ := isRawName_cons hname
  have hskip : skipSpace (name ++ (d.id.written ++ '>' :: rest)) =
      name ++ (d.id.written ++ '>' :: rest) := by
    rw [hcs]
    exact skipSpace_cons (isSpace_of_isRawNameChar hc) _
  rw [takeDoctype, skipSpaces1, if_pos (by decide)]
  simp only [Option.bind_eq_bind, Option.bind_some]
  rw [hskip, takeName_append hname (head?_written d.id rest), Option.bind_some,
    takeExternalId_written hid, ExternalId.isComplete, ExternalId.trimmed]
  cases hs : (d.id.systemId.getD []).isEmpty with
  | true =>
    cases hp : (d.id.publicId.getD []).isEmpty with
    | true =>
      have hwritten : d.id.written = [] := by simp [ExternalId.written, hs, hp]
      rw [if_pos rfl, Option.getD_none, hwritten, List.nil_append, skipSpace_cons (by decide),
        skipSpace_cons (by decide)]
      rfl
    | false =>
      -- a public identifier alone cannot be read
      have hwritten : ∃ more, d.id.written = ' ' :: 'P' :: more := by
        refine ⟨d.id.written.drop 2, ?_⟩
        rw [ExternalId.written, hp, if_neg (by simp)]
        rfl
      obtain ⟨more, hmore⟩ := hwritten
      have hblank : ∀ cs, skipSpace (skipSpace (' ' :: 'P' :: cs)) = 'P' :: cs := fun cs => by
        simp +decide [skipSpace]
      rw [if_pos rfl, Option.getD_none, hmore, List.cons_append, List.cons_append, hblank]
      rfl
  | false =>
    cases hp : (d.id.publicId.getD []).isEmpty with
    | true =>
      rw [if_neg (by simp), if_pos rfl, Option.getD_some, skipSpace_cons (by decide)]
      rfl
    | false =>
      rw [if_neg (by simp), if_neg (by simp), Option.getD_some, skipSpace_cons (by decide)]
      rfl

end Manifest.Xml
