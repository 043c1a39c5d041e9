import Manifest.Leaf
import Manifest.Proofs.Xml.Contents
import Manifest.Proofs.Xml.Written

/-! How a text begins, and what is read of that: whether it has a declaration, and which node stands in
front of the root. -/

set_option autoImplicit false

namespace Manifest

open Xml (isSpace skipSpace)

namespace Text

/-! The front of a text whose line ends are line feeds. -/

theorem append_of_unifyLineEnds {front cs rest : List Char} (hfront : '\n' ∉ front)
    (h : unifyLineEnds cs = front ++ rest) :
    ∃ rest', cs = front ++ rest' ∧ unifyLineEnds rest' = rest := by
  induction front generalizing cs with
  | nil => exact ⟨cs, rfl, h⟩
  | cons c front ih =>
    have hc : c ≠ '\n' := by
      rintro rfl
      exact hfront (by simp)
    have hc' : c ≠ '\r' := by
      rintro rfl
      exact not_mem_unifyLineEnds cs (by rw [h]; simp)
    have hhead := @head?_unifyLineEnds cs c hc (by rw [h]; rfl)
    cases cs with
    | nil => cases hhead
    | cons d ds =>
      obtain rfl : d = c := Option.some.inj hhead
      rw [unifyLineEnds_cons hc', List.cons_append, List.cons.injEq] at h
      obtain ⟨rest', rfl, hrest⟩ := ih (fun hx => hfront (by simp [hx])) h.2
      exact ⟨rest', rfl, hrest⟩

theorem isSpace_of_unifyLineEnds {cs rest : List Char} {c : Char} (hc : isSpace c = true)
    (h : unifyLineEnds cs = c :: rest) : ∃ d more, cs = d :: more ∧ isSpace d = true := by
  rw [unifyLineEnds.eq_def] at h
  split at h
  · cases h
  · exact ⟨_, _, rfl, by decide⟩
  · next d ds _ =>
    rw [List.cons.injEq] at h
    refine ⟨d, ds, rfl, ?_⟩
    split at h
    · next hd =>
      rw [beq_iff_eq] at hd
      rw [hd]
      decide
    · rw [h.1]
      exact hc

/-- White space in front is the same, whatever its line ends. -/
theorem skipSpace_unifyLineEnds (cs : List Char) :
    skipSpace (unifyLineEnds cs) = unifyLineEnds (skipSpace cs) := by
  have hskip : ∀ {c : Char} (cs : List Char), isSpace c = true → skipSpace (c :: cs) = skipSpace cs :=
    fun cs hc => List.dropWhile_cons_of_pos hc
  fun_induction unifyLineEnds cs with
  | case1 => rfl
  | case2 cs ih => rw [hskip _ (by decide), hskip _ (by decide), hskip _ (by decide), ih]
  | case3 c cs hc ih =>
    by_cases hr : c = '\r'
    · rw [hr, if_pos (by decide), hskip _ (by decide), hskip _ (by decide), ih]
    · rw [if_neg (by simpa using hr)]
      by_cases hs : isSpace c = true
      · rw [hskip _ hs, hskip _ hs, ih]
      · rw [Xml.skipSpace_cons (by simpa using hs), Xml.skipSpace_cons (by simpa using hs),
          unifyLineEnds_cons hr]

end Text

/-! The declaration. -/

namespace Xml

/-- Whether a text begins with the keyword of a declaration and white space. -/
def opensDeclaration (cs : List Char) : Bool :=
  ((skipWord "<?xml".toList cs).bind skipSpaces1).isSome

theorem opensDeclaration_iff {cs : List Char} :
    opensDeclaration cs = true ↔ ∃ c rest, cs = "<?xml".toList ++ c :: rest ∧ isSpace c = true := by
  rw [opensDeclaration, Option.isSome_iff_exists]
  constructor
  · rintro ⟨rest, h⟩
    obtain ⟨more, hword, hspaces⟩ := Option.bind_eq_some_iff.mp h
    rw [skipWord_eq_some_iff] at hword
    cases more with
    | nil => cases hspaces
    | cons c more =>
      rw [skipSpaces1] at hspaces
      split at hspaces
      · next hc => exact ⟨c, more, hword, hc⟩
      · cases hspaces
  · rintro ⟨c, rest, rfl, hc⟩
    exact ⟨skipSpace rest, by rw [skipWord_append, Option.bind_some, skipSpaces1, if_pos hc]⟩

/-- A text has a declaration if it begins with the word and white space. -/
theorem isSome_of_takeDeclared {cs rest : List Char} {declaration : Option Declaration}
    (h : takeDeclared cs = some (declaration, rest)) :
    declaration.isSome = opensDeclaration cs := by
  rw [takeDeclared] at h
  rw [opensDeclaration]
  split at h
  · next more hopen =>
    obtain ⟨⟨d, rest'⟩, -, h⟩ := Option.map_eq_some_iff.mp h
    cases h
    rw [hopen]
    rfl
  · next hopen =>
    cases h
    rw [hopen]
    rfl

theorem opensDeclaration_of_takeDeclared {cs : List Char} (h : takeDeclared cs = none) :
    opensDeclaration cs = true := by
  rw [takeDeclared] at h
  rw [opensDeclaration]
  split at h
  · next more hopen =>
    rw [hopen]
    rfl
  · cases h

/-- What is written begins with a declaration if it has one, and with nothing like it otherwise. -/
theorem opensDeclaration_writtenChars {encoding : Option String} {doctype : Option (Doctype × String)}
    {before after : List Markup} {root : Markup}
    (hbefore : ∀ m ∈ before, m.isRemark = true ∧ m.sound = true) (hroot : root.isElement = true)
    (hsound : root.sound = true) :
    opensDeclaration (writtenChars encoding doctype before root after) = encoding.isSome := by
  rw [writtenChars]
  cases encoding with
  | some e =>
    rw [declarationChars, Option.map_some, Option.getD_some, renderDeclaration_append]
    exact opensDeclaration_iff.mpr ⟨' ', _, rfl, rfl⟩
  | none =>
    have hstart : startsTag (lineOf root ++ after.flatMap lineOf) = true := by
      rw [lineOf, List.append_assoc]
      exact startsTag_renderAt hroot hsound _
    rw [declarationChars, Option.map_none, Option.getD_none, List.nil_append,
      ← isSome_of_takeDeclared (takeDeclared_none hbefore hstart)]
    rfl

/-- Line ends do not bear on whether there is a declaration. -/
theorem opensDeclaration_unifyLineEnds (cs : List Char) :
    opensDeclaration (Text.unifyLineEnds cs) = opensDeclaration cs := by
  rw [Bool.eq_iff_iff, opensDeclaration_iff, opensDeclaration_iff]
  constructor
  · rintro ⟨c, rest, h, hc⟩
    obtain ⟨rest', rfl, hrest⟩ := Text.append_of_unifyLineEnds (by decide) h
    obtain ⟨d, more, rfl, hd⟩ := Text.isSpace_of_unifyLineEnds hc hrest
    exact ⟨d, more, rfl, hd⟩
  · rintro ⟨c, rest, rfl, hc⟩
    rw [Text.unifyLineEnds_append_of_not_mem (by decide)]
    rw [Text.unifyLineEnds.eq_def]
    split
    · next h => cases h
    · exact ⟨_, _, rfl, by decide⟩
    · next d ds _ h =>
      cases h
      refine ⟨_, _, rfl, ?_⟩
      split
      · decide
      · exact hc

/-- A text that can be read has the declaration that its front is read as. -/
theorem takeDeclared_of_readDocument {cs : List Char} {contents : Contents}
    (h : readDocument cs = some contents) :
    ∃ rest, takeDeclared (Text.unifyLineEnds (dropMark cs)) = some (contents.declaration, rest) := by
  rw [readDocument, readLines] at h
  obtain ⟨⟨prolog, rest⟩, hprolog, h⟩ := Option.bind_eq_some_iff.mp h
  obtain ⟨body, -, h⟩ := Option.bind_eq_some_iff.mp h
  obtain ⟨body', -, h⟩ := Option.bind_eq_some_iff.mp h
  obtain ⟨p, -, h⟩ := Option.bind_eq_some_iff.mp h
  obtain ⟨nodes, -, h⟩ := Option.bind_eq_some_iff.mp h
  cases h
  rw [takeProlog] at hprolog
  obtain ⟨⟨declaration, cs₁⟩, hdeclared, hprolog⟩ := Option.bind_eq_some_iff.mp hprolog
  obtain ⟨⟨misc, doctype, rest'⟩, -, hprolog⟩ := Option.bind_eq_some_iff.mp hprolog
  cases hprolog
  exact ⟨cs₁, hdeclared⟩

theorem isSome_declaration_eq {cs : List Char} {contents : Contents}
    (h : readDocument cs = some contents) :
    contents.declaration.isSome = opensDeclaration (dropMark cs) := by
  obtain ⟨rest, hdeclared⟩ := takeDeclared_of_readDocument h
  rw [isSome_of_takeDeclared hdeclared, opensDeclaration_unifyLineEnds]

/-! The first node. -/

/--
What the first node of a document is, as far as it has been read: before there is one, the root is open.
-/
structure Progress.FirstIs (good : Node → Prop) (p : Progress) : Prop where
  begun : p.done = [] → p.stack ≠ []
  first : ∀ node ∈ p.done.getLast?, good node

section
variable {good : Node → Prop}

theorem Progress.FirstIs.single {node : Node} (h : good node) {last : Option Remark} :
    (⟨[], [node], last⟩ : Progress).FirstIs good :=
  ⟨by simp, fun _ hx => Option.some.inj hx ▸ h⟩

theorem Progress.FirstIs.add {p : Progress} (hp : p.FirstIs good) (node : Node) :
    (p.add node).FirstIs good := by
  obtain ⟨stack, done, last⟩ := p
  cases stack with
  | nil =>
    cases done with
    | nil => exact absurd rfl (hp.begun rfl)
    | cons x rest =>
      refine ⟨by simp [Progress.add], fun y hy => hp.first y ?_⟩
      rw [Progress.add, List.getLast?_cons_cons] at hy
      exact hy
  | cons top below => exact ⟨fun _ => by simp [Progress.add], hp.first⟩

theorem Progress.FirstIs.close {p q : Progress} (hp : p.FirstIs good)
    (hgood : ∀ tag children, good (.element tag children)) (h : p.close = some q) :
    q.FirstIs good := by
  obtain ⟨stack, done, last⟩ := p
  cases stack with
  | nil => cases h
  | cons top below =>
    cases h
    cases below with
    | nil =>
      refine ⟨by simp [Progress.add], fun y hy => ?_⟩
      cases done with
      | nil =>
        cases hy
        exact hgood _ _
      | cons x rest =>
        rw [Progress.add, List.getLast?_cons_cons] at hy
        exact hp.first y hy
    | cons next below => exact ⟨fun _ => by simp [Progress.add], hp.first⟩

theorem Progress.FirstIs.step {rules : List AttributeRule} {p q : Progress} {t : Token}
    (hp : p.FirstIs good) (hgood : ∀ tag children, good (.element tag children))
    (h : p.step rules t = some q) : q.FirstIs good := by
  cases t with
  | startTag name attributes closed =>
    rw [Progress.step] at h
    split at h
    · cases h
    · have hopened : ∀ (tag : Tag) (scope : Scope) (last : Option Remark),
          (⟨⟨name, tag, scope, []⟩ :: p.stack, p.done, last⟩ : Progress).FirstIs good :=
        fun tag scope last => ⟨fun _ => by simp, hp.first⟩
      dsimp only at h
      split at h
      · exact (hopened _ _ _).close hgood h
      · cases h
        exact hopened _ _ _
  | endTag name =>
    rw [Progress.step] at h
    split at h
    · exact hp.close hgood h
    · cases h
  | data pieces =>
    rw [Progress.step] at h
    split at h
    · split at h
      · cases h
        exact hp
      · cases h
    · obtain ⟨chars, -, rfl⟩ := Option.map_eq_some_iff.mp h
      exact hp.add _
  | verbatim chars =>
    rw [Progress.step] at h
    split at h
    · cases h
    · cases h
      exact hp.add _
  | comment chars =>
    cases h
    exact hp.add _
  | instruction target value =>
    cases h
    exact ⟨(hp.add _).begun, (hp.add _).first⟩

theorem Progress.FirstIs.run {rules : List AttributeRule} {p q : Progress} {ts : List Token}
    (hp : p.FirstIs good) (hgood : ∀ tag children, good (.element tag children))
    (h : p.run rules ts = some q) : q.FirstIs good := by
  induction ts generalizing p with
  | nil =>
    cases h
    exact hp
  | cons t ts ih =>
    rw [Progress.run] at h
    obtain ⟨p', hstep, hrun⟩ := Option.bind_eq_some_iff.mp h
    exact ih (hp.step hgood hstep) hrun

end

theorem isSpace_of_isPlainSpace {c : Char} {cs : List Char} {ps : List Piece}
    (h : pieces (c :: cs) = some ps) (hps : isPlainSpace ps = true) : isSpace c = true := by
  have href : ∀ (cs seen : List Char) (ps : List Piece), piecesFrom (some seen) cs = some ps →
      isPlainSpace ps = false := by
    intro cs
    induction cs with
    | nil => exact fun seen ps h => by cases h
    | cons c cs ih =>
      intro seen ps h
      rw [piecesFrom] at h
      split at h
      · obtain ⟨piece, hpiece, h⟩ := Option.bind_eq_some_iff.mp h
        obtain ⟨rest, -, h⟩ := Option.bind_eq_some_iff.mp h
        cases h
        -- a reference is no literal character
        rw [reference?.eq_def] at hpiece
        split at hpiece
        · obtain ⟨d, -, rfl⟩ := Option.map_eq_some_iff.mp hpiece
          rfl
        · split at hpiece
          · split at hpiece <;> cases hpiece <;> rfl
          · cases hpiece
      · exact ih _ ps h
  rw [pieces, piecesFrom] at h
  split at h
  · rw [href cs [] ps h] at hps
    cases hps
  · split at h
    · obtain ⟨rest, -, rfl⟩ := Option.map_eq_some_iff.mp h
      rw [isPlainSpace, List.all_cons, Bool.and_eq_true] at hps
      exact hps.1
    · cases h

/-- What reading up to the root takes from the front of a text. -/
theorem takeMisc_cases {fuel : Nat} {cs rest : List Char} {ts : List Token}
    {doctype : Option Doctype} (h : takeMisc fuel none cs = some (ts, doctype, rest)) :
    doctype.isSome = true ∨ (∃ chars more, ts = .comment chars :: more) ∨
      (∃ target value more after, ts = .instruction target value :: more ∧
        skipSpace cs = '<' :: '?' :: (target ++ after)) ∨
      (ts = [] ∧ rest = skipSpace cs ∧ (∀ more, rest ≠ '<' :: '!' :: '-' :: '-' :: more) ∧
        ∀ more, rest ≠ '<' :: '?' :: more) := by
  cases fuel with
  | zero => cases h
  | succ fuel =>
    rw [takeMisc] at h
    split at h
    · obtain ⟨⟨chars, cs₁⟩, -, h⟩ := Option.bind_eq_some_iff.mp h
      obtain ⟨⟨more, doctype', rest'⟩, -, h⟩ := Option.bind_eq_some_iff.mp h
      cases h
      exact .inr (.inl ⟨chars, more, rfl⟩)
    · next cs₁ hopen =>
      obtain ⟨⟨⟨target, value⟩, cs₂⟩, hinstruction, h⟩ := Option.bind_eq_some_iff.mp h
      obtain ⟨⟨more, doctype', rest'⟩, -, h⟩ := Option.bind_eq_some_iff.mp h
      cases h
      rw [takeInstruction] at hinstruction
      obtain ⟨⟨name, after⟩, hname, hinstruction⟩ := Option.bind_eq_some_iff.mp hinstruction
      have hfront := (takeName_eq_some hname).2
      have htarget : name = target := by
        dsimp only at hinstruction
        split at hinstruction
        · cases hinstruction
        · split at hinstruction
          · cases hinstruction
            rfl
          · obtain ⟨cs₃, -, hinstruction⟩ := Option.bind_eq_some_iff.mp hinstruction
            obtain ⟨⟨value', cs₄⟩, -, hinstruction⟩ := Option.bind_eq_some_iff.mp hinstruction
            dsimp only at hinstruction
            split at hinstruction
            · cases hinstruction
              rfl
            · cases hinstruction
      rw [hfront, htarget] at hopen
      exact .inr (.inr (.inl ⟨target, value, more, after, rfl, hopen⟩))
    · next hcomment hinstruction =>
      split at h
      · split at h
        · cases h
        · obtain ⟨⟨type, cs₁⟩, -, h⟩ := Option.bind_eq_some_iff.mp h
          rw [takeMisc_doctype_eq h]
          exact .inl rfl
      · cases h
        exact .inr (.inr (.inr ⟨rfl, rfl, hcomment, hinstruction⟩))

theorem Progress.FirstIs.of_startTag {rules : List AttributeRule} {good : Node → Prop} {q : Progress}
    (hgood : ∀ tag children, good (.element tag children)) {name : List Char}
    {attributes : List (List Char × List Char)} {closed : Bool}
    (h : Progress.step rules {} (.startTag name attributes closed) = some q) : q.FirstIs good := by
  have hopened : ∀ (tag : Tag) (scope : Scope) (last : Option Remark),
      (⟨[⟨name, tag, scope, []⟩], [], last⟩ : Progress).FirstIs good :=
    fun tag scope last => ⟨fun _ => by simp, by simp⟩
  rw [Progress.step] at h
  split at h
  · cases h
  · dsimp only at h
    split at h
    · exact (hopened _ _ _).close hgood h
    · cases h
      exact hopened _ _ _

/--
Of what stands behind white space at the top level, and is no comment or instruction, the start tag of
the root is the first.
-/
theorem Progress.FirstIs.of_body {entity : EntityText} {d : Declarations} {rules : List AttributeRule}
    {good : Node → Prop} (hgood : ∀ tag children, good (.element tag children)) {cs : List Char}
    (hspace : ∀ c ∈ cs.head?, isSpace c = false)
    (hcomment : ∀ more, cs ≠ '<' :: '!' :: '-' :: '-' :: more)
    (hinstruction : ∀ more, cs ≠ '<' :: '?' :: more) {body body' : List Token}
    (hbody : tokens entity cs = some body) (hexpand : d.expandDocument body = some body')
    {p : Progress} (hrun : Progress.run rules {} body' = some p) (hroot : p.hasRoot = true) :
    p.FirstIs good := by
  cases cs with
  | nil =>
    -- without a token there is no root
    cases hbody
    cases hexpand
    cases hrun
    cases hroot
  | cons c cs =>
    rw [tokens, List.length_cons, tokensWithin] at hbody
    obtain ⟨⟨t, rest⟩, htoken, hbody⟩ := Option.bind_eq_some_iff.mp hbody
    obtain ⟨more, -, hbody⟩ := Option.bind_eq_some_iff.mp hbody
    cases hbody
    rw [Declarations.expandDocument, Option.ite_none_right_eq_some] at hexpand
    obtain ⟨hinside, hexpand⟩ := hexpand
    -- a token that is no character data is the first one to be read
    have hfirst : (∀ ps, t ≠ .data ps) →
        ∃ q more', Progress.step rules {} t = some q ∧ Progress.run rules q more' = some p := by
      intro hdata
      have hexpand : (expandTokens (d.entityTokens maxEntityDepth) more).map (t :: ·) = some body' := by
        cases t <;> first | exact hexpand | exact absurd rfl (hdata _)
      obtain ⟨more', -, rfl⟩ := Option.map_eq_some_iff.mp hexpand
      obtain ⟨q, hstep, hrun⟩ := Option.bind_eq_some_iff.mp hrun
      exact ⟨q, more', hstep, hrun⟩
    rw [takeToken.eq_def] at htoken
    split at htoken
    · next heq => exact absurd heq (hcomment _)
    · obtain ⟨x, -, hpair⟩ := Option.map_eq_some_iff.mp htoken
      cases hpair
      obtain ⟨q, more', hstep, -⟩ := hfirst (by simp)
      cases hstep
    · next heq => exact absurd heq (hinstruction _)
    · rw [takeEndTag] at htoken
      obtain ⟨x, -, htoken⟩ := Option.bind_eq_some_iff.mp htoken
      obtain ⟨y, -, hpair⟩ := Option.bind_eq_some_iff.mp htoken
      cases hpair
      obtain ⟨q, more', hstep, -⟩ := hfirst (by simp)
      cases hstep
    · rw [takeStartTag] at htoken
      obtain ⟨x, -, htoken⟩ := Option.bind_eq_some_iff.mp htoken
      obtain ⟨y, -, hpair⟩ := Option.bind_eq_some_iff.mp htoken
      cases hpair
      obtain ⟨q, more', hstep, hrun⟩ := hfirst (by simp)
      exact (Progress.FirstIs.of_startTag hgood hstep).run hgood hrun
    · next hopen =>
      have hc : (c != '<') = true := by
        rw [bne_iff_ne]
        rintro rfl
        exact hopen _ rfl
      rw [takeData] at htoken
      split at htoken
      · cases htoken
      · obtain ⟨ps, hps, hpair⟩ := Option.bind_eq_some_iff.mp htoken
        cases hpair
        rw [show (c :: cs).takeWhile (· != '<') = c :: cs.takeWhile (· != '<') from
          List.takeWhile_cons_of_pos hc] at hps
        rw [entitiesInside, Bool.and_eq_true, Bool.or_eq_true, Bool.not_eq_true'] at hinside
        have hentity : ps.any Piece.isEntity = false := hinside.1.resolve_left (by decide)
        rw [expandTokens, hentity] at hexpand
        obtain ⟨more', -, hpair⟩ := Option.bind_eq_some_iff.mp hexpand
        cases hpair
        obtain ⟨q, hstep, -⟩ := Option.bind_eq_some_iff.mp hrun
        rw [Progress.step, List.isEmpty_nil, if_pos rfl, Option.ite_none_right_eq_some] at hstep
        exact absurd (isSpace_of_isPlainSpace hps hstep.1) (by simp [hspace c rfl])

/-- The first node is an instruction where the text begins with it, or behind something else. -/
theorem skipSpace_of_instruction {cs : List Char} {contents : Contents} {target value : String}
    (h : readDocument cs = some contents) (hdeclaration : contents.declaration = none)
    (hdoctype : contents.doctype = none)
    (hfirst : contents.nodes.head? = some (.instruction target value)) :
    ∃ after, skipSpace (Text.unifyLineEnds (dropMark cs)) = '<' :: '?' :: (target.toList ++ after) := by
  rw [readDocument, readLines] at h
  obtain ⟨⟨prolog, rest⟩, hprolog, h⟩ := Option.bind_eq_some_iff.mp h
  obtain ⟨body, hbody, h⟩ := Option.bind_eq_some_iff.mp h
  obtain ⟨body', hexpand, h⟩ := Option.bind_eq_some_iff.mp h
  obtain ⟨p, hrun, h⟩ := Option.bind_eq_some_iff.mp h
  obtain ⟨nodes, hfinish, h⟩ := Option.bind_eq_some_iff.mp h
  cases h
  rw [Progress.finish, Option.ite_none_right_eq_some, Bool.and_eq_true, Bool.and_eq_true,
    Option.some.injEq] at hfinish
  obtain ⟨⟨⟨-, hroot⟩, -⟩, rfl⟩ := hfinish
  rw [List.head?_reverse] at hfirst
  rw [takeProlog] at hprolog
  obtain ⟨⟨declaration, cs₁⟩, hdeclared, hprolog⟩ := Option.bind_eq_some_iff.mp hprolog
  obtain ⟨⟨misc, doctype, rest'⟩, hmisc, hprolog⟩ := Option.bind_eq_some_iff.mp hprolog
  cases hprolog
  obtain rfl : declaration = none := hdeclaration
  obtain rfl : doctype = none := hdoctype
  obtain rfl : cs₁ = Text.unifyLineEnds (dropMark cs) := by
    rw [takeDeclared] at hdeclared
    split at hdeclared
    · obtain ⟨x, -, hpair⟩ := Option.map_eq_some_iff.mp hdeclared
      cases hpair
    · cases hdeclared
      rfl
  -- whatever is read first stays the first node
  suffices hp : p.FirstIs fun node => ∀ target value, node = .instruction target value →
      ∃ after, skipSpace (Text.unifyLineEnds (dropMark cs)) = '<' :: '?' :: (target.toList ++ after) from
    hp.first _ hfirst target value rfl
  rcases takeMisc_cases hmisc with hnone | ⟨chars, more, rfl⟩ | ⟨target', value', more, after, rfl, hcs⟩ |
    ⟨rfl, rfl, hcomment, hinstruction⟩
  · cases hnone
  · obtain ⟨q, hstep, hrun⟩ := Option.bind_eq_some_iff.mp hrun
    cases hstep
    exact (Progress.FirstIs.single fun _ _ hnode => Node.noConfusion hnode).run (by simp) hrun
  · obtain ⟨q, hstep, hrun⟩ := Option.bind_eq_some_iff.mp hrun
    cases hstep
    refine (Progress.FirstIs.single ?_).run (by simp) hrun
    intro target value hnode
    cases hnode
    exact ⟨after, by rw [hcs, String.toList_ofList]⟩
  · exact .of_body (by simp) (head?_skipSpace _) hcomment hinstruction hbody hexpand hrun hroot

end Xml

/-! The front as the library looks at it. -/

theorem opensWithDeclaration_iff {text : String} :
    opensWithDeclaration text = true ↔
      ∃ rest, text.toList.dropWhile Text.isBlank = "<?xml".toList ++ rest := by
  rw [opensWithDeclaration, Option.isSome_iff_exists]
  exact exists_congr fun rest => Xml.skipWord_eq_some_iff

theorem opensWithDeclaration_of_skipSpace {text : String} {rest : List Char}
    (h : skipSpace text.toList = "<?xml".toList ++ rest) : opensWithDeclaration text = true := by
  refine opensWithDeclaration_iff.mpr ⟨rest, ?_⟩
  rw [← List.takeWhile_append_dropWhile (p := isSpace) (l := text.toList),
    List.dropWhile_append_of_pos fun c hc => Xml.Markup.isBlank_of_isSpace
      (List.all_eq_true.mp List.all_takeWhile c hc)]
  rw [skipSpace] at h
  rw [h]
  exact Text.dropWhile_eq_self (by rintro c ⟨⟩; decide)

theorem opensWithDeclaration_of_opensDeclaration {text : String}
    (h : Xml.opensDeclaration text.toList = true) : opensWithDeclaration text = true := by
  obtain ⟨c, rest, hrest, -⟩ := Xml.opensDeclaration_iff.mp h
  refine opensWithDeclaration_iff.mpr ⟨c :: rest, ?_⟩
  rw [hrest]
  exact Text.dropWhile_eq_self (by rintro c ⟨⟩; decide)

/-- A declaration is seen unless a mark stands in front of it. -/
theorem opensWithDeclaration_of_declared {text : String} {contents : Xml.Contents}
    (hread : Xml.readDocument text.toList = some contents)
    (hdeclaration : contents.declaration.isSome = true) :
    opensWithDeclaration text = true ↔ text.toList.head? ≠ some Xml.byteOrderMark := by
  constructor
  · intro h hmark
    obtain ⟨rest, hrest⟩ := opensWithDeclaration_iff.mp h
    cases htext : text.toList with
    | nil => rw [htext] at hmark; cases hmark
    | cons c cs =>
      rw [htext] at hmark hrest
      obtain rfl : c = Xml.byteOrderMark := Option.some.inj hmark
      rw [List.dropWhile_cons_of_neg (by decide)] at hrest
      cases hrest
  · intro hmark
    rw [Xml.isSome_declaration_eq hread, Xml.dropMark_of_head? hmark] at hdeclaration
    exact opensWithDeclaration_of_opensDeclaration hdeclaration

/-- An instruction in front whose target begins like the keyword looks like a declaration. -/
theorem opensWithDeclaration_of_instruction {text : String} {contents : Xml.Contents}
    {target value : String} (hmark : text.toList.head? ≠ some Xml.byteOrderMark)
    (hread : Xml.readDocument text.toList = some contents) (hdeclaration : contents.declaration = none)
    (hdoctype : contents.doctype = none)
    (hfirst : contents.nodes.head? = some (.instruction target value))
    (htarget : "xml".toList <+: target.toList) : opensWithDeclaration text = true := by
  obtain ⟨more, hmore⟩ := htarget
  obtain ⟨after, h⟩ := Xml.skipSpace_of_instruction hread hdeclaration hdoctype hfirst
  rw [Xml.dropMark_of_head? hmark, Text.skipSpace_unifyLineEnds, ← hmore] at h
  obtain ⟨rest, hrest, -⟩ := @Text.append_of_unifyLineEnds "<?xml".toList _ (more ++ after) (by decide)
    (by rw [h]; simp)
  exact opensWithDeclaration_of_skipSpace hrest

end Manifest
