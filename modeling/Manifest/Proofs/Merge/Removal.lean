import Manifest.Proofs.Document.Assembled
import Manifest.Proofs.Merge.Commuting

/-! Texts around what is removed. Where no two texts stand side by side, a removal takes unwanted entries and
the white space right before each of them, and nothing else: `goesAt` says it of each index by what stood there
and behind it. It brings two texts together where a text that is not blank stands before such entries and another
text that stays comes right behind them. -/

set_option autoImplicit false

namespace Manifest

/-- Whether a node is an entry that is unwanted. -/
def Node.goes (unwanted : Element → Bool) (node : Node) : Bool :=
  node.element?.any unwanted

/-- What is left of some nodes: neither the unwanted entries nor white space right before one of them. -/
def leftOf (unwanted : Element → Bool) : List Node → List Node
  | [] => []
  | node :: rest =>
    if node.goes unwanted || (node.isBlank && rest.head?.any (·.goes unwanted)) then leftOf unwanted rest
    else node :: leftOf unwanted rest

/--
Whether two texts stand side by side once the unwanted entries are gone: one that is not blank, and the
next one that stays, with nothing but such entries and white space before them in between.
-/
def textsMeet (unwanted : Element → Bool) (nodes : List Node) : Prop :=
  ∃ front s gone t back, nodes = front ++ .text s :: (gone ++ .text t :: back) ∧
    Text.isBlankText s = false ∧ (∀ node ∈ gone, node.goes unwanted = true ∨ node.isBlank = true) ∧
    (Text.isBlankText t = true → back.head?.any (·.goes unwanted) = false)

section
variable {unwanted : Element → Bool} {nodes rest : List Node} {node : Node}

theorem Node.isText_of_isBlank (h : node.isBlank = true) : node.isText = true := by
  cases node <;> first | rfl | cases h

theorem Node.goes_of_isText (h : node.isText = true) : node.goes unwanted = false := by
  cases node <;> first | rfl | cases h

theorem dropBlank_of_not_isBlank {before : List Node} (h : ∀ b ∈ before.head?, b.isBlank = false) :
    dropBlank before = before := by
  cases before with
  | nil => rfl
  | cons b before => rw [dropBlank, h b rfl, if_neg (by simp)]

theorem removeFrom_goes (h : node.goes unwanted = true) (owner : String) (before : List Node) :
    (removeFrom unwanted owner before (node :: rest)).children =
      (removeFrom unwanted owner (dropBlank before) rest).children := by
  obtain ⟨e, he, hu⟩ : ∃ e, node.element? = some e ∧ unwanted e = true := by
    rw [Node.goes, Option.any_eq_true_iff_get] at h
    obtain ⟨hsome, hu⟩ := h
    exact ⟨_, (Option.some_get hsome).symm, hu⟩
  have hfilter : node.element?.filter unwanted = some e := by rw [he, Option.filter_some, hu]; rfl
  rw [removeFrom, hfilter]

theorem removeFrom_stays (h : node.goes unwanted = false) (owner : String) (before : List Node) :
    (removeFrom unwanted owner before (node :: rest)).children =
      (removeFrom unwanted owner (node :: before) rest).children := by
  have hfilter : node.element?.filter unwanted = none := by
    rw [Node.goes] at h
    cases he : node.element? with
    | none => rfl
    | some e =>
      rw [he, Option.any_some] at h
      rw [Option.filter_some, h]
      rfl
  rw [removeFrom, hfilter]

/-- The nodes kept so far lose white space at their end if an unwanted entry comes next. -/
theorem removeFrom_eq_leftOf (owner : String) {before : List Node}
    (hbefore : ∀ b ∈ before.head?, b.isBlank = true → ∀ c ∈ before.tail.head?, c.isBlank = false)
    (hmeet : ∀ n ∈ nodes.head?, n.isText = true → ∀ b ∈ before.head?, b.isBlank = false)
    (ha : apart nodes) :
    (removeFrom unwanted owner before nodes).children =
      (if nodes.head?.any (·.goes unwanted) then dropBlank before else before).reverse ++
        leftOf unwanted nodes := by
  induction nodes generalizing before with
  | nil => simp [removeFrom, leftOf]
  | cons node rest ih =>
    obtain ⟨hnode, harest⟩ := List.isChain_cons.mp ha
    rw [List.head?_cons, Option.any_some]
    cases hgoes : node.goes unwanted with
    | true =>
      have hdropped : ∀ b ∈ (dropBlank before).head?, b.isBlank = false := by
        cases before with
        | nil => rintro _ ⟨⟩
        | cons b before =>
          rw [dropBlank]
          split
          · next hb => exact hbefore b rfl hb
          · next hb =>
            rintro _ ⟨⟩
            simpa using hb
      have hno : ∀ b ∈ (dropBlank before).head?, b.isBlank = true →
          ∀ c ∈ (dropBlank before).tail.head?, c.isBlank = false := by
        intro b hb hblank
        rw [hdropped b hb] at hblank
        cases hblank
      rw [removeFrom_goes hgoes, ih hno (fun _ _ _ => hdropped) harest, dropBlank_of_not_isBlank hdropped,
        leftOf, hgoes]
      simp
    | false =>
      have hblank : ∀ b ∈ (node :: before).head?, b.isBlank = true →
          ∀ c ∈ (node :: before).tail.head?, c.isBlank = false := by
        rintro _ ⟨⟩ hb
        exact hmeet node rfl (Node.isText_of_isBlank hb)
      have hnext : ∀ n ∈ rest.head?, n.isText = true → ∀ b ∈ (node :: before).head?, b.isBlank = false := by
        rintro n hn htext _ ⟨⟩
        rw [← Bool.not_eq_true]
        intro hb
        rw [hnode n hn (Node.isText_of_isBlank hb)] at htext
        cases htext
      rw [removeFrom_stays hgoes, ih hblank hnext harest, leftOf, hgoes, dropBlank]
      cases rest.head?.any (·.goes unwanted) <;> cases node.isBlank <;> simp

/-- What a removal leaves where no two texts stand side by side. -/
theorem children_removeFrom_of_apart (owner : String) (ha : apart nodes) :
    (removeFrom unwanted owner [] nodes).children = leftOf unwanted nodes := by
  rw [removeFrom_eq_leftOf owner (by simp) (by simp) ha]
  cases nodes.head?.any (·.goes unwanted) <;> rfl

/-- Whether the node at an index goes: an unwanted entry, or white space right before one. -/
def goesAt (unwanted : Element → Bool) (nodes : List Node) (i : Nat) : Bool :=
  nodes[i]?.any (·.goes unwanted) || (nodes[i]?.any Node.isBlank && nodes[i + 1]?.any (·.goes unwanted))

/-- What is left is what does not go by its index. -/
theorem leftOf_eq_filter (nodes : List Node) :
    leftOf unwanted nodes =
      (nodes.zipIdx.filter fun x => !goesAt unwanted nodes x.2).map Prod.fst := by
  induction nodes with
  | nil => rfl
  | cons node rest ih =>
    have hbehind : ((rest.zipIdx 1).filter fun x => !goesAt unwanted (node :: rest) x.2).map Prod.fst =
        leftOf unwanted rest := by
      rw [ih, List.zipIdx_succ, List.filter_map, List.map_map]
      rfl
    have hfirst : goesAt unwanted (node :: rest) 0 =
        (node.goes unwanted || (node.isBlank && rest.head?.any (·.goes unwanted))) := by
      cases rest <;> rfl
    rw [leftOf, List.zipIdx_cons, List.filter_cons, ← hbehind, ← hfirst]
    cases goesAt unwanted (node :: rest) 0 <;> simp

/-! Texts that come next. -/

/-- Whether a text that stays comes behind nothing but unwanted entries and white space before them. -/
def textNext (unwanted : Element → Bool) (nodes : List Node) : Prop :=
  ∃ gone t back, nodes = gone ++ .text t :: back ∧
    (∀ node ∈ gone, node.goes unwanted = true ∨ node.isBlank = true) ∧
    (Text.isBlankText t = true → back.head?.any (·.goes unwanted) = false)

theorem textNext_cons_of_gone
    (h : node.goes unwanted = true ∨ node.isBlank = true ∧ rest.head?.any (·.goes unwanted) = true) :
    textNext unwanted (node :: rest) ↔ textNext unwanted rest := by
  constructor
  · rintro ⟨gone, t, back, hnodes, hgone, hstays⟩
    cases gone with
    | nil =>
      obtain ⟨rfl, rfl⟩ := List.cons.inj hnodes
      rcases h with h | ⟨hblank, hnext⟩
      · cases h
      · rw [hstays hblank] at hnext
        cases hnext
    | cons _ gone =>
      obtain ⟨rfl, rfl⟩ := List.cons.inj hnodes
      exact ⟨gone, t, back, rfl, fun x hx => hgone x (List.mem_cons_of_mem _ hx), hstays⟩
  · rintro ⟨gone, t, back, rfl, hgone, hstays⟩
    exact ⟨node :: gone, t, back, rfl, List.forall_mem_cons.mpr ⟨h.imp id And.left, hgone⟩, hstays⟩

theorem isText_head?_leftOf (nodes : List Node) :
    (∃ x ∈ (leftOf unwanted nodes).head?, x.isText = true) ↔ textNext unwanted nodes := by
  induction nodes with
  | nil =>
    constructor
    · rintro ⟨x, hx, -⟩
      cases hx
    · rintro ⟨gone, t, back, hnodes, -⟩
      cases gone <;> cases hnodes
  | cons node rest ih =>
    rw [leftOf]
    split
    · next hgone =>
      rw [Bool.or_eq_true, Bool.and_eq_true] at hgone
      rw [ih, textNext_cons_of_gone hgone]
    · next hstays =>
      rw [Bool.or_eq_true, Bool.and_eq_true, not_or, not_and, Bool.not_eq_true, Bool.not_eq_true]
        at hstays
      rw [List.head?_cons]
      constructor
      · rintro ⟨_, ⟨⟩, htext⟩
        obtain ⟨value, rfl⟩ : ∃ value, node = .text value := by
          cases node <;> first | exact ⟨_, rfl⟩ | cases htext
        exact ⟨[], value, rest, rfl, nofun, hstays.2⟩
      · rintro ⟨gone, t, back, hnodes, hgone, -⟩
        refine ⟨node, rfl, ?_⟩
        cases gone with
        | nil =>
          rw [(List.cons.inj hnodes).1]
          rfl
        | cons _ gone =>
          obtain ⟨rfl, rfl⟩ := List.cons.inj hnodes
          rcases hgone _ List.mem_cons_self with hgoes | hblank
          · rw [hstays.1] at hgoes
            cases hgoes
          · exact Node.isText_of_isBlank hblank

/-- Two texts meet in front, or behind the first node. -/
theorem textsMeet_cons :
    textsMeet unwanted (node :: rest) ↔
      node.isText = true ∧ node.isBlank = false ∧ textNext unwanted rest ∨ textsMeet unwanted rest := by
  constructor
  · rintro ⟨front, s, gone, t, back, hnodes, hs, hgone, hstays⟩
    cases front with
    | nil =>
      obtain ⟨rfl, rfl⟩ := List.cons.inj hnodes
      exact Or.inl ⟨rfl, hs, gone, t, back, rfl, hgone, hstays⟩
    | cons _ front =>
      obtain ⟨rfl, rfl⟩ := List.cons.inj hnodes
      exact Or.inr ⟨front, s, gone, t, back, rfl, hs, hgone, hstays⟩
  · rintro (⟨htext, hblank, gone, t, back, rfl, hgone, hstays⟩ |
      ⟨front, s, gone, t, back, rfl, hs, hgone, hstays⟩)
    · obtain ⟨s, rfl⟩ : ∃ s, node = .text s := by
        cases node <;> first | exact ⟨_, rfl⟩ | cases htext
      exact ⟨[], s, gone, t, back, rfl, hblank, hgone, hstays⟩
    · exact ⟨node :: front, s, gone, t, back, rfl, hs, hgone, hstays⟩

/-- White space that stays has a node behind it that stays and is no text. -/
theorem not_textNext_of_blank (ha : apart (node :: rest)) (hblank : node.isBlank = true)
    (hnext : rest.head?.any (·.goes unwanted) = false) : ¬ textNext unwanted rest := by
  rw [← isText_head?_leftOf]
  rintro ⟨x, hx, htext⟩
  cases rest with
  | nil => cases hx
  | cons y rest =>
    have hy : y.isText = false := (List.isChain_cons.mp ha).1 y rfl (Node.isText_of_isBlank hblank)
    have hyBlank : y.isBlank = false := by
      rw [← Bool.not_eq_true]
      intro hb
      rw [Node.isText_of_isBlank hb] at hy
      cases hy
    rw [List.head?_cons, Option.any_some] at hnext
    rw [leftOf, hnext, hyBlank] at hx
    cases hx
    rw [hy] at htext
    cases htext

/-- Texts stay apart where no two of them meet. -/
theorem apart_leftOf_iff (ha : apart nodes) :
    apart (leftOf unwanted nodes) ↔ ¬ textsMeet unwanted nodes := by
  induction nodes with
  | nil =>
    refine ⟨fun _ => ?_, fun _ => .nil⟩
    rintro ⟨front, s, gone, t, back, hnodes, -⟩
    cases front <;> cases hnodes
  | cons node rest ih =>
    have hrest := ih (List.isChain_cons.mp ha).2
    rw [leftOf, textsMeet_cons]
    split
    · next hgone =>
      rw [Bool.or_eq_true, Bool.and_eq_true] at hgone
      rw [hrest]
      have hno : ¬ (node.isText = true ∧ node.isBlank = false ∧ textNext unwanted rest) := by
        rintro ⟨htext, hblank, -⟩
        rcases hgone with hgoes | hgone
        · rw [Node.goes_of_isText htext] at hgoes
          cases hgoes
        · rw [hblank] at hgone
          cases hgone.1
      rw [or_iff_right hno]
    · next hstays =>
      rw [Bool.or_eq_true, Bool.and_eq_true, not_or, not_and, Bool.not_eq_true, Bool.not_eq_true]
        at hstays
      have hhead : (∀ x ∈ (leftOf unwanted rest).head?, node.isText = true → x.isText = false) ↔
          ¬ (node.isText = true ∧ node.isBlank = false ∧ textNext unwanted rest) := by
        rw [← isText_head?_leftOf]
        constructor
        · rintro h ⟨htext, -, x, hx, hxtext⟩
          rw [h x hx htext] at hxtext
          cases hxtext
        · intro h x hx htext
          rw [← Bool.not_eq_true]
          intro hxtext
          cases hblank : node.isBlank with
          | false => exact h ⟨htext, hblank, x, hx, hxtext⟩
          | true =>
            exact not_textNext_of_blank ha hblank (hstays.2 hblank)
              ((isText_head?_leftOf rest).mp ⟨x, hx, hxtext⟩)
      rw [not_or, ← hhead, ← hrest, apart, List.isChain_cons]
      rfl

/-- A removal leaves texts apart exactly where it does not bring two of them together. -/
theorem apart_removeFrom_iff (owner : String) (ha : apart nodes) :
    apart (removeFrom unwanted owner [] nodes).children ↔ ¬ textsMeet unwanted nodes := by
  rw [children_removeFrom_of_apart owner ha, apart_leftOf_iff ha]

end

/--
A removal takes exactly the entries that it is told to: those that one of the matches takes for one of the
candidates. They are returned as they stood in the section; the other entries stay, and so do the comments, the
instructions and the texts that are not blank, in order. Where no two texts stand side by side, what goes besides
is each blank text with a removed entry right behind it.
-/
theorem removeMatching_exact (same : List Match) (owner : String) (candidates : List Element)
    (children : List Node) :
    (removeMatching same owner candidates children).entries =
        (elementsOf children).filter (isNamed same candidates) ∧
      elementsOf (removeMatching same owner candidates children).children =
        (elementsOf children).filter (!isNamed same candidates ·) ∧
      (removeMatching same owner candidates children).children.Sublist children ∧
      (removeMatching same owner candidates children).children.filter Node.isRemainder =
        children.filter Node.isRemainder ∧
      (apart children → (removeMatching same owner candidates children).children =
        (children.zipIdx.filter fun x => !goesAt (isNamed same candidates) children x.2).map Prod.fst) := by
  refine ⟨entries_removeFrom _ owner children, elementsOf_removeFrom _ owner children,
    (removeFrom_spec _ owner [] children).1, filter_isRemainder_removeFrom _ owner children, fun ha => ?_⟩
  rw [removeMatching, children_removeFrom_of_apart owner ha, leftOf_eq_filter]

/-- A module twice, once behind text and once behind white space, with a comment between. -/
def interspersed : List Node :=
  [.text "x", (Element.module "a").toNode, .text " ", .comment "c", .text "  ", (Element.module "a").toNode,
    .text "   ", (Element.module "b").toNode]

/-- White space stays in front of a comment and in front of an entry that stays. -/
theorem removeMatching_exact_interspersed :
    apart interspersed ∧
      (removeMatching [Identity.module.same] "modules" [.module "a"] interspersed).children =
        [.text "x", .text " ", .comment "c", .text "   ", (Element.module "b").toNode] := by
  have hapart : apart interspersed := by simp [apart, interspersed, Node.isText, Element.toNode]
  exact ⟨hapart, ((removeMatching_exact _ _ _ _).2.2.2.2 hapart).trans (by rfl)⟩

end Manifest
