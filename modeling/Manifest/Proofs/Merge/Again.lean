import Manifest.Proofs.Merge.Sharing

/-! Carrying what was carried before. White space does not count for what is carried. If the entries that a
source begins with are there already and the others are new, then all that stands behind the former is carried,
but with it the comments that stand right in front of it. -/

set_option autoImplicit false

namespace Manifest

/-! White space. -/

theorem leadingComments_filter (before : List Node) :
    leadingComments (before.filter (!·.isBlank)) = leadingComments before := by
  induction before using List.reverseRec with
  | nil => rfl
  | append_singleton before node ih =>
    rw [List.filter_append, List.filter_singleton]
    cases hb : node.isBlank with
    | true =>
      have hc : node.isComment = false := by cases node <;> first | rfl | cases hb
      rw [Bool.not_true, cond_false, List.append_nil, ih, leadingComments_concat, hb, hc]
      exact (List.append_nil _).symm
    | false =>
      rw [Bool.not_false, cond_true, leadingComments_concat, leadingComments_concat, ih]

/-- Without white space the same entries have the same nodes in front of them, but for white space. -/
theorem approaches_filter (before nodes : List Node) :
    approaches (before.filter (!·.isBlank)) (nodes.filter (!·.isBlank)) =
      (approaches before nodes).map fun x => (x.1.filter (!·.isBlank), x.2) := by
  induction nodes generalizing before with
  | nil => rfl
  | cons node rest ih =>
    have hnext := ih (before ++ [node])
    rw [List.filter_append, List.filter_singleton] at hnext
    rw [List.filter_cons]
    cases hb : node.isBlank with
    | true =>
      have he : node.element? = none := by cases node <;> first | rfl | cases hb
      rw [hb, Bool.not_true, cond_false, List.append_nil] at hnext
      rw [Bool.not_true, if_neg (by simp), hnext, approaches_cons, he]
    | false =>
      rw [hb, Bool.not_false, cond_true] at hnext
      rw [Bool.not_false, if_pos rfl, approaches_cons, approaches_cons]
      cases node.element? with
      | none => exact hnext
      | some e => rw [List.map_cons, hnext]

theorem newcomers_map_key {α β : Type} {same : Match} {key : α → Element} {key' : β → Element}
    {f : α → β} (hf : ∀ a, key' (f a) = key a) (present : List Element) (cs : List α) :
    newcomers same key' present (cs.map f) = (newcomers same key present cs).map f := by
  induction cs generalizing present with
  | nil => rfl
  | cons c cs ih =>
    rw [List.map_cons, newcomers_cons, newcomers_cons, hf]
    split
    · exact ih present
    · rw [List.map_cons, ih]

/-- The entries that a section lacks of a source, with the comments right above them. -/
def carriedBlock (same : Match) (source children : List Node) : List Node :=
  (carriedOf same source children).flatMap carriedPiece

theorem elementsOf_carriedBlock (same : Match) (source children : List Node) :
    elementsOf (carriedBlock same source children) =
      newcomers same id (elementsOf children) (elementsOf source) := by
  rw [carriedBlock, elementsOf_flatMap_carriedPiece, map_snd_carriedOf]

/-- The nodes of a section with what it lacks of a source behind the last one that is not blank. -/
def carriedInto (same : Match) (source children : List Node) : List Node :=
  withBlock children (endPosition children) (carriedBlock same source children)

theorem children_carry (same : Match) (owner : String) (source children : List Node) :
    (carry same owner source children).children = carriedInto same source children :=
  (carry_eq same owner source children).2

theorem carriedInto_nil (same : Match) (children : List Node) : carriedInto same [] children = children := by
  rw [carriedInto, carriedBlock, carriedOf, approaches_nil, newcomers_nil, List.flatMap_nil, withBlock_nil]

/-- What is carried is the same without the white space of the source. -/
theorem carriedBlock_filter (same : Match) (source children : List Node) :
    carriedBlock same (source.filter (!·.isBlank)) children = carriedBlock same source children := by
  have happroaches := approaches_filter [] source
  rw [List.filter_nil] at happroaches
  rw [carriedBlock, carriedOf, happroaches, newcomers_map_key (fun _ => rfl), List.flatMap_map, carriedBlock,
    carriedOf]
  congr 1
  funext x
  rw [carriedPiece, carriedPiece, leadingComments_filter]

/-! A block that was carried. -/

/-- Nodes that can have been carried: entries with comments above them. -/
structure IsCarried (nodes : List Node) : Prop where
  kinds : ∀ node ∈ nodes, node.isComment = true ∨ node.isElement = true
  last : ∀ node ∈ nodes.getLast?, node.isElement = true

theorem IsCarried.nil : IsCarried [] :=
  ⟨nofun, nofun⟩

theorem IsCarried.of_cons {node : Node} {nodes : List Node} (h : IsCarried (node :: nodes)) :
    IsCarried nodes := by
  refine ⟨fun x hx => h.kinds x (List.mem_cons_of_mem node hx), fun x hx => h.last x ?_⟩
  cases nodes with
  | nil => cases hx
  | cons y nodes => rwa [List.getLast?_cons_cons]

theorem IsCarried.filter_eq_self {nodes : List Node} (h : IsCarried nodes) :
    nodes.filter (!·.isBlank) = nodes := by
  refine List.filter_eq_self.mpr fun node hn => ?_
  rcases h.kinds node hn with hk | hk <;> cases node <;> first | rfl | cases hk

theorem isCarried_carriedBlock (same : Match) (source children : List Node) :
    IsCarried (carriedBlock same source children) := by
  rw [carriedBlock]
  generalize carriedOf same source children = xs
  refine ⟨fun node hn => ?_, fun node hn => ?_⟩
  · obtain ⟨x, -, hn⟩ := List.mem_flatMap.mp hn
    rcases List.mem_append.mp hn with hn | hn
    · exact Or.inl (isComment_of_mem_leadingComments hn)
    · rw [List.mem_singleton.mp hn]
      exact Or.inr rfl
  · rcases List.eq_nil_or_concat xs with rfl | ⟨front, x, rfl⟩
    · cases hn
    · rw [List.concat_eq_append, List.flatMap_append, List.flatMap_singleton, carriedPiece,
        ← List.append_assoc, List.getLast?_concat, Option.mem_some] at hn
      rw [← hn]
      rfl

theorem IsCarried.eq_nil {nodes : List Node} (h : IsCarried nodes) (hno : elementsOf nodes = []) :
    nodes = [] := by
  rcases List.eq_nil_or_concat nodes with rfl | ⟨front, last, rfl⟩
  · rfl
  · have hlast := h.last last (by rw [List.concat_eq_append, List.getLast?_concat]; rfl)
    rw [List.concat_eq_append, elementsOf_append, List.append_eq_nil_iff] at hno
    cases last with
    | element tag children => cases hno.2
    | _ => cases hlast

/-- All of the nodes goes with the entries among them, and with the first one the comments in front. -/
theorem IsCarried.flatMap_approaches {nodes : List Node} (h : IsCarried nodes) (before : List Node) :
    (approaches before nodes).flatMap carriedPiece =
      if nodes = [] then [] else leadingComments before ++ nodes := by
  induction nodes generalizing before with
  | nil => rfl
  | cons node rest ih =>
    have hrest := ih h.of_cons (before ++ [node])
    rw [if_neg (List.cons_ne_nil node rest)]
    cases node with
    | element tag children =>
      have hnone : leadingComments (before ++ [.element tag children]) = [] :=
        leadingComments_concat before _
      have hall : (approaches (before ++ [.element tag children]) rest).flatMap carriedPiece = rest := by
        rw [hrest, hnone, List.nil_append]
        split
        · next hno => exact hno.symm
        · rfl
      rw [approaches_cons]
      dsimp only [Node.element?]
      rw [List.flatMap_cons, hall, carriedPiece, List.append_assoc]
      rfl
    | comment value =>
      have hlast : leadingComments (before ++ [.comment value]) =
          leadingComments before ++ [.comment value] := leadingComments_concat before _
      have hmore : rest ≠ [] := by
        rintro rfl
        cases h.last _ rfl
      rw [approaches_cons]
      dsimp only [Node.element?]
      rw [hrest, if_neg hmore, hlast, List.append_assoc]
      rfl
    | text value => rcases h.kinds _ List.mem_cons_self with hk | hk <;> cases hk
    | instruction target value => rcases h.kinds _ List.mem_cons_self with hk | hk <;> cases hk

theorem newcomers_append_of_any {α : Type} {same : Match} {key : α → Element} {present : List Element}
    {front : List α} (h : ∀ c ∈ front, present.any (same · (key c)) = true) (back : List α) :
    newcomers same key present (front ++ back) = newcomers same key present back := by
  induction front with
  | nil => rfl
  | cons c front ih =>
    rw [List.cons_append, newcomers_cons, if_pos (h c List.mem_cons_self)]
    exact ih fun d hd => h d (List.mem_cons_of_mem c hd)

/--
From a section in which a block was carried all of the block is carried again into the one that it was made
from. If comments stood right in front of the block, they are taken for the first entry's and come with it.
-/
theorem IsCarried.carriedBlock_eq {same : Match} {source front block children : List Node}
    (h : IsCarried block) (hsource : source.filter (!·.isBlank) = front ++ block)
    (hfront : ∀ e ∈ elementsOf front, (elementsOf children).any (same · e) = true)
    (hblock : newcomers same id (elementsOf children) (elementsOf block) = elementsOf block) :
    carriedBlock same source children =
      if block = [] then [] else leadingComments front ++ block := by
  have hentries : ∀ x ∈ approaches [] front, (elementsOf children).any (same · x.2) = true := by
    intro x hx
    refine hfront x.2 ?_
    rw [← map_snd_approaches [] front]
    exact List.mem_map_of_mem hx
  have hnew : newcomers same Prod.snd (elementsOf children) (approaches front block) =
      approaches front block := by
    refine (newcomers_sublist _ _).eq_of_length ?_
    rw [← List.length_map Prod.snd, newcomers_map, map_snd_approaches, hblock, ← map_snd_approaches front,
      List.length_map]
  rw [← carriedBlock_filter, hsource, carriedBlock, carriedOf, approaches_append,
    newcomers_append_of_any hentries, List.nil_append, hnew, h.flatMap_approaches]

end Manifest
