import Manifest.Proofs.Document.Changed
import Manifest.Proofs.Xml.Within

/-! Texts that stand side by side, as they do once what was between them is gone. They are written as one
text, so a document is written like the one in which they are one. -/

set_option autoImplicit false

namespace Manifest

open Xml (Scope qualify qualifyNodes joinText isDocumentText)

/-- Puts a node in front of others, as one with the text that they may begin with. -/
def Node.join : Node → List Node → List Node
  | .text value, .text after :: rest => .text (value ++ after) :: rest
  | node, rest => node :: rest

/-- Nodes with the texts that stand side by side made one. -/
def joinTexts (nodes : List Node) : List Node :=
  nodes.foldr Node.join []

@[simp] theorem joinTexts_nil : joinTexts [] = [] := rfl

theorem joinTexts_cons (node : Node) (rest : List Node) :
    joinTexts (node :: rest) = node.join (joinTexts rest) := rfl

theorem Node.join_of_not_isText {node : Node} (h : node.isText = false) (rest : List Node) :
    node.join rest = node :: rest := by
  cases node <;> first | rfl | cases h

theorem Node.join_text_cases (value : String) (nodes : List Node) :
    (∃ after rest, nodes = .text after :: rest ∧
        (Node.text value).join nodes = .text (value ++ after) :: rest) ∨
      (∀ node ∈ nodes.head?, node.isText = false) ∧
        (Node.text value).join nodes = .text value :: nodes := by
  cases nodes with
  | nil => exact Or.inr ⟨nofun, rfl⟩
  | cons node rest =>
    cases node with
    | text after => exact Or.inl ⟨after, rest, rfl, rfl⟩
    | _ => exact Or.inr ⟨by rintro _ ⟨⟩; rfl, rfl⟩

theorem joinTexts_append_node (front : List Node) {node : Node} (hn : node.isText = false)
    (back : List Node) :
    joinTexts (front ++ node :: back) = joinTexts front ++ node :: joinTexts back := by
  induction front with
  | nil => exact Node.join_of_not_isText hn _
  | cons x front ih =>
    rw [List.cons_append, joinTexts_cons, joinTexts_cons, ih]
    cases x with
    | text value =>
      rcases Node.join_text_cases value (joinTexts front) with ⟨after, rest, hrest, hjoin⟩ | ⟨hhead, hjoin⟩
      · rw [hjoin, hrest]
        rfl
      · rw [hjoin]
        cases hf : joinTexts front with
        | nil => cases node <;> first | rfl | cases hn
        | cons y rest =>
          rw [hf] at hhead
          cases y <;> first | rfl | cases hhead _ rfl
    | _ => rfl

/-- A block of elements keeps what is before it from what is behind it. -/
theorem joinTexts_append_elements (front : List Node) {block : List Element} (hblock : block ≠ [])
    (back : List Node) :
    joinTexts (front ++ (block.map Element.toNode ++ back)) =
      joinTexts front ++ (block.map Element.toNode ++ joinTexts back) := by
  obtain ⟨e, block, rfl⟩ := List.exists_cons_of_ne_nil hblock
  rw [List.map_cons, List.cons_append, joinTexts_append_node front rfl, List.cons_append]
  congr 2
  clear hblock
  induction block with
  | nil => rfl
  | cons x block ih =>
    rw [List.map_cons, List.cons_append, joinTexts_cons, Node.join_of_not_isText rfl, ih,
      List.cons_append]

theorem apart_joinTexts (nodes : List Node) : apart (joinTexts nodes) := by
  induction nodes with
  | nil => exact .nil
  | cons node rest ih =>
    rw [joinTexts_cons]
    cases node with
    | text value =>
      rcases Node.join_text_cases value (joinTexts rest) with ⟨after, tail, htail, hjoin⟩ | ⟨hhead, hjoin⟩
      · rw [hjoin]
        rw [htail] at ih
        exact List.isChain_cons.mpr ⟨fun x hx _ => (List.isChain_cons.mp ih).1 x hx rfl,
          (List.isChain_cons.mp ih).2⟩
      · rw [hjoin]
        exact List.isChain_cons.mpr ⟨fun x hx _ => hhead x hx, ih⟩
    | _ => exact List.isChain_cons.mpr ⟨fun _ _ => nofun, ih⟩

theorem elementsOf_joinTexts (nodes : List Node) : elementsOf (joinTexts nodes) = elementsOf nodes := by
  induction nodes with
  | nil => rfl
  | cons node rest ih =>
    rw [joinTexts_cons]
    cases node with
    | text value =>
      rcases Node.join_text_cases value (joinTexts rest) with ⟨after, tail, htail, hjoin⟩ | ⟨-, hjoin⟩
      · rw [hjoin, elementsOf_text_cons, elementsOf_text_cons, ← ih, htail]
        rfl
      · rw [hjoin, elementsOf_text_cons, elementsOf_text_cons, ih]
    | element tag children =>
      rw [Node.join_of_not_isText rfl, elementsOf_element_cons, elementsOf_element_cons, ih]
    | _ => exact ih

/-- What holds of all nodes holds of them with their texts joined, if it passes to a joined text. -/
theorem forall_joinTexts {P : Node → Prop} (hjoin : ∀ a b, P (.text a) → P (.text b) → P (.text (a ++ b)))
    {nodes : List Node} (h : ∀ node ∈ nodes, P node) : ∀ node ∈ joinTexts nodes, P node := by
  induction nodes with
  | nil => exact nofun
  | cons node rest ih =>
    have hnode := h node List.mem_cons_self
    have ih := ih fun x hx => h x (List.mem_cons_of_mem _ hx)
    rw [joinTexts_cons]
    cases node with
    | text value =>
      rcases Node.join_text_cases value (joinTexts rest) with ⟨after, tail, htail, he⟩ | ⟨-, he⟩
      · rw [he]
        rw [htail] at ih
        intro x hx
        rcases List.mem_cons.mp hx with rfl | hx
        · exact hjoin value after hnode (ih _ List.mem_cons_self)
        · exact ih x (List.mem_cons_of_mem _ hx)
      · rw [he]
        exact List.forall_mem_cons.mpr ⟨hnode, ih⟩
    | _ => exact List.forall_mem_cons.mpr ⟨hnode, ih⟩

theorem isBlank_joinTexts {nodes : List Node} (h : ∀ node ∈ nodes, node.isBlank = true) :
    ∀ node ∈ joinTexts nodes, node.isBlank = true := by
  refine forall_joinTexts (fun a b ha hb => ?_) h
  rw [Node.isBlank, Text.isBlankText, String.toList_append, List.all_append]
  rw [Node.isBlank, Text.isBlankText] at ha hb
  rw [ha, hb]
  rfl

theorem ordinaries_joinTexts {nodes : List Node} (h : ordinaries nodes) :
    ordinaries (joinTexts nodes) :=
  ordinaries_iff.mpr (forall_joinTexts (fun _ _ _ _ => trivial) (ordinaries_iff.mp h))

theorem knownAll_joinTexts {origin : Scope} {nodes : List Node} (h : knownAll origin nodes) :
    knownAll origin (joinTexts nodes) := by
  refine knownAll_iff.mpr (forall_joinTexts (fun a b ha _ => ?_) (knownAll_iff.mp h))
  rw [Node.known, ne_eq, String.append_eq_empty_iff]
  exact fun he => ha he.1

/-- A change of nodes that leaves texts as they are can be made before or after. -/
theorem map_joinTexts {f : Node → Node} (htext : ∀ value, f (.text value) = .text value)
    (hnode : ∀ node : Node, (f node).isText = node.isText) (nodes : List Node) :
    (joinTexts nodes).map f = joinTexts (nodes.map f) := by
  induction nodes with
  | nil => rfl
  | cons node rest ih =>
    rw [joinTexts_cons, List.map_cons, joinTexts_cons, ← ih]
    cases hn : node.isText with
    | false => rw [Node.join_of_not_isText hn, Node.join_of_not_isText ((hnode node).trans hn), List.map_cons]
    | true =>
      obtain ⟨value, rfl⟩ : ∃ value, node = .text value := by
        cases node <;> first | exact ⟨_, rfl⟩ | cases hn
      rw [htext]
      rcases Node.join_text_cases value (joinTexts rest) with ⟨after, tail, htail, he⟩ | ⟨hhead, he⟩
      · rw [he, htail, List.map_cons, List.map_cons, htext, htext]
        rfl
      · rw [he, List.map_cons, htext]
        cases hr : joinTexts rest with
        | nil => rfl
        | cons y tail =>
          rw [hr] at hhead
          have hy := (hnode y).trans (hhead y rfl)
          rw [List.map_cons]
          cases hfy : f y with
          | text _ => rw [hfy] at hy; cases hy
          | _ => rfl

theorem depthOf_joinTexts (nodes : List Node) : depthOf (joinTexts nodes) = depthOf nodes := by
  induction nodes with
  | nil => rfl
  | cons node rest ih =>
    rw [joinTexts_cons, depthOf, ← ih]
    cases node with
    | text value =>
      rcases Node.join_text_cases value (joinTexts rest) with ⟨after, tail, htail, he⟩ | ⟨-, he⟩
      · rw [he, htail]
        simp [depthOf, Node.depth]
      · rw [he, depthOf]
    | _ => rw [Node.join_of_not_isText rfl, depthOf]

/-- A node that is no text stays the last one. -/
theorem getLast?_joinTexts_node (front : List Node) {node : Node} (hn : node.isText = false) :
    (joinTexts (front ++ [node])).getLast? = some node := by
  rw [joinTexts_append_node front hn, joinTexts_nil, List.getLast?_concat]

/-- The text at the end is the end of the last text. -/
theorem exists_joinTexts_text (front : List Node) (value : String) :
    ∃ before text, joinTexts (front ++ [.text value]) = before ++ [.text (text ++ value)] := by
  induction front with
  | nil => exact ⟨[], "", by rw [List.nil_append, String.empty_append]; rfl⟩
  | cons node front ih =>
    obtain ⟨before, text, heq⟩ := ih
    rw [List.cons_append, joinTexts_cons, heq]
    cases node with
    | text first =>
      cases before with
      | nil => exact ⟨[], first ++ text, by rw [String.append_assoc]; rfl⟩
      | cons x before =>
        cases x with
        | text second => exact ⟨.text (first ++ second) :: before, text, rfl⟩
        | _ => exact ⟨.text first :: _ :: before, text, rfl⟩
    | _ => exact ⟨_ :: before, text, rfl⟩

/-- The last node is no white space if it was none before. -/
theorem isBlank_getLast?_joinTexts {nodes : List Node}
    (h : ∀ node ∈ nodes.getLast?, node.isBlank = false) :
    ∀ node ∈ (joinTexts nodes).getLast?, node.isBlank = false := by
  rcases List.eq_nil_or_concat nodes with rfl | ⟨front, last, rfl⟩
  · exact nofun
  rw [List.concat_eq_append] at h ⊢
  have hlast : last.isBlank = false := h last (by simp)
  cases htext : last.isText with
  | false =>
    rw [getLast?_joinTexts_node front htext]
    rintro _ ⟨⟩
    exact hlast
  | true =>
    obtain ⟨value, rfl⟩ : ∃ value, last = .text value := by
      cases last <;> first | exact ⟨_, rfl⟩ | cases htext
    obtain ⟨before, text, heq⟩ := exists_joinTexts_text front value
    rw [heq, List.getLast?_concat]
    rintro _ ⟨⟩
    rw [Node.isBlank, Text.isBlankText] at hlast ⊢
    rw [String.toList_append, List.all_append, hlast, Bool.and_false]

/-! They are written as before. -/

theorem joinText_joinText (a b : String) (ms : List Xml.Markup) :
    joinText a (joinText b ms) = joinText (a ++ b) ms := by
  cases ms with
  | nil => rfl
  | cons m ms =>
    cases m with
    | text value =>
      rw [joinText, joinText, joinText, String.append_assoc]
    | _ => rfl

theorem isDocumentText_append (a b : String) :
    isDocumentText (a ++ b) = (isDocumentText a && isDocumentText b) := by
  rw [isDocumentText, isDocumentText, isDocumentText, String.toList_append, List.all_append]

theorem qualifyNodes_text_cons (scope : Scope) (parent : Option String) (next : Nat) (value : String)
    (rest : List Node) :
    qualifyNodes scope parent next (.text value :: rest) =
      if isDocumentText value then
        (qualifyNodes scope parent next rest).map fun x => (joinText value x.1, x.2)
      else none := by
  rw [qualifyNodes, qualify]
  cases isDocumentText value with
  | true =>
    rw [if_pos rfl, if_pos rfl]
    dsimp only
    cases qualifyNodes scope parent next rest <;> rfl
  | false => rfl

theorem qualifyNodes_joinTexts (scope : Scope) (parent : Option String) (next : Nat)
    (nodes : List Node) :
    qualifyNodes scope parent next (joinTexts nodes) = qualifyNodes scope parent next nodes := by
  induction nodes generalizing next with
  | nil => rfl
  | cons node rest ih =>
    rw [joinTexts_cons]
    cases node with
    | text value =>
      rw [qualifyNodes_text_cons, ← ih]
      rcases Node.join_text_cases value (joinTexts rest) with ⟨after, tail, htail, he⟩ | ⟨-, he⟩
      · rw [he, htail, qualifyNodes_text_cons, qualifyNodes_text_cons, isDocumentText_append]
        cases isDocumentText value <;> cases isDocumentText after <;>
          simp [Option.map_map, Function.comp_def, joinText_joinText]
      · rw [he, qualifyNodes_text_cons]
    | _ =>
      rw [Node.join_of_not_isText rfl, qualifyNodes, qualifyNodes]
      simp only [ih]

theorem settledAll_text_cons (scope : Scope) (parent : Option String) (next : Nat) (value : String)
    (rest : List Node) :
    settledAll scope parent next (.text value :: rest) =
      (!isDocumentText value || settledAll scope parent next rest) := by
  rw [settledAll, qualify, Node.settled.eq_def]
  cases isDocumentText value <;> rfl

theorem settledAll_joinTexts (scope : Scope) (parent : Option String) (next : Nat)
    (nodes : List Node) :
    settledAll scope parent next (joinTexts nodes) = settledAll scope parent next nodes := by
  induction nodes generalizing next with
  | nil => rfl
  | cons node rest ih =>
    rw [joinTexts_cons]
    cases node with
    | text value =>
      rw [settledAll_text_cons, ← ih]
      rcases Node.join_text_cases value (joinTexts rest) with ⟨after, tail, htail, he⟩ | ⟨-, he⟩
      · rw [he, htail, settledAll_text_cons, settledAll_text_cons, isDocumentText_append, Bool.not_and,
          Bool.or_assoc]
      · rw [he, settledAll_text_cons]
    | _ =>
      rw [Node.join_of_not_isText rfl, settledAll, settledAll]
      simp only [ih]

/-! The whole tree with some children of an element in it joined. -/

/-- Whether two nodes are written alike wherever they stand. -/
def Node.Alike (x y : Node) : Prop :=
  ∀ scope parent next, qualify scope parent next x = qualify scope parent next y ∧
    x.settled scope parent next = y.settled scope parent next

/-- Whether some nodes are written alike wherever they stand. -/
def AlikeAll (a b : List Node) : Prop :=
  ∀ scope parent next, qualifyNodes scope parent next a = qualifyNodes scope parent next b ∧
    settledAll scope parent next a = settledAll scope parent next b

theorem alikeAll_joinTexts (nodes : List Node) : AlikeAll (joinTexts nodes) nodes :=
  fun scope parent next =>
    ⟨qualifyNodes_joinTexts scope parent next nodes, settledAll_joinTexts scope parent next nodes⟩

theorem AlikeAll.element {a b : List Node} (h : AlikeAll a b) (tag : Tag) :
    (Node.element tag a).Alike (.element tag b) := by
  intro scope parent next
  rw [qualify, qualify, Node.settled, Node.settled]
  cases Xml.qualifyTag scope parent next tag with
  | none => exact ⟨rfl, rfl⟩
  | some w =>
    obtain ⟨hqualify, hsettled⟩ := h w.scope w.uri w.next
    simp only [hqualify, hsettled, and_self]

theorem Node.Alike.append {x y : Node} (h : x.Alike y) (front back : List Node) :
    AlikeAll (front ++ x :: back) (front ++ y :: back) := by
  induction front with
  | nil =>
    intro scope parent next
    obtain ⟨hqualify, hsettled⟩ := h scope parent next
    rw [List.nil_append, List.nil_append, qualifyNodes, qualifyNodes, settledAll, settledAll, hqualify,
      hsettled]
    exact ⟨rfl, rfl⟩
  | cons node front ih =>
    intro scope parent next
    rw [List.cons_append, List.cons_append, qualifyNodes, qualifyNodes, settledAll, settledAll]
    simp only [(ih scope parent _).1, (ih scope parent _).2, and_self]

theorem AlikeAll.setAt {a b : List Node} (h : AlikeAll a b) {e x : Element} {position : Position}
    (hat : e.at? position = some x) :
    (e.setAt position a).toNode.Alike (e.setAt position b).toNode := by
  induction position generalizing e with
  | nil => exact h.element e.tag
  | cons rank rest ih =>
    obtain ⟨front, c, back, he, hrank, hc⟩ := Element.at?_cons hat
    rw [he, Element.setAt_cons hrank, Element.setAt_cons hrank]
    exact ((ih hc).append front back).element e.tag

end Manifest
