import Manifest.Proofs.Xml.Front
import Manifest.Proofs.Xml.Native
import Mathlib.Data.List.Chain

/-! Documents that were loaded. Every element of one has a tag that was read in the scope of the elements
around it, no element holds two texts side by side, and elements are not nested too deeply. -/

set_option autoImplicit false

namespace Manifest

open Xml (Scope)
open Xml.Markup (rawAttribute)

/-- Whether a node is a piece of text. -/
def Node.isText : Node → Bool
  | .text _ => true
  | _ => false

/-- Whether no two texts stand side by side. -/
def apart (nodes : List Node) : Prop :=
  nodes.IsChain fun a b => a.isText = true → b.isText = false

mutual

/-- Whether a node could have been read inside a scope. -/
def Node.readIn (outer : Scope) : Node → Prop
  | .element tag children =>
    (∃ (name : String) (attributes : List (String × String)), Xml.isRawName name.toList = true ∧
      (∀ a ∈ attributes, Xml.isRawName a.1.toList = true) ∧ (attributes.map Prod.fst).Nodup ∧
      tag = (Xml.resolveTag [] outer name.toList (attributes.map rawAttribute)).tag ∧
      readsIn (Xml.resolveTag [] outer name.toList (attributes.map rawAttribute)).scope children) ∧
    apart children
  | .text value => value ≠ ""
  | .comment _ => True
  | .instruction _ value => Xml.skipSpace value.toList = value.toList

/-- Whether some nodes could have been read inside a scope. -/
def readsIn (outer : Scope) : List Node → Prop
  | [] => True
  | node :: rest => node.readIn outer ∧ readsIn outer rest

end

mutual

/--
Whether what is kept verbatim in a node has no line end but line feeds. Only an entity can bring others
into a document.
-/
def Node.calm : Node → Prop
  | .element _ children => calmAll children
  | .text _ => True
  | .comment value => '\r' ∉ value.toList
  | .instruction _ value => '\r' ∉ value.toList

/-- Whether what is kept verbatim in some nodes has no line end but line feeds. -/
def calmAll : List Node → Prop
  | [] => True
  | node :: rest => node.calm ∧ calmAll rest

end

theorem calmAll_iff {nodes : List Node} : calmAll nodes ↔ ∀ node ∈ nodes, node.calm := by
  induction nodes with
  | nil => simp [calmAll]
  | cons node rest ih => simp [calmAll, ih]

mutual

/-- How many elements are nested in a node. -/
def Node.depth : Node → Nat
  | .element _ children => depthOf children + 1
  | _ => 0

/-- How many elements are nested in the deepest of some nodes. -/
def depthOf : List Node → Nat
  | [] => 0
  | node :: rest => max node.depth (depthOf rest)

end

theorem depthOf_le_iff {nodes : List Node} {n : Nat} :
    depthOf nodes ≤ n ↔ ∀ node ∈ nodes, node.depth ≤ n := by
  induction nodes with
  | nil => simp [depthOf]
  | cons node rest ih => simp [depthOf, ih]

theorem readsIn_iff {outer : Scope} {nodes : List Node} :
    readsIn outer nodes ↔ ∀ node ∈ nodes, node.readIn outer := by
  induction nodes with
  | nil => simp [readsIn]
  | cons node rest ih => simp [readsIn, ih]

theorem apart_reverse {nodes : List Node} (h : apart nodes) : apart nodes.reverse := by
  rw [apart, List.isChain_reverse]
  refine h.imp fun a b hab hb => ?_
  cases ha : a.isText with
  | false => rfl
  | true => rw [hab ha] at hb; cases hb

namespace Xml

/-- The scope inside the innermost of some open elements. -/
def scopeOf (stack : List OpenElement) : Scope :=
  (stack.head?.map (·.scope)).getD []

/-- Whether open elements were read one inside the other. -/
def stackRead : List OpenElement → Prop
  | [] => True
  | top :: below =>
    (∃ (name : String) (attributes : List (String × String)), isRawName name.toList = true ∧
      (∀ a ∈ attributes, isRawName a.1.toList = true) ∧ (attributes.map Prod.fst).Nodup ∧
      top.tag = (resolveTag [] (scopeOf below) name.toList (attributes.map rawAttribute)).tag ∧
      top.scope =
        (resolveTag [] (scopeOf below) name.toList (attributes.map rawAttribute)).scope) ∧
    readsIn top.scope top.children ∧ apart top.children ∧ stackRead below

/-- What holds of a document while it is read. -/
structure Progress.IsRead (p : Progress) : Prop where
  stack : stackRead p.stack
  done : readsIn [] p.done

theorem apart_cons {node : Node} {nodes : List Node} (h : apart nodes)
    (hn : node.isText = true → ∀ first ∈ nodes.head?, first.isText = false) : apart (node :: nodes) :=
  List.isChain_cons.mpr ⟨fun first hfirst htext => hn htext first hfirst, h⟩

theorem readsIn_addNode {scope : Scope} {children : List Node} (h : readsIn scope children)
    (ha : apart children) {node : Node} (hn : node.isText = true ∨ node.readIn scope) :
    readsIn scope (addNode node children) ∧ apart (addNode node children) := by
  rw [addNode.eq_def]
  split
  · next value before rest =>
    refine ⟨⟨?_, h.2⟩, apart_cons (List.isChain_cons.mp ha).2 fun _ first hfirst => ?_⟩
    · rw [Node.readIn, ne_eq, String.append_eq_empty_iff]
      exact fun he => h.1 he.1
    · exact (List.isChain_cons.mp ha).1 first hfirst rfl
  · next value hno =>
    split
    · exact ⟨h, ha⟩
    · next hne =>
      refine ⟨⟨by rwa [Node.readIn, ne_eq, ← String.isEmpty_iff], h⟩, apart_cons ha ?_⟩
      intro _ first hfirst
      cases children with
      | nil => cases hfirst
      | cons node rest =>
        obtain rfl : node = first := Option.some.inj hfirst
        cases node with
        | text before => exact absurd rfl (hno before rest)
        | _ => rfl
  · next hno _ =>
    have hnode : node.isText = false := by
      cases node with
      | text value => exact absurd rfl (hno value)
      | _ => rfl
    refine ⟨⟨?_, h⟩, apart_cons ha fun htext => ?_⟩
    · rcases hn with hn | hn
      · rw [hnode] at hn
        cases hn
      · exact hn
    · rw [hnode] at htext
      cases htext

theorem isRead_add {p : Progress} (hp : p.IsRead) {node : Node}
    (hn : (p.stack ≠ [] ∧ node.isText = true) ∨ node.readIn (scopeOf p.stack)) :
    (p.add node).IsRead := by
  obtain ⟨stack, done, last⟩ := p
  rw [Progress.add]
  cases stack with
  | nil =>
    refine ⟨trivial, ?_, hp.done⟩
    rcases hn with hn | hn
    · exact absurd rfl hn.1
    · exact hn
  | cons top below =>
    obtain ⟨htag, hchildren, ha, hbelow⟩ := hp.stack
    obtain ⟨hread, hapart⟩ := readsIn_addNode hchildren ha (hn.imp And.right id)
    exact ⟨⟨htag, hread, hapart, hbelow⟩, hp.done⟩

theorem isRead_remark {p : Progress} (hp : p.IsRead) (remarks : List Remark) :
    (p.remark remarks).IsRead :=
  ⟨hp.stack, hp.done⟩

theorem isRead_close {p q : Progress} (hp : p.IsRead) (h : p.close = some q) : q.IsRead := by
  obtain ⟨stack, done, last⟩ := p
  cases stack with
  | nil => cases h
  | cons top below =>
    cases h
    obtain ⟨⟨name, attributes, hname, hattributes, hnodup, htag, hscope⟩, hchildren, ha, hbelow⟩ :=
      hp.stack
    have hbase : (⟨below, done, last⟩ : Progress).IsRead := ⟨hbelow, hp.done⟩
    refine isRead_add hbase (Or.inr ⟨⟨name, attributes, hname, hattributes, hnodup, htag, ?_⟩,
      apart_reverse ha⟩)
    rw [hscope, readsIn_iff] at hchildren
    rw [readsIn_iff]
    exact fun node hn => hchildren node (List.mem_reverse.mp hn)

/-- The attributes that a document type gives are read as if they stood in the tag. -/
theorem resolveTag_rules (rules : List AttributeRule) (outer : Scope) (name : List Char)
    (attributes : List (List Char × List Char)) :
    resolveTag rules outer name attributes =
      resolveTag [] outer name (withDefaults rules name attributes) := by
  have hnone : withDefaults [] name (withDefaults rules name attributes) =
      withDefaults rules name attributes := by
    rw [withDefaults]
    simp
  rw [resolveTag, resolveTag, hnone]

theorem mem_withDefaults {rules : List AttributeRule} {element : List Char}
    {attributes : List (List Char × List Char)} (hrules : RulesRead rules)
    (hattributes : ∀ a ∈ attributes, isRawName a.1 = true) :
    ∀ a ∈ withDefaults rules element attributes, isRawName a.1 = true := by
  intro a ha
  rw [withDefaults] at ha
  rcases List.mem_append.mp ha with ha | ha
  · obtain ⟨x, hx, rfl⟩ := List.mem_map.mp ha
    have hname := hattributes x hx
    dsimp only
    split
    · exact hname
    · exact hname
  · obtain ⟨rule, hrule, ha⟩ := List.mem_filterMap.mp ha
    have hname := hrules.named rule (List.mem_filter.mp hrule).1
    split at ha
    · cases ha
    · obtain ⟨value, -, rfl⟩ := Option.map_eq_some_iff.mp ha
      exact hname

/-- The attributes of a tag that are given and those that are added have different names. -/
theorem nodup_withDefaults {rules : List AttributeRule} {element : List Char}
    {attributes : List (List Char × List Char)} (hrules : RulesRead rules)
    (hnodup : (attributes.map Prod.fst).Nodup) :
    ((withDefaults rules element attributes).map Prod.fst).Nodup := by
  have hadded : ∀ (rule : AttributeRule) (a : List Char × List Char),
      (if attributes.any (·.1 == rule.name) then none else rule.value.map (rule.name, ·)) = some a →
      a.1 = rule.name ∧ a.1 ∉ attributes.map Prod.fst := by
    intro rule a ha
    split at ha
    · cases ha
    · next hno =>
      obtain ⟨value, -, rfl⟩ := Option.map_eq_some_iff.mp ha
      refine ⟨rfl, fun hmem => hno ?_⟩
      obtain ⟨x, hx, hname⟩ := List.mem_map.mp hmem
      exact List.any_eq_true.mpr ⟨x, hx, by simpa using hname⟩
  rw [withDefaults, List.map_append, List.nodup_append]
  refine ⟨?_, ?_, ?_⟩
  · rw [List.map_map]
    refine (congrArg List.Nodup (List.map_congr_left fun a _ => ?_)).mp hnodup
    rw [Function.comp_apply]
    dsimp only
    split <;> rfl
  · rw [List.Nodup, List.pairwise_map, List.pairwise_filterMap]
    refine (hrules.distinct.filter _).imp_of_mem fun {r r'} hr hr' hne a ha a' ha' heq => ?_
    have helement : ∀ x ∈ rules.filter (·.element == element), x.element = element := by
      intro x hx
      simpa using (List.mem_filter.mp hx).2
    refine hne ((helement r hr).trans (helement r' hr').symm) ?_
    rw [← (hadded r a ha).1, ← (hadded r' a' ha').1]
    exact heq
  · intro name hgiven name' hadd heq
    obtain ⟨x, hx, rfl⟩ := List.mem_map.mp hadd
    obtain ⟨rule, -, hx⟩ := List.mem_filterMap.mp hx
    refine (hadded rule x hx).2 ?_
    obtain ⟨y, hy, hname⟩ := List.mem_map.mp hgiven
    obtain ⟨z, hz, rfl⟩ := List.mem_map.mp hy
    rw [← heq, ← hname]
    refine List.mem_map.mpr ⟨z, hz, ?_⟩
    dsimp only
    split <;> rfl

/-- One token keeps what has been read readable. -/
theorem isRead_step {rules : List AttributeRule} (hrules : RulesRead rules) {p q : Progress}
    {t : Token} (hp : p.IsRead) (ht : t.isRead) (h : p.step rules t = some q) : q.IsRead := by
  cases t with
  | startTag name attributes closed =>
    rw [Progress.step] at h
    split at h
    · cases h
    · next hc =>
      have hnodup : (attributes.map Prod.fst).Nodup := by
        simp only [Bool.or_eq_true, not_or, Bool.not_eq_true', Bool.not_eq_false] at hc
        have hdistinct := keysDistinct_iff.mp hc.2
        refine List.Nodup.of_map String.ofList ?_
        simpa [Function.comp_def] using hdistinct
      have hraw := @mem_withDefaults rules name attributes hrules ht.2
      have hdistinct := @nodup_withDefaults rules name attributes hrules hnodup
      have hstrings : withDefaults rules name attributes = ((withDefaults rules name attributes).map
          fun a => (String.ofList a.1, String.ofList a.2)).map rawAttribute := by
        rw [List.map_map]
        conv_lhs => rw [← List.map_id (withDefaults rules name attributes)]
        apply List.map_congr_left
        intro a _
        simp [rawAttribute]
      have hopened : (⟨⟨name, (resolveTag rules (scopeOf p.stack) name attributes).tag,
          (resolveTag rules (scopeOf p.stack) name attributes).scope, []⟩ :: p.stack, p.done,
            p.last⟩ : Progress).IsRead := by
        refine ⟨⟨⟨String.ofList name, (withDefaults rules name attributes).map
          fun a => (String.ofList a.1, String.ofList a.2), by simpa using ht.1, ?_, ?_, ?_, ?_⟩,
            trivial, .nil, hp.stack⟩, hp.done⟩
        · intro a ha
          obtain ⟨x, hx, rfl⟩ := List.mem_map.mp ha
          simpa using hraw x hx
        · rw [List.map_map]
          have hstring := hdistinct.map fun _ _ he => String.ofList_injective he
          rwa [List.map_map] at hstring
        · rw [← hstrings, String.toList_ofList, ← resolveTag_rules]
        · rw [← hstrings, String.toList_ofList, ← resolveTag_rules]
      have hremark := isRead_remark hopened
        (resolveTag rules (scopeOf p.stack) name attributes).remarks
      dsimp only at h
      split at h
      · exact isRead_close hremark h
      · cases h
        exact hremark
  | endTag name =>
    rw [Progress.step] at h
    split at h
    · exact isRead_close hp h
    · cases h
  | data pieces =>
    rw [Progress.step] at h
    split at h
    · split at h
      · cases h
        exact hp
      · cases h
    · next hstack =>
      obtain ⟨chars, -, rfl⟩ := Option.map_eq_some_iff.mp h
      exact isRead_add hp (Or.inl ⟨by simpa using hstack, rfl⟩)
  | verbatim chars =>
    rw [Progress.step] at h
    split at h
    · cases h
    · next hstack =>
      cases h
      exact isRead_add hp (Or.inl ⟨by simpa using hstack, rfl⟩)
  | comment chars =>
    cases h
    exact isRead_add hp (Or.inr trivial)
  | instruction target value =>
    cases h
    refine isRead_remark (isRead_add hp (Or.inr ?_)) _
    rw [Node.readIn, String.toList_ofList]
    exact ht

theorem isRead_run {rules : List AttributeRule} (hrules : RulesRead rules) {p q : Progress}
    {ts : List Token} (hp : p.IsRead) (hts : ∀ t ∈ ts, t.isRead)
    (h : Progress.run rules p ts = some q) : q.IsRead := by
  induction ts generalizing p with
  | nil =>
    cases h
    exact hp
  | cons t ts ih =>
    rw [Progress.run] at h
    obtain ⟨p', hstep, hrun⟩ := Option.bind_eq_some_iff.mp h
    exact ih (isRead_step hrules hp (hts t (by simp)) hstep) (fun x hx => hts x (by simp [hx])) hrun

/-- The nodes of a document could have been read outside all elements. -/
theorem readsIn_readDocument {cs : List Char} {contents : Contents}
    (h : readDocument cs = some contents) : readsIn [] contents.nodes := by
  obtain ⟨rules, ts, p, hrules, hts, -, hrun, hfinish⟩ :=
    readLines_tokens (Text.not_mem_unifyLineEnds _) h
  have hp := isRead_run hrules (p := {}) ⟨trivial, trivial⟩ hts hrun
  rw [Progress.finish] at hfinish
  split at hfinish
  · rw [Option.some.injEq] at hfinish
    rw [← hfinish, readsIn_iff]
    intro node hn
    exact readsIn_iff.mp hp.done node (List.mem_reverse.mp hn)
  · cases hfinish

/-! Line ends in what is kept verbatim. -/

/-- Whether what has been read of a document has no line end but line feeds where it is kept verbatim. -/
structure Progress.IsCalm (p : Progress) : Prop where
  stack : ∀ e ∈ p.stack, calmAll e.children
  done : calmAll p.done

theorem calmAll_addNode {node : Node} {children : List Node} (hn : node.calm) (h : calmAll children) :
    calmAll (addNode node children) := by
  rw [addNode.eq_def]
  split
  · exact ⟨trivial, h.2⟩
  · split
    · exact h
    · exact ⟨trivial, h⟩
  · exact ⟨hn, h⟩

theorem isCalm_add {p : Progress} (hp : p.IsCalm) {node : Node} (hn : node.calm) :
    (p.add node).IsCalm := by
  obtain ⟨stack, done, last⟩ := p
  rw [Progress.add]
  cases stack with
  | nil => exact ⟨nofun, hn, hp.done⟩
  | cons top below =>
    obtain ⟨htop, hbelow⟩ := List.forall_mem_cons.mp hp.stack
    exact ⟨List.forall_mem_cons.mpr ⟨calmAll_addNode hn htop, hbelow⟩, hp.done⟩

theorem isCalm_close {p q : Progress} (hp : p.IsCalm) (h : p.close = some q) : q.IsCalm := by
  obtain ⟨stack, done, last⟩ := p
  cases stack with
  | nil => cases h
  | cons top below =>
    cases h
    obtain ⟨htop, hbelow⟩ := List.forall_mem_cons.mp hp.stack
    refine isCalm_add (p := ⟨below, done, last⟩) ⟨hbelow, hp.done⟩ ?_
    rw [Node.calm, calmAll_iff]
    exact fun node hn => calmAll_iff.mp htop node (List.mem_reverse.mp hn)

theorem isCalm_step {rules : List AttributeRule} {p q : Progress} {t : Token} (hp : p.IsCalm)
    (ht : t.isCalm) (h : p.step rules t = some q) : q.IsCalm := by
  cases t with
  | startTag name attributes closed =>
    rw [Progress.step] at h
    split at h
    · cases h
    · have hopened : ∀ (tag : Tag) (scope : Scope) (last : Option Remark),
          (⟨⟨name, tag, scope, []⟩ :: p.stack, p.done, last⟩ : Progress).IsCalm :=
        fun tag scope last => ⟨List.forall_mem_cons.mpr ⟨trivial, hp.stack⟩, hp.done⟩
      dsimp only at h
      split at h
      · exact isCalm_close (hopened _ _ _) h
      · cases h
        exact hopened _ _ _
  | endTag name =>
    rw [Progress.step] at h
    split at h
    · exact isCalm_close hp h
    · cases h
  | data pieces =>
    rw [Progress.step] at h
    split at h
    · split at h
      · cases h
        exact hp
      · cases h
    · obtain ⟨chars, -, rfl⟩ := Option.map_eq_some_iff.mp h
      exact isCalm_add hp trivial
  | verbatim chars =>
    rw [Progress.step] at h
    split at h
    · cases h
    · cases h
      exact isCalm_add hp trivial
  | comment chars =>
    cases h
    refine isCalm_add hp ?_
    rw [Node.calm, String.toList_ofList]
    exact ht
  | instruction target value =>
    cases h
    have hcalm : (Node.instruction (String.ofList target) (String.ofList value)).calm := by
      rw [Node.calm, String.toList_ofList]
      exact ht
    obtain ⟨hstack, hdone⟩ := isCalm_add hp hcalm
    exact ⟨hstack, hdone⟩

theorem isCalm_run {rules : List AttributeRule} {p q : Progress} {ts : List Token} (hp : p.IsCalm)
    (hts : ∀ t ∈ ts, t.isCalm) (h : Progress.run rules p ts = some q) : q.IsCalm := by
  induction ts generalizing p with
  | nil =>
    cases h
    exact hp
  | cons t ts ih =>
    rw [Progress.run] at h
    obtain ⟨p', hstep, hrun⟩ := Option.bind_eq_some_iff.mp h
    exact ih (isCalm_step hp (hts t (by simp)) hstep) (fun x hx => hts x (by simp [hx])) hrun

/-- A document without an internal subset has no line end but line feeds where it is kept verbatim. -/
theorem calmAll_readDocument {cs : List Char} {contents : Contents}
    (h : readDocument cs = some contents) (hsubset : contents.withoutSubset) :
    calmAll contents.nodes := by
  obtain ⟨rules, ts, p, -, -, hts, hrun, hfinish⟩ :=
    readLines_tokens (Text.not_mem_unifyLineEnds _) h
  have hp := isCalm_run (p := {}) ⟨nofun, trivial⟩ (hts hsubset) hrun
  rw [Progress.finish] at hfinish
  split at hfinish
  · rw [Option.some.injEq] at hfinish
    rw [← hfinish, calmAll_iff]
    exact fun node hn => calmAll_iff.mp hp.done node (List.mem_reverse.mp hn)
  · cases hfinish

/-! How deeply the elements of a document are nested. -/

/-- Whether the children of open elements leave room for the elements around them. -/
def stackNested : List OpenElement → Prop
  | [] => True
  | top :: below =>
    (∀ node ∈ top.children, below.length + 1 + node.depth ≤ maxDepth) ∧ stackNested below

/-- Whether nothing of a document that is being read is nested too deeply. -/
structure Progress.IsNested (p : Progress) : Prop where
  stack : stackNested p.stack
  done : ∀ node ∈ p.done, node.depth ≤ maxDepth

theorem mem_addNode {node x : Node} {children : List Node} (h : x ∈ addNode node children) :
    x ∈ children ∨ x = node ∨ x.depth = 0 := by
  rw [addNode.eq_def] at h
  split at h
  · rcases List.mem_cons.mp h with rfl | h
    · exact Or.inr (Or.inr rfl)
    · exact Or.inl (.tail _ h)
  · split at h
    · exact Or.inl h
    · rcases List.mem_cons.mp h with rfl | h
      · exact Or.inr (Or.inl rfl)
      · exact Or.inl h
  · rcases List.mem_cons.mp h with rfl | h
    · exact Or.inr (Or.inl rfl)
    · exact Or.inl h

theorem isNested_add {p : Progress} (hp : p.IsNested) {node : Node}
    (hroom : p.stack.length ≤ maxDepth) (hn : p.stack.length + node.depth ≤ maxDepth) :
    (p.add node).IsNested := by
  obtain ⟨stack, done, last⟩ := p
  rw [Progress.add]
  cases stack with
  | nil =>
    refine ⟨trivial, fun x hx => ?_⟩
    rcases List.mem_cons.mp hx with rfl | hx
    · simpa using hn
    · exact hp.done x hx
  | cons top below =>
    refine ⟨⟨fun x hx => ?_, hp.stack.2⟩, hp.done⟩
    rcases mem_addNode hx with hx | rfl | hx
    · exact hp.stack.1 x hx
    · exact hn
    · rw [hx]
      exact hroom

theorem isNested_close {p q : Progress} (hp : p.IsNested) (hroom : p.stack.length ≤ maxDepth)
    (h : p.close = some q) : q.IsNested := by
  obtain ⟨stack, done, last⟩ := p
  cases stack with
  | nil => cases h
  | cons top below =>
    cases h
    have hdepth : depthOf top.children.reverse ≤ maxDepth - (below.length + 1) := by
      rw [depthOf_le_iff]
      intro node hn
      have hle := hp.stack.1 node (List.mem_reverse.mp hn)
      omega
    rw [List.length_cons] at hroom
    refine isNested_add (p := ⟨below, done, last⟩) ⟨hp.stack.2, hp.done⟩ (by dsimp only; omega) ?_
    rw [Node.depth]
    dsimp only
    omega

theorem length_close {p q : Progress} (h : p.close = some q) :
    q.stack.length + 1 = p.stack.length := by
  obtain ⟨stack, done, last⟩ := p
  cases stack with
  | nil => cases h
  | cons top below =>
    cases h
    cases below <;> rfl

theorem length_add (p : Progress) (node : Node) : (p.add node).stack.length = p.stack.length := by
  rw [Progress.add]
  split <;> simp_all

/-- One token opens no element that is nested too deeply. -/
theorem isNested_step {rules : List AttributeRule} {p q : Progress} {t : Token} (hp : p.IsNested)
    (hroom : p.stack.length ≤ maxDepth) (h : p.step rules t = some q) :
    q.IsNested ∧ q.stack.length ≤ maxDepth := by
  have hadd : ∀ node : Node, node.depth = 0 →
      (p.add node).IsNested ∧ (p.add node).stack.length ≤ maxDepth := by
    intro node hn
    exact ⟨isNested_add hp hroom (by omega), (length_add p node).symm ▸ hroom⟩
  cases t with
  | startTag name attributes closed =>
    rw [Progress.step] at h
    split at h
    · cases h
    · next hc =>
      have hless : p.stack.length < maxDepth := by
        simp only [Bool.or_eq_true, not_or, decide_eq_true_eq] at hc
        omega
      have hopened : ∀ (tag : Tag) (scope : Scope) (last : Option Remark),
          (⟨⟨name, tag, scope, []⟩ :: p.stack, p.done, last⟩ : Progress).IsNested :=
        fun tag scope last => ⟨⟨nofun, hp.stack⟩, hp.done⟩
      dsimp only at h
      split at h
      · have hlength := length_close h
        refine ⟨isNested_close (hopened _ _ _) ?_ h, ?_⟩
        · exact hless
        · simp only [Progress.remark, List.length_cons] at hlength
          omega
      · cases h
        exact ⟨hopened _ _ _, hless⟩
  | endTag name =>
    rw [Progress.step] at h
    split at h
    · have hlength := length_close h
      exact ⟨isNested_close hp hroom h, by omega⟩
    · cases h
  | data pieces =>
    rw [Progress.step] at h
    split at h
    · split at h
      · cases h
        exact ⟨hp, hroom⟩
      · cases h
    · obtain ⟨chars, -, rfl⟩ := Option.map_eq_some_iff.mp h
      exact hadd _ rfl
  | verbatim chars =>
    rw [Progress.step] at h
    split at h
    · cases h
    · cases h
      exact hadd _ rfl
  | comment chars =>
    cases h
    exact hadd _ rfl
  | instruction target value =>
    cases h
    obtain ⟨hnested, hlength⟩ := hadd (.instruction (String.ofList target) (String.ofList value)) rfl
    exact ⟨⟨hnested.stack, hnested.done⟩, hlength⟩

theorem isNested_run {rules : List AttributeRule} {p q : Progress} {ts : List Token}
    (hp : p.IsNested) (hroom : p.stack.length ≤ maxDepth) (h : Progress.run rules p ts = some q) :
    q.IsNested := by
  induction ts generalizing p with
  | nil =>
    cases h
    exact hp
  | cons t ts ih =>
    rw [Progress.run] at h
    obtain ⟨p', hstep, hrun⟩ := Option.bind_eq_some_iff.mp h
    obtain ⟨hnested, hlength⟩ := isNested_step hp hroom hstep
    exact ih hnested hlength hrun

/-- The elements of a document are not nested too deeply. -/
theorem depthOf_readDocument {cs : List Char} {contents : Contents}
    (h : readDocument cs = some contents) : depthOf contents.nodes ≤ maxDepth := by
  obtain ⟨rules, ts, p, -, -, -, hrun, hfinish⟩ :=
    readLines_tokens (Text.not_mem_unifyLineEnds _) h
  have hp := isNested_run (p := {}) ⟨trivial, nofun⟩ (Nat.zero_le _) hrun
  rw [Progress.finish] at hfinish
  split at hfinish
  · rw [Option.some.injEq] at hfinish
    rw [← hfinish, depthOf_le_iff]
    exact fun node hn => hp.done node (List.mem_reverse.mp hn)
  · cases hfinish

/-! The top level of a document. -/

/-- At the top level there is no text and at most one element, and no other one is open beside it. -/
structure Progress.IsRooted (p : Progress) : Prop where
  noText : ∀ node ∈ p.done, node.isText = false
  oneRoot : (elementsOf p.done).length ≤ 1
  noRoot : p.stack ≠ [] → elementsOf p.done = []

theorem elementsOf_eq_nil {nodes : List Node} (h : nodes.any Node.isElement = false) :
    elementsOf nodes = [] := by
  rw [elementsOf, List.filterMap_eq_nil_iff]
  intro node hn
  have hno := List.any_eq_false.mp h node hn
  cases node with
  | element tag children => exact absurd rfl hno
  | _ => rfl

theorem isRooted_add {p : Progress} (hp : p.IsRooted) {node : Node}
    (htext : p.stack = [] → node.isText = false)
    (hroot : p.stack = [] → node.isElement = true → elementsOf p.done = []) :
    (p.add node).IsRooted := by
  obtain ⟨stack, done, last⟩ := p
  rw [Progress.add]
  cases stack with
  | nil =>
    refine ⟨fun x hx => ?_, ?_, fun hne => absurd rfl hne⟩
    · rcases List.mem_cons.mp hx with rfl | hx
      · exact htext rfl
      · exact hp.noText x hx
    · cases node with
      | element tag children =>
        have hnone : elementsOf done = [] := hroot rfl rfl
        rw [elementsOf_element_cons, hnone]
        rfl
      | _ => exact hp.oneRoot
  | cons top below =>
    have hnone : elementsOf done = [] := hp.noRoot nofun
    exact ⟨hp.noText, hp.oneRoot, fun _ => hnone⟩

theorem isRooted_close {p q : Progress} (hp : p.IsRooted) (h : p.close = some q) : q.IsRooted := by
  obtain ⟨stack, done, last⟩ := p
  cases stack with
  | nil => cases h
  | cons top below =>
    cases h
    have hnone : elementsOf done = [] := hp.noRoot nofun
    exact isRooted_add (p := ⟨below, done, last⟩) ⟨hp.noText, hp.oneRoot, fun _ => hnone⟩
      (fun _ => rfl) fun _ _ => hnone

theorem isRooted_step {rules : List AttributeRule} {p q : Progress} {t : Token} (hp : p.IsRooted)
    (h : p.step rules t = some q) : q.IsRooted := by
  cases t with
  | startTag name attributes closed =>
    rw [Progress.step] at h
    split at h
    · cases h
    · next hc =>
      have hnone : elementsOf p.done = [] := by
        cases hs : p.stack with
        | nil =>
          simp only [hs, Bool.or_eq_true, not_or, List.isEmpty_nil, Bool.true_and,
            Bool.not_eq_true] at hc
          exact elementsOf_eq_nil hc.1.1
        | cons top below => exact hp.noRoot (by rw [hs]; nofun)
      have hopened : ∀ (tag : Tag) (scope : Scope) (last : Option Remark),
          (⟨⟨name, tag, scope, []⟩ :: p.stack, p.done, last⟩ : Progress).IsRooted :=
        fun tag scope last => ⟨hp.noText, hp.oneRoot, fun _ => hnone⟩
      dsimp only at h
      split at h
      · exact isRooted_close (hopened _ _ _) h
      · cases h
        exact hopened _ _ _
  | endTag name =>
    rw [Progress.step] at h
    split at h
    · exact isRooted_close hp h
    · cases h
  | data pieces =>
    rw [Progress.step] at h
    split at h
    · split at h
      · cases h
        exact hp
      · cases h
    · next hstack =>
      obtain ⟨chars, -, rfl⟩ := Option.map_eq_some_iff.mp h
      exact isRooted_add hp (fun hs => absurd (by rw [hs]; rfl) hstack) fun _ => nofun
  | verbatim chars =>
    rw [Progress.step] at h
    split at h
    · cases h
    · next hstack =>
      cases h
      exact isRooted_add hp (fun hs => absurd (by rw [hs]; rfl) hstack) fun _ => nofun
  | comment chars =>
    cases h
    exact isRooted_add hp (fun _ => rfl) fun _ => nofun
  | instruction target value =>
    cases h
    obtain ⟨hno, hone, hnone⟩ := @isRooted_add p hp
      (.instruction (String.ofList target) (String.ofList value)) (fun _ => rfl) fun _ => nofun
    exact ⟨hno, hone, hnone⟩

theorem isRooted_run {rules : List AttributeRule} {p q : Progress} {ts : List Token}
    (hp : p.IsRooted) (h : Progress.run rules p ts = some q) : q.IsRooted := by
  induction ts generalizing p with
  | nil =>
    cases h
    exact hp
  | cons t ts ih =>
    rw [Progress.run] at h
    obtain ⟨p', hstep, hrun⟩ := Option.bind_eq_some_iff.mp h
    exact ih (isRooted_step hp hstep) hrun

/-- At the top level of a document there is one element and no text. -/
theorem rooted_readDocument {cs : List Char} {contents : Contents}
    (h : readDocument cs = some contents) :
    (∀ node ∈ contents.nodes, node.isText = false) ∧
      ∃ root, elementsOf contents.nodes = [root] := by
  obtain ⟨rules, ts, p, -, -, -, hrun, hfinish⟩ :=
    readLines_tokens (Text.not_mem_unifyLineEnds _) h
  have hp := isRooted_run (p := {}) ⟨nofun, Nat.zero_le _, fun _ => rfl⟩ hrun
  rw [Progress.finish] at hfinish
  split at hfinish
  · next hc =>
    rw [Option.some.injEq] at hfinish
    rw [← hfinish]
    refine ⟨fun node hn => hp.noText node (List.mem_reverse.mp hn), ?_⟩
    rw [elementsOf, List.filterMap_reverse, ← elementsOf]
    rw [Bool.and_eq_true, Bool.and_eq_true, Progress.hasRoot, List.any_eq_true] at hc
    obtain ⟨node, hn, helement⟩ := hc.1.2
    cases node with
    | element tag children =>
      have hmem : (⟨tag, children⟩ : Element) ∈ elementsOf p.done :=
        List.mem_filterMap.mpr ⟨_, hn, rfl⟩
      have hone := hp.oneRoot
      cases he : elementsOf p.done with
      | nil => rw [he] at hmem; cases hmem
      | cons root rest =>
        rw [he, List.length_cons] at hone
        have hrest : rest = [] := List.length_eq_zero_iff.mp (by omega)
        exact ⟨root, by rw [hrest]; rfl⟩
    | _ => cases helement
  · cases hfinish

end Xml

end Manifest
