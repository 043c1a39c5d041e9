import Manifest.Proofs.Document.Assembled
import Manifest.Proofs.Leaf
import Manifest.Proofs.Xml.Within

/-! Nodes without namespaces. They take the namespace around them, for which there is a prefix already, so
none is made up for them: what is written for them does not depend on how many were made up before. -/

set_option autoImplicit false

namespace Manifest

/-- Whether a tag names no namespace and declares none. -/
def Tag.isLocal (tag : Tag) : Bool :=
  tag.uri.isNone && tag.bindings.isEmpty &&
    tag.attributes.all fun a => a.1.toList.head? != some '\x7b'

mutual

/-- Whether no tag of a node names or declares a namespace. -/
def Node.isLocal : Node → Bool
  | .element tag children => tag.isLocal && localAll children
  | _ => true

/-- Whether no tag of some nodes names or declares a namespace. -/
def localAll : List Node → Bool
  | [] => true
  | node :: rest => node.isLocal && localAll rest

end

theorem localAll_iff {nodes : List Node} :
    localAll nodes = true ↔ ∀ node ∈ nodes, node.isLocal = true := by
  induction nodes with
  | nil => simp [localAll]
  | cons node rest ih => simp [localAll, ih]

theorem Tag.isLocal_iff {tag : Tag} :
    tag.isLocal = true ↔ tag.uri = none ∧ tag.bindings = [] ∧
      ∀ a ∈ tag.attributes, isPlainName a.1 := by
  simp [isLocal, isPlainName, and_assoc]

/-! Leaves on one line. -/

mutual

theorem Node.isLocal_collapse (node : Node) (h : node.isLocal = true) :
    node.collapse.isLocal = true := by
  cases node with
  | element tag children =>
    rw [Node.isLocal, Bool.and_eq_true] at h
    rw [collapse_element, Node.isLocal, h.1, Bool.true_and]
    rcases collapsedChildren_cases children with ⟨-, hsame⟩ | ⟨value, -, -, hleaf⟩
    · rw [hsame]
      exact localAll_map_collapse children h.2
    · rw [hleaf]
      rfl
  | _ => rfl

theorem localAll_map_collapse (nodes : List Node) (h : localAll nodes = true) :
    localAll (nodes.map Node.collapse) = true := by
  cases nodes with
  | nil => rfl
  | cons node rest =>
    rw [localAll, Bool.and_eq_true] at h
    rw [List.map_cons, localAll, node.isLocal_collapse h.1, localAll_map_collapse rest h.2]
    rfl

end

/-! What is written for them. -/

namespace Xml

/-- Whether something stands for the namespace that elements take from around them, if there is one. -/
def Scope.Serves (scope : Scope) (parent : Option String) : Prop :=
  ∀ u ∈ parent, u ≠ "" ∧ ∃ pfx, scope.stands? pfx = some u

theorem Site.serves {scope reading origin : Scope} {parent : Option String}
    (h : Site scope reading origin parent) : scope.Serves parent :=
  fun u hu => ⟨(h.spaced u hu).1.1, (h.spaced u hu).2⟩

theorem qualifyTag_local {outer : Scope} {parent : Option String} (hserves : outer.Serves parent)
    {tag : Tag} (htag : tag.isLocal = true) (hname : isPlainName tag.name) {next : Nat}
    {w : WrittenTag} (hw : qualifyTag outer parent next tag = some w) :
    w.next = next ∧ w.scope.Serves w.uri ∧
      ∀ k, qualifyTag outer parent k tag = some { w with next := k } := by
  obtain ⟨huri, hbindings, hkeys⟩ := Tag.isLocal_iff.mp htag
  obtain ⟨x, own, t, t', attributes, hx, hwritable, hown, hattributes, rfl⟩ :=
    qualifyTag_eq_some.mp hw
  rw [huri, Option.none_or] at hx
  obtain rfl := eq_of_parse?_tagKey (fun u hu => (hserves u hu).1) hname hx
  have hself : ∀ k, (⟨[], outer, k⟩ : Naming).own [] parent =
      if parent.all fun u => Uri.isReference u then
        some (ownBinding [] outer parent, ⟨[], outer, k⟩)
      else none := by
    intro k
    exact @Naming.own_eq ⟨[], outer, k⟩ parent fun u hu => (hserves u hu).2
  have hnone : ∀ a ∈ tag.attributes, ∀ x, ExpandedName.parse? a.1 = some x → x.uri = none := by
    intro a ha x hx
    rw [@eq_of_parse?_tagKey none a.1 nofun (hkeys a ha) x hx]
  have hplain : ∀ k, qualifyAttributes ⟨[], outer, k⟩ [] tag.attributes =
      (expandAttributes [] tag.attributes).map fun xs =>
        (⟨[], outer, k⟩, xs.map (writeAttribute outer)) := by
    intro k
    exact @qualifyAttributes_eq ⟨[], outer, k⟩ [] tag.attributes fun a ha x hx u hu => by
      rw [hnone a ha x hx] at hu
      cases hu
  rw [hbindings, List.foldl_nil, hself] at hown
  split at hown
  · next href =>
    cases hown
    rw [hplain] at hattributes
    obtain ⟨xs, hxs, hpair⟩ := Option.map_eq_some_iff.mp hattributes
    cases hpair
    refine ⟨rfl, ?_, fun k => ?_⟩
    · rw [writtenTag, huri, Option.none_or]
      rintro u hu
      obtain ⟨hne, pfx, hpfx⟩ := hserves u hu
      obtain ⟨b, hb⟩ := isSome_binding? false (by simp) hpfx
      refine ⟨hne, pfx, ?_⟩
      have hstands : outer.stands? b.pfx = some b.uri := by
        rw [(binding?_eq_some hb).2.2.1, (binding?_eq_some hb).1]
      rw [Option.mem_def] at hu
      subst hu
      have hown : ownBinding [] outer (some u) = some b := hb
      rw [hown]
      exact (Scope.agrees_cons hstands pfx).trans hpfx
    · refine qualifyTag_eq_some.mpr ⟨⟨parent, tag.name⟩, ownBinding [] outer parent, ⟨[], outer, k⟩,
        ⟨[], outer, k⟩, xs.map (writeAttribute outer), ?_, hwritable, ?_, ?_, rfl⟩
      · rw [huri, Option.none_or, hx]
      · rw [hbindings, List.foldl_nil, hself, if_pos href]
      · rw [hplain, hxs]
        rfl
  · cases hown

mutual

/-- No prefix is made up for a node without namespaces. -/
theorem qualify_local {scope : Scope} {parent : Option String} (hserves : scope.Serves parent)
    (node : Node) (hlocal : node.isLocal = true) (ho : node.ordinary) {next next' : Nat} {m : Markup}
    (h : qualify scope parent next node = some (m, next')) (k : Nat) :
    qualify scope parent k node = some (m, k) := by
  cases node with
  | element tag children =>
    rw [Node.isLocal, Bool.and_eq_true] at hlocal
    rw [qualify] at h
    split at h
    · cases h
    · next w hw =>
      obtain ⟨-, hinner, hagain⟩ := qualifyTag_local hserves hlocal.1 ho.1.name hw
      split at h
      · cases h
      · next ms n hms =>
        cases h
        rw [qualify, hagain k]
        dsimp only
        rw [qualifyNodes_local hinner children hlocal.2 ho.2.2 hms k]
  | text value => rw [qualify] at h ⊢; split at h <;> cases h; rw [if_pos ‹_›]
  | comment value => rw [qualify] at h ⊢; split at h <;> cases h; rw [if_pos ‹_›]
  | instruction target value => rw [qualify] at h ⊢; split at h <;> cases h; rw [if_pos ‹_›]

theorem qualifyNodes_local {scope : Scope} {parent : Option String} (hserves : scope.Serves parent)
    (nodes : List Node) (hlocal : localAll nodes = true) (ho : ordinaries nodes) {next next' : Nat}
    {ms : List Markup} (h : qualifyNodes scope parent next nodes = some (ms, next')) (k : Nat) :
    qualifyNodes scope parent k nodes = some (ms, k) := by
  cases nodes with
  | nil =>
    cases h
    rfl
  | cons node rest =>
    rw [localAll, Bool.and_eq_true] at hlocal
    obtain ⟨m, n, ms', hm, hms, rfl⟩ := qualifyNodes_cons_eq_some.mp h
    exact qualifyNodes_cons_eq_some.mpr ⟨m, k, ms', qualify_local hserves node hlocal.1 ho.1 hm k,
      qualifyNodes_local hserves rest hlocal.2 ho.2 hms k, rfl⟩

end

end Xml

end Manifest
