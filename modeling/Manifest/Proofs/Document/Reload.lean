import Manifest.Proofs.Document.FixedPoint
import Manifest.Proofs.Document.Stored

/-! Documents that are loaded from the files that they were saved in. With settled tags the root that is
loaded is that of the markup that was written, and whatever is written as that markup again, in place of
the root, is stored in the same bytes. -/

set_option autoImplicit false

namespace Manifest

open Action (Gives)
open Text (Encoding commonNames)
open Xml (Contents Markup Scope qualify)
open Xml.Markup (steadyAll)

/-- The document that is loaded from the file that an ordinary document was saved in. -/
def Document.stored (d : Document) (contents : Contents) (style : Style) (before : List Markup)
    (root : Markup) (after : List Markup) (s : String) : Document :=
  { d.reread contents style before root after s with
    encoding := (d.declared style).getD "UTF-8" }

section
variable {d : Document} {contents : Contents} {style : Style} {before after : List Markup} {root : Markup}
  {s : String}

/-- What is loaded, and when. -/
theorem Document.WrittenAs.gives_load_iff (hd : d.IsOrdinary contents)
    (h : d.WrittenAs contents style before root after s) (hname : d.encoding.toUpper = "UTF-8")
    {bytes : ByteArray} (henc : Encoding.utf8.encode s = some bytes) {p : Path} {w : World}
    (hread : w.tree.read p = .ok bytes) {d' : Document} :
    (∃ w', Gives (Document.load p) w d' w') ↔
      d.CanBeRead contents style ∧ d' = d.stored contents style before root after s := by
  have hcommon : (d.encoding.toUpper, Encoding.utf8) ∈ commonNames := by
    rw [hname]
    exact List.mem_cons_self
  obtain ⟨-, hcommon'⟩ := Encoding.named?_of_common hcommon
  have hdecode := h.decodeStored_eq hcommon (Or.inr (Or.inl (by decide))) henc
  obtain ⟨hcan, hno⟩ := h.readDocument_eq hd
  rw [Manifest.gives_load_iff, hread]
  simp only [Except.ok.injEq, exists_eq_left']
  rw [readBytes, h.head?_bytes hcommon' henc, if_neg (by simp), readStored, hdecode, Option.bind_some]
  by_cases hreadable : d.CanBeRead contents style
  · rw [hcan hreadable]
    have hdeclared : ((((d.declared style).map fun e => (⟨"1.0".toList, some e.toList⟩ :
        Xml.Declaration)).bind (·.encoding)).map String.ofList).getD "UTF-8" =
          (d.declared style).getD "UTF-8" := by
      cases d.declared style <;> simp
    simp only [Except.ok.injEq]
    rw [hdeclared]
    exact ⟨fun heq => ⟨hreadable, heq.symm⟩, fun heq => heq.2.symm⟩
  · rw [hno hreadable]
    exact ⟨fun heq => (by cases heq), fun hcan => absurd hcan.1 hreadable⟩

/--
The root that is loaded is that of the markup that was written. With another root that is written as that
markup, what is loaded is stored in the bytes that it was loaded from.
-/
theorem Document.WrittenAs.bytes_withRoot (hd : d.IsOrdinary contents)
    (h : d.WrittenAs contents style before root after s)
    (hsteady : steadyAll [] none [] (before ++ root.laid 0 :: after)) (hcan : d.CanBeRead contents style)
    (hname : d.encoding.toUpper = "UTF-8") {bytes : ByteArray} (hbytes : d.bytes style = .ok bytes)
    (hs : d.render style = .ok s) :
    ∃ e : Element, (d.stored contents style before root after s).root? = some e ∧
      e.toNode = (root.laid 0).resolve [] ∧
      ∀ (new : Element) (m : Markup) (k : Nat) (root' : Markup),
        qualify [] none 0 new.toNode = some (m, k) → style.indent.apply m = .ok root' →
        root'.laid 0 = root.laid 0 →
        ((d.stored contents style before root after s).withRoot new).bytes style = .ok bytes := by
  obtain ⟨e, he, hnone, hnodes⟩ := h.nodes_reread hsteady
  obtain ⟨hbefore, -, hafter⟩ := Markup.steadyAll_append.mp hsteady
  have hroot : (d.stored contents style before root after s).root? = some e := by
    rw [Document.root?, stored]
    dsimp only
    rw [hnodes, elementsOf_append, hnone, elementsOf_toNode_cons]
    rfl
  refine ⟨e, hroot, he.symm, fun new m k root' hm happly hlaid => ?_⟩
  have hcommon : (d.encoding.toUpper, Encoding.utf8) ∈ commonNames := by
    rw [hname]
    exact List.mem_cons_self
  have hnamed := (Encoding.named?_of_common hcommon).1
  obtain ⟨s₀, hs₀, henc⟩ := (bytes_eq_ok hnamed).mp hbytes
  rw [hs] at hs₀
  cases hs₀
  have hagain : Encoding.named? ((d.stored contents style before root after s).withRoot new).encoding =
      some .utf8 := by
    rw [withRoot, stored, declared]
    dsimp only
    split
    · exact hnamed
    · rfl
  refine (bytes_eq_ok hagain).mpr ⟨s, ?_, henc⟩
  obtain ⟨before₀, root₀, after₀, hmarkup₀, htext, hchars⟩ := render_eq_ok.mp hs
  rw [h.markup] at hmarkup₀
  cases hmarkup₀
  have hdoctype : ((d.stored contents style before root after s).withRoot new).doctype = d.doctype :=
    h.doctype_reread hd hsteady hcan
  have hdeclared : ((d.stored contents style before root after s).withRoot new).declared style =
      d.declared style := by
    rw [declared, declared, withRoot, stored, declared]
    split
    · rfl
    · rfl
  have hmarkup : ((d.stored contents style before root after s).withRoot new).markup style.indent =
      .ok (before, root', after) := by
    refine markup_eq_ok.mpr ⟨_, new, _, m, k, ?_, hm, remarks_resolve h.front hbefore,
      remarks_resolve h.back hafter, happly⟩
    rw [withRoot, stored]
    dsimp only
    rw [hnodes, setFirstElement_append hnone]
    exact splitAtElement_append new _ (fun x hx => by rw [hnone] at hx; cases hx) rfl
  refine render_eq_ok.mpr ⟨before, root', after, hmarkup, ?_, ?_⟩
  · rwa [hdoctype]
  · refine hchars.trans ?_
    rw [hdeclared, hdoctype, layoutChars, layoutChars, renderLine_eq, renderLine_eq, hlaid]

end

/--
An ordinary document that was saved can be loaded exactly when a document type with a public identifier has
a system identifier and elements are not nested too deeply, and it is loaded as it is.
-/
theorem Document.IsOrdinary.exists_load_iff {d : Document} {contents : Contents}
    (hd : d.IsOrdinary contents) (hname : d.encoding.toUpper = "UTF-8") {style : Style}
    (hwhite : style.indent.isWhite = true) {p : Path} {w w' : World}
    (hsave : Gives (d.save p style) w () w') :
    ((∃ d' w'', Gives (Document.load p) w' d' w'') ↔
      (∀ type ∈ contents.doctype, type.id.isComplete = true) ∧ depthOf d.nodes ≤ Xml.maxDepth) ∧
    ∀ d' w'', Gives (Document.load p) w' d' w'' → d'.same d = true := by
  have hcommon : (d.encoding.toUpper, Encoding.utf8) ∈ commonNames := by
    rw [hname]
    exact List.mem_cons_self
  obtain ⟨bytes, hbytes, hreplaced⟩ := Document.gives_save hsave
  obtain ⟨s, hs, henc⟩ := (bytes_eq_ok (Encoding.named?_of_common hcommon).1).mp hbytes
  obtain ⟨before, laid, after, hwritten⟩ := hd.render_eq hwhite hs
  have hload : ∀ d', (∃ w'', Gives (Document.load p) w' d' w'') ↔ d.CanBeRead contents style ∧
      d' = d.stored contents style before laid after s := fun d' =>
    hwritten.gives_load_iff hd hname henc hreplaced.read
  refine ⟨⟨fun ⟨d', hd'⟩ => ?_, fun ⟨htype, hdepth⟩ => ⟨_, (hload _).mpr
    ⟨⟨htype, fun _ => isEncodingName_of_common hcommon, hdepth⟩, rfl⟩⟩⟩, fun d' w'' hd' => ?_⟩
  · obtain ⟨hcan, -⟩ := (hload d').mp hd'
    exact ⟨hcan.doctype, hcan.depth⟩
  · obtain ⟨-, rfl⟩ := (hload d').mp ⟨w'', hd'⟩
    exact hwritten.same_reread

theorem Document.root?_of_splitAtElement {d : Document} {front back : List Node} {e : Element}
    (h : splitAtElement (fun _ => true) d.nodes = some (front, e, back)) : d.root? = some e := by
  rw [root?, (splitAtElement_eq_some h).1, elementsOf_append, elementsOf_of_splitAtElement h,
    elementsOf_toNode_cons]
  rfl

namespace Xml.Markup

mutual

/-- What steady markup is read as has no line ends but line feeds where they are kept verbatim. -/
theorem calm_resolve {scope reading : Scope} {parent : Option String} (m : Markup)
    (h : m.steady scope parent reading) : (m.resolve reading).calm := by
  cases m with
  | text value => trivial
  | comment value => exact h
  | instruction target value =>
    rw [resolve, h.2, String.ofList_toList]
    exact h.1
  | element name attributes children =>
    obtain ⟨inner, uri, -, hchildren⟩ := h
    exact calmAll_resolveAll children hchildren

theorem calmAll_resolveAll {scope reading : Scope} {parent : Option String} (ms : List Markup)
    (h : steadyAll scope parent reading ms) : calmAll (resolveAll reading ms) := by
  cases ms with
  | nil => trivial
  | cons m ms =>
    rw [resolveAll]
    split
    · exact calmAll_resolveAll ms h.2
    · exact ⟨calm_resolve m h.1, calmAll_resolveAll ms h.2⟩

end

end Xml.Markup

/--
How a document that was loaded from a file compares with the one that was saved there: `r` and `e` are the
roots, `m` is what was written for the first one and `laid` how it was laid out.
-/
structure Document.ReloadedAs (d d' : Document) (style : Style) (bytes : ByteArray) (r e : Element)
    (m laid : Markup) : Prop where
  saved : d.root? = some r
  loaded : d'.root? = some e
  same : e.toNode.same r.toNode = true
  written : ∃ n, qualify [] none 0 r.toNode = some (m, n)
  applied : style.indent.apply m = .ok laid
  read : (laid.laid 0).resolve [] = e.toNode
  calm : calmAll d'.nodes
  /-- What is loaded is written as what was written. -/
  own : qualify [] none 0 e.toNode = some (laid.laid 0, 0)
  /-- So is any other root that is written like that, and the bytes are the same. -/
  again : ∀ (new : Element) (m' : Markup) (k : Nat) (laid' : Markup),
    qualify [] none 0 new.toNode = some (m', k) → style.indent.apply m' = .ok laid' →
    laid'.laid 0 = laid.laid 0 → (d'.withRoot new).bytes style = .ok bytes

/-- A document that is settled where it was saved is loaded as it is, and stored as it was stored. -/
theorem Document.IsOrdinary.reloaded {d d' : Document} {contents : Contents} (hd : d.IsOrdinary contents)
    (hknown : knownAll [] d.nodes) (hsettled : d.isSettled = true) (hname : d.encoding.toUpper = "UTF-8")
    {style : Style} (hwhite : style.indent.isWhite = true) {p : Path} {w w' w'' : World}
    (hsave : Gives (d.save p style) w () w') (hload : Gives (Document.load p) w' d' w'') :
    ∃ bytes r e m laid, w'.tree.read p = .ok bytes ∧ d.ReloadedAs d' style bytes r e m laid := by
  have hcommon : (d.encoding.toUpper, Encoding.utf8) ∈ commonNames := by
    rw [hname]
    exact List.mem_cons_self
  obtain ⟨bytes, hbytes, hreplaced⟩ := Document.gives_save hsave
  obtain ⟨s, hs, henc⟩ := (bytes_eq_ok (Encoding.named?_of_common hcommon).1).mp hbytes
  obtain ⟨before, laid, after, hwritten⟩ := hd.render_eq hwhite hs
  obtain ⟨hcan, rfl⟩ := (hwritten.gives_load_iff hd hname henc hreplaced.read).mp ⟨w'', hload⟩
  have hsteady := hd.steady_markup hknown hsettled hwhite hwritten.markup
  obtain ⟨e, hroot, hread, hagain⟩ := hwritten.bytes_withRoot hd hsteady hcan hname hbytes hs
  obtain ⟨r, helements, -⟩ := hd.oneRoot
  have hr : d.root? = some r := by rw [Document.root?, helements]; rfl
  obtain ⟨front, r', back, m, n, hsplit, hm, -, -, happly⟩ := markup_eq_ok.mp hwritten.markup
  obtain rfl : r' = r := Option.some.inj ((root?_of_splitAtElement hsplit).symm.trans hr)
  obtain ⟨-, hsteadyRoot, -⟩ := Markup.steadyAll_append.mp hsteady
  have hsame := Markup.same_of_readsAs (laid.laid 0) (hwritten.readRoot r' hr)
  rw [Markup.unified_of_steady _ hsteadyRoot, ← hread] at hsame
  refine ⟨bytes, r', e, m, laid, hreplaced.read, hr, hroot, hsame, ⟨n, hm⟩, happly, hread.symm, ?_, ?_,
    hagain⟩
  · rw [stored, reread]
    dsimp only [documentOf]
    rw [Markup.unifiedAll_of_steadyAll _ hsteady]
    exact Markup.calmAll_resolveAll _ hsteady
  · rw [hread]
    exact Markup.qualify_resolve _ (Markup.sound_laid laid hwritten.sound 0) hsteadyRoot 0

namespace Document.ReloadedAs

variable {d d' : Document} {style : Style} {bytes : ByteArray} {r e : Element} {m laid : Markup}

/-- Saved again as it is, what was loaded is stored in the same bytes. -/
theorem bytes_self (h : d.ReloadedAs d' style bytes r e m laid) (hwhite : style.indent.isWhite = true) :
    d'.bytes style = .ok bytes := by
  obtain ⟨n, hm⟩ := h.written
  obtain ⟨laid', happly, hlaid⟩ :=
    apply_laid hwhite (Xml.sound_qualify isSound_nil r.toNode hm) h.applied
  have hself := h.again e (laid.laid 0) 0 laid' h.own happly hlaid
  rwa [withRoot_self h.loaded] at hself

end Document.ReloadedAs

/-- With another root that is written as its own, a document is stored in the same bytes. -/
theorem Document.bytes_withRoot_of_laid {d : Document} {style : Style} {e : Encoding}
    (hnamed : Encoding.named? d.encoding = some e) {bytes : ByteArray} (hbytes : d.bytes style = .ok bytes)
    {root new : Element} (hroot : d.root? = some root) {m m' laid laid' : Markup} {n n' : Nat}
    (hm : qualify [] none 0 root.toNode = some (m, n)) (happly : style.indent.apply m = .ok laid)
    (hm' : qualify [] none 0 new.toNode = some (m', n')) (happly' : style.indent.apply m' = .ok laid')
    (hlaid : laid'.laid 0 = laid.laid 0) : (d.withRoot new).bytes style = .ok bytes := by
  obtain ⟨s, hs, henc⟩ := (bytes_eq_ok hnamed).mp hbytes
  have hnamed' : Encoding.named? (d.withRoot new).encoding = some e := hnamed
  refine (bytes_eq_ok hnamed').mpr ⟨s, ?_, henc⟩
  obtain ⟨before, written, after, hmarkup, htext, hchars⟩ := render_eq_ok.mp hs
  obtain ⟨front, x, back, m₀, n₀, hsplit, hm₀, hbefore, hafter, hwritten⟩ := markup_eq_ok.mp hmarkup
  obtain ⟨hnodes, -, -⟩ := splitAtElement_eq_some hsplit
  have hfront := elementsOf_of_splitAtElement hsplit
  obtain rfl : x = root := Option.some.inj ((root?_of_splitAtElement hsplit).symm.trans hroot)
  rw [hm] at hm₀
  cases hm₀
  rw [happly] at hwritten
  cases hwritten
  have hsplit' : splitAtElement (fun _ => true) (d.withRoot new).nodes = some (front, new, back) := by
    rw [withRoot, hnodes, setFirstElement_append hfront]
    exact splitAtElement_append new _ (fun y hy => by rw [hfront] at hy; cases hy) rfl
  refine render_eq_ok.mpr ⟨before, laid', after,
    markup_eq_ok.mpr ⟨front, new, back, m', n', hsplit', hm', hbefore, hafter, happly'⟩, htext, ?_⟩
  refine hchars.trans ?_
  rw [layoutChars, layoutChars, renderLine_eq, renderLine_eq, hlaid]
  rfl

/-- What is stored in the same bytes can be saved again, and leaves the file as it is. -/
theorem Document.gives_save_again {d d' : Document} {style : Style} {p : Path} {w w' w₁ : World}
    {bytes : ByteArray} (hsave : Gives (d.save p style) w () w') (hread : w'.tree.read p = .ok bytes)
    (hbytes : d'.bytes style = .ok bytes) (htree : w₁.tree = w'.tree) :
    ∃ w₂, Gives (d'.save p style) w₁ () w₂ ∧ w₂.tree.read p = w₁.tree.read p := by
  obtain ⟨bytes₀, hbytes₀, -⟩ := Document.gives_save hsave
  have hwhole : ∃ t, w.tree.writeWhole p bytes₀ = (t, .ok ()) ∧ w'.tree = t := by
    rw [Gives, run_save hbytes₀] at hsave
    rcases hw : w.tree.writeWhole p bytes₀ with ⟨t, ⟨stage, e⟩ | _⟩
    · rw [hw] at hsave
      cases stage <;> cases hsave
    · rw [hw] at hsave
      cases hsave
      exact ⟨t, rfl, rfl⟩
  obtain ⟨t, hwhole, ht⟩ := hwhole
  obtain ⟨t', hagain⟩ := FileTree.writeWhole_again hwhole bytes
  rw [← ht, ← htree] at hagain
  have hgives : ∃ w₂, Gives (d'.save p style) w₁ () w₂ := by
    refine ⟨(d'.save p style).after w₁, Action.gives_after ?_⟩
    rw [run_save hbytes, hagain]
    rfl
  obtain ⟨w₂, hgives⟩ := hgives
  obtain ⟨bytes', hbytes', hreplaced⟩ := Document.gives_save hgives
  rw [hbytes] at hbytes'
  cases hbytes'
  exact ⟨w₂, hgives, by rw [hreplaced.read, htree, hread]⟩

end Manifest
