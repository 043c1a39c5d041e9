import Manifest.Proofs.FileTree
import Manifest.World

/-! Runs of actions. A run that ends with a result is taken apart into the runs of the actions that it
consists of, and put together from them. An action that leaves the files alone does so whether it fails or
not, and so does any sequence of such actions. -/

set_option autoImplicit false

namespace Manifest.Action

variable {ε α β : Type}

/-- From a world, an action ends with a result, in another world. -/
def Gives (a : Action ε α) (w : World) (result : α) (w' : World) : Prop :=
  (ExceptT.run a).run w = (.ok result, w')

theorem Gives.unique {a : Action ε α} {w w₁ w₂ : World} {r₁ r₂ : α} (h₁ : Gives a w r₁ w₁)
    (h₂ : Gives a w r₂ w₂) : r₁ = r₂ ∧ w₁ = w₂ := by
  rw [Gives] at h₁ h₂
  rw [h₁] at h₂
  cases h₂
  exact ⟨rfl, rfl⟩

/-- Whether an action ends with a result from every world. -/
def NeverFails (a : Action ε α) : Prop :=
  ∀ w, ∃ r w', Gives a w r w'

/-- What an action ends with, or a default if it fails. -/
def resultD (a : Action ε α) (w : World) (default : α) : α :=
  ((ExceptT.run a).run w).1.toOption.getD default

/-- The world after an action. -/
def after (a : Action ε α) (w : World) : World :=
  ((ExceptT.run a).run w).2

theorem Gives.after_eq {a : Action ε α} {w w' : World} {r : α} (h : Gives a w r w') : a.after w = w' :=
  congrArg Prod.snd h

theorem gives_resultD {a : Action ε α} {w : World} (default : α)
    (h : ((ExceptT.run a).run w).1.toOption.isSome = true) :
    Gives a w (a.resultD w default) (a.after w) := by
  rw [Gives, resultD, after]
  rcases hrun : (ExceptT.run a).run w with ⟨_ | r, w'⟩
  · rw [hrun] at h
    cases h
  · rfl

theorem gives_after {a : Action ε Unit} {w : World}
    (h : ((ExceptT.run a).run w).1.toOption.isSome = true) : Gives a w () (a.after w) :=
  gives_resultD () h

@[simp] theorem gives_pure_iff {w w' : World} {x r : α} :
    Gives (pure x : Action ε α) w r w' ↔ x = r ∧ w = w' := by
  constructor
  · intro h
    cases h
    exact ⟨rfl, rfl⟩
  · rintro ⟨rfl, rfl⟩
    rfl

theorem run_bind (a : Action ε α) (f : α → Action ε β) (w : World) :
    (ExceptT.run (a >>= f)).run w =
      match (ExceptT.run a).run w with
      | (.ok x, w') => (ExceptT.run (f x)).run w'
      | (.error e, w') => (.error e, w') := by
  rw [ExceptT.run_bind, StateT.run_bind]
  rcases (ExceptT.run a).run w with ⟨_ | _, w'⟩ <;> rfl

theorem run_adapt {δ : Type} (f : ε → δ) (a : Action ε α) (w : World) :
    (ExceptT.run (a.adapt f : Action δ α)).run w =
      match (ExceptT.run a).run w with
      | (.ok x, w') => (.ok x, w')
      | (.error e, w') => (.error (f e), w') := by
  rw [ExceptT.run_adapt, StateT.run_map]
  rcases (ExceptT.run a).run w with ⟨_ | _, w'⟩ <;> rfl

theorem gives_bind_iff {a : Action ε α} {f : α → Action ε β} {w w₂ : World} {r : β} :
    Gives (a >>= f) w r w₂ ↔ ∃ x w₁, Gives a w x w₁ ∧ Gives (f x) w₁ r w₂ := by
  rw [Gives, run_bind]
  rcases ha : (ExceptT.run a).run w with ⟨_ | x, w₁⟩
  · constructor
    · intro h
      cases h
    · rintro ⟨x', w', hx, -⟩
      rw [Gives, ha] at hx
      cases hx
  · constructor
    · intro h
      exact ⟨x, w₁, ha, h⟩
    · rintro ⟨x', w', hx, hf⟩
      rw [Gives, ha] at hx
      cases hx
      exact hf

theorem gives_throw_iff {e : ε} {w w' : World} {r : α} :
    Gives (throw e : Action ε α) w r w' ↔ False := by
  constructor
  · intro h
    cases h
  · exact False.elim

@[simp] theorem gives_ofExcept_iff {δ : Type} {state : δ → ε} {x : Except δ α} {w w' : World}
    {r : α} : Gives (ofExcept state x) w r w' ↔ x = .ok r ∧ w = w' := by
  cases x with
  | ok a => simp [ofExcept]
  | error e => simp [ofExcept, gives_throw_iff]

@[simp] theorem gives_record_iff {records : List Record} {w w' : World} {r : Unit} :
    Gives (record records : Action ε Unit) w r w' ↔ w' = { w with log := w.log ++ records } := by
  constructor
  · intro h
    cases h
    rfl
  · rintro rfl
    rfl

@[simp] theorem gives_tree_iff {w w' : World} {t : FileTree} :
    Gives (tree : Action ε FileTree) w t w' ↔ w.tree = t ∧ w = w' := by
  constructor
  · intro h
    cases h
    exact ⟨rfl, rfl⟩
  · rintro ⟨rfl, rfl⟩
    rfl

@[simp] theorem gives_setTree_iff {w w' : World} {t : FileTree} {r : Unit} :
    Gives (setTree t : Action ε Unit) w r w' ↔ w' = { w with tree := t } := by
  constructor
  · intro h
    cases h
    rfl
  · rintro rfl
    rfl

@[simp] theorem gives_adapt_iff {δ : Type} {f : ε → δ} {a : Action ε α} {w w' : World} {r : α} :
    Gives (a.adapt f : Action δ α) w r w' ↔ Gives a w r w' := by
  rw [Gives, Gives, run_adapt]
  rcases (ExceptT.run a).run w with ⟨_ | x, w₁⟩
  · constructor
    · intro h
      cases h
    · intro h
      cases h
  · constructor
    · intro h
      cases h
      rfl
    · intro h
      cases h
      rfl

/-! Actions that cannot fail. -/

theorem neverFails_record (records : List Record) : NeverFails (record records : Action ε Unit) :=
  fun _ => ⟨(), _, gives_record_iff.mpr rfl⟩

theorem neverFails_tree : NeverFails (tree : Action ε FileTree) :=
  fun w => ⟨w.tree, w, gives_tree_iff.mpr ⟨rfl, rfl⟩⟩

theorem neverFails_setTree (t : FileTree) : NeverFails (setTree t : Action ε Unit) :=
  fun _ => ⟨(), _, gives_setTree_iff.mpr rfl⟩

theorem NeverFails.bind {a : Action ε α} {f : α → Action ε β} (ha : NeverFails a)
    (hf : ∀ x, NeverFails (f x)) : NeverFails (a >>= f) := by
  intro w
  obtain ⟨x, w₁, hx⟩ := ha w
  obtain ⟨r, w₂, hr⟩ := hf x w₁
  exact ⟨r, w₂, gives_bind_iff.mpr ⟨x, w₁, hx, hr⟩⟩

theorem neverFails_forM {f : α → Action ε PUnit} (hf : ∀ x, NeverFails (f x)) (xs : List α) :
    NeverFails (xs.forM f) := by
  induction xs with
  | nil => exact fun w => ⟨(), w, gives_pure_iff.mpr ⟨rfl, rfl⟩⟩
  | cons x xs ih => exact (hf x).bind fun _ => ih

/-! How actions end, with a result or with a fault. -/

/-- Whether an action leaves the files as they are, whatever it ends with. -/
def KeepsTree (a : Action ε α) : Prop :=
  ∀ w, (a.after w).tree = w.tree

theorem KeepsTree.tree_eq {a : Action ε α} (h : KeepsTree a) {w w' : World} {r : α} (hgives : Gives a w r w') :
    w'.tree = w.tree := by
  have hw := h w
  rw [after, hgives] at hw
  exact hw

theorem keepsTree_pure (x : α) : KeepsTree (pure x : Action ε α) :=
  fun _ => rfl

theorem keepsTree_throw (e : ε) : KeepsTree (throw e : Action ε α) :=
  fun _ => rfl

theorem keepsTree_record (records : List Record) : KeepsTree (record records : Action ε Unit) :=
  fun _ => rfl

theorem keepsTree_tree : KeepsTree (tree : Action ε FileTree) :=
  fun _ => rfl

theorem keepsTree_ofExcept {δ : Type} (state : δ → ε) (x : Except δ α) :
    KeepsTree (ofExcept state x) := by
  cases x with
  | ok a => exact keepsTree_pure a
  | error e => exact keepsTree_throw (state e)

theorem keepsTree_bind {a : Action ε α} {f : α → Action ε β} (ha : KeepsTree a)
    (hf : ∀ x, KeepsTree (f x)) : KeepsTree (a >>= f) := by
  intro w
  have hw := ha w
  rw [after] at hw ⊢
  rw [run_bind]
  rcases hrun : (ExceptT.run a).run w with ⟨_ | x, w'⟩
  · rw [hrun] at hw
    exact hw
  · rw [hrun] at hw
    exact (hf x w').trans hw

theorem keepsTree_adapt {δ : Type} (f : ε → δ) {a : Action ε α} (ha : KeepsTree a) :
    KeepsTree (a.adapt f : Action δ α) := by
  intro w
  have hw := ha w
  rw [after] at hw ⊢
  rw [run_adapt]
  rcases hrun : (ExceptT.run a).run w with ⟨_ | x, w'⟩ <;> rw [hrun] at hw <;> exact hw

/--
Whether an action writes the file at a path in one go: if it fails, every file is as it was before; if
it ends with a result, the file at the path is there and every other one is as it was before.
-/
def AllOrNothing (a : Action ε α) (p : Path) : Prop :=
  ∀ w, match (ExceptT.run a).run w with
    | (.ok _, w') => ∃ bytes, w.tree.Replaced w'.tree p bytes
    | (.error _, w') => w.tree.SameFiles w'.tree

theorem KeepsTree.allOrNothing_bind {a : Action ε α} {f : α → Action ε β} {p : Path}
    (ha : KeepsTree a) (hf : ∀ x, AllOrNothing (f x) p) : AllOrNothing (a >>= f) p := by
  intro w
  have hw := ha w
  rw [after] at hw
  rw [run_bind]
  rcases hrun : (ExceptT.run a).run w with ⟨e | x, w'⟩
  · rw [hrun] at hw
    dsimp only at hw ⊢
    rw [hw]
    exact FileTree.SameFiles.refl _
  · rw [hrun] at hw
    have hx := hf x w'
    dsimp only at hw ⊢
    rw [hw] at hx
    exact hx

/-- What cannot fail and leaves the files alone may follow. -/
theorem AllOrNothing.bind {a : Action ε α} {f : α → Action ε β} {p : Path}
    (ha : AllOrNothing a p) (hf : ∀ x w, ∃ r w', Gives (f x) w r w' ∧ w'.tree = w.tree) :
    AllOrNothing (a >>= f) p := by
  intro w
  have hw := ha w
  rw [run_bind]
  rcases hrun : (ExceptT.run a).run w with ⟨e | x, w'⟩
  · rw [hrun] at hw
    exact hw
  · rw [hrun] at hw
    obtain ⟨bytes, hw⟩ := hw
    obtain ⟨r, w'', hgives, htree⟩ := hf x w'
    dsimp only
    rw [hgives]
    exact ⟨bytes, htree ▸ hw⟩

theorem AllOrNothing.discard {a : Action ε α} {p : Path} (ha : AllOrNothing a p) :
    AllOrNothing (discard a : Action ε Unit) p :=
  ha.bind fun _ w => ⟨(), w, rfl, rfl⟩

theorem AllOrNothing.adapt {δ : Type} (f : ε → δ) {a : Action ε α} {p : Path}
    (ha : AllOrNothing a p) : AllOrNothing (a.adapt f : Action δ α) p := by
  intro w
  have hw := ha w
  rw [run_adapt]
  rcases hrun : (ExceptT.run a).run w with ⟨e | x, w'⟩ <;> rw [hrun] at hw <;> exact hw

end Manifest.Action
