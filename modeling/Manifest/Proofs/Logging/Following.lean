import Manifest.Logging.Setup

/-! Following loggers closely: which loggers the environment asks for, and what becomes of all loggers when
they are followed. A logger that is followed tells so in a record. Where a record cannot be written, those
behind it in the list are not come to, so what the environment asks for is done exactly if all of them are come
to or need nothing done. What has been done once is not done again. -/

set_option autoImplicit false

namespace Manifest.Logging

/-! ### What is asked for -/

/-- The loggers that the environment asks to follow closely. -/
inductive Environment.AsksFor (e : Environment) : Name → Prop
  /-- Merging is followed at a word that stands for yes. -/
  | merging (h : Text.lowerAscii (Text.strip (e.debugMerge.getD "")) ∈ affirmatives) : e.AsksFor .merging
  /-- A logger is followed whose name stands between commas, with white space around it or none. -/
  | listed {names : String} {part : List Char} (hnames : e.debugModules = some names)
      (hpart : part ∈ names.toList.splitOn ',') (hname : Text.stripList part ≠ []) :
      e.AsksFor (.ofText (String.ofList (Text.stripList part)))

/-- Whether all that helps to find faults passes a logger and one of its own handlers. -/
def Logger.IsFollowed (l : Logger) : Prop :=
  l.threshold = .ofLevel .debug ∧ ∃ h ∈ l.handlers, h.takesDebug = true

/-- Whether just the loggers that are asked for have been followed. -/
structure FollowsExactly (asked : Name → Prop) (before after : Loggers) : Prop where
  followed : ∀ n, asked n → (after.get n).IsFollowed
  /-- A logger with no handler that would do gets one more. -/
  added : ∀ n, asked n → (∀ h ∈ (before.get n).handlers, h.takesDebug = false) →
    ∃ h, (after.get n).handlers = (before.get n).handlers ++ [h]
  /-- A logger with one keeps its handlers. -/
  kept : ∀ n, asked n → (∃ h ∈ (before.get n).handlers, h.takesDebug = true) →
    (after.get n).handlers = (before.get n).handlers
  others : ∀ n, ¬ asked n → after.get n = before.get n

/-- Whether a logger is come to: the records of all those in front of it in the list can be written. -/
def Environment.ComesTo (e : Environment) (a : Arrangement) (n : Name) : Prop :=
  ∃ front back, e.followed = front ++ n :: back ∧ (followAndTell a front).2 = .ok ()

namespace Environment

theorem splitCommas_eq_splitOn (cs : List Char) : splitCommas cs = cs.splitOn ',' := by
  induction cs with
  | nil => rfl
  | cons c cs ih =>
    rw [splitCommas, ih, List.splitOn_eq_splitOnP, List.splitOn_eq_splitOnP,
      List.splitOnP_cons_eq_if_modifyHead]
    split
    · rfl
    · split
      · next hnil => exact absurd hnil (List.splitOnP_ne_nil _ cs)
      · next hparts => rw [hparts, List.modifyHead_cons]

theorem mem_namesIn_iff {names name : String} :
    name ∈ namesIn names ↔ ∃ part ∈ names.toList.splitOn ',', Text.stripList part ≠ [] ∧
      String.ofList (Text.stripList part) = name := by
  rw [namesIn, splitCommas_eq_splitOn, List.mem_filter, List.mem_map]
  constructor
  · rintro ⟨⟨part, hpart, rfl⟩, hname⟩
    exact ⟨part, hpart, by simpa using hname, rfl⟩
  · rintro ⟨part, hpart, hname, rfl⟩
    exact ⟨⟨part, hpart, rfl⟩, by simpa using hname⟩

/-- The loggers in the list are those that the environment asks for. -/
theorem mem_followed_iff {e : Environment} {n : Name} : n ∈ e.followed ↔ e.AsksFor n := by
  have hmerge : e.followsMerge = true ↔
      Text.lowerAscii (Text.strip (e.debugMerge.getD "")) ∈ affirmatives := List.contains_iff_mem
  rw [followed, List.mem_append, List.mem_map]
  constructor
  · rintro (h | ⟨name, hname, rfl⟩)
    · split at h
      · next hyes =>
        rw [List.mem_singleton.mp h]
        exact .merging (hmerge.mp hyes)
      · cases h
    · obtain ⟨part, hpart, hne, rfl⟩ := mem_namesIn_iff.mp hname
      cases hnames : e.debugModules with
      | none =>
        rw [hnames] at hpart
        rw [List.mem_singleton.mp hpart] at hne
        exact absurd rfl hne
      | some names =>
        rw [hnames] at hpart
        exact .listed hnames hpart hne
  · rintro (h | ⟨hnames, hpart, hne⟩)
    · rw [hmerge.mpr h]
      exact Or.inl List.mem_cons_self
    · rw [hnames]
      exact Or.inr ⟨_, mem_namesIn_iff.mpr ⟨_, hpart, hne, rfl⟩, rfl⟩

example : ({ debugMerge := some " Yes", debugModules := some " b,, root,a , b" } : Environment).followed =
    [.merging, .below "b", .root, .below "a", .below "b"] := by
  decide +kernel

end Environment

/-! ### Loggers one after the other -/

theorem Logger.isFollowed_followed (l : Logger) : l.followed.IsFollowed :=
  ⟨rfl, List.any_eq_true.mp l.any_takesDebug_followed⟩

theorem Logger.IsFollowed.followed_eq {l : Logger} (h : l.IsFollowed) : l.followed = l :=
  Logger.followed_eq_self h.1 (List.any_eq_true.mpr h.2)

theorem Logger.handlers_followed_of_any {l : Logger} (h : ∃ h ∈ l.handlers, h.takesDebug = true) :
    l.followed.handlers = l.handlers :=
  if_pos (List.any_eq_true.mpr h)

theorem Logger.handlers_followed_of_all {l : Logger} (h : ∀ h ∈ l.handlers, h.takesDebug = false) :
    l.followed.handlers = l.handlers ++ [.debug] :=
  if_neg (by simpa using h)

namespace Loggers

theorem get_follow (ls : Loggers) (n m : Name) :
    (ls.follow n).get m = if m = n then (ls.get m).followed else ls.get m := by
  rw [follow, modify]
  split
  · next h => rw [h, get_put_self]
  · next h => rw [get_put_of_ne ls _ h]

/-- However often a logger is in the list, it is followed once. -/
theorem get_followAll (ls : Loggers) (ns : List Name) (m : Name) :
    (ls.followAll ns).get m = if m ∈ ns then (ls.get m).followed else ls.get m := by
  induction ns generalizing ls with
  | nil => rfl
  | cons n ns ih =>
    rw [followAll, List.foldl_cons, ← followAll, ih, get_follow]
    by_cases hn : m = n
    -- If it is in the rest of the list, too, it is followed twice, which is as good as once.
    · rw [if_pos hn, if_pos (List.mem_cons.mpr (Or.inl hn)), Logger.followed_followed, ite_self]
    · simp only [List.mem_cons, hn, if_false, false_or]

end Loggers

/-! ### Records that cannot be written -/

variable {a : Arrangement} {n m : Name} {ns : List Name} {o : Outlets}

theorem followAndTell_of_told (h : (a.loggers.follow m).emit m .info a.toOutlets = (o, .ok ())) :
    followAndTell a (m :: ns) = followAndTell { toOutlets := o, loggers := a.loggers.follow m } ns := by
  rw [followAndTell, h]

theorem followAndTell_of_untold {e : OpenError}
    (h : (a.loggers.follow m).emit m .info a.toOutlets = (o, .error e)) :
    followAndTell a (m :: ns) = ({ toOutlets := o, loggers := a.loggers.follow m }, .error e) := by
  rw [followAndTell, h]

/-- The loggers that are come to: those up to the first one whose record cannot be written. -/
def reached (a : Arrangement) : List Name → List Name
  | [] => []
  | n :: ns =>
    let loggers := a.loggers.follow n
    n :: match loggers.emit n .info a.toOutlets with
      | (o, .ok ()) => reached { toOutlets := o, loggers } ns
      | (_, .error _) => []

/-- The loggers that are come to are followed, whatever becomes of their records. -/
theorem loggers_followAndTell (a : Arrangement) (ns : List Name) :
    (followAndTell a ns).1.loggers = a.loggers.followAll (reached a ns) := by
  induction ns generalizing a with
  | nil => rfl
  | cons n ns ih =>
    obtain ⟨o, told, htold⟩ : ∃ o told, (a.loggers.follow n).emit n .info a.toOutlets = (o, told) :=
      ⟨_, _, rfl⟩
    rw [reached, htold]
    cases told with
    | ok => rw [followAndTell_of_told htold, ih]; rfl
    | error e => rw [followAndTell_of_untold htold]; rfl

/-- A logger is come to exactly if following all those in front of it ends well. -/
theorem mem_reached_iff :
    n ∈ reached a ns ↔ ∃ front back, ns = front ++ n :: back ∧ (followAndTell a front).2 = .ok () := by
  induction ns generalizing a with
  | nil => simp [reached]
  | cons m ns ih =>
    obtain ⟨o, told, htold⟩ : ∃ o told, (a.loggers.follow m).emit m .info a.toOutlets = (o, told) :=
      ⟨_, _, rfl⟩
    rw [reached, htold, List.mem_cons]
    constructor
    · rintro (rfl | h)
      · exact ⟨[], ns, rfl, rfl⟩
      · cases told with
        | ok =>
          obtain ⟨front, back, rfl, hfront⟩ := ih.mp h
          exact ⟨m :: front, back, rfl, by rw [followAndTell_of_told htold]; exact hfront⟩
        | error e => cases h
    · rintro ⟨front, back, hns, hfront⟩
      cases front with
      | nil => exact Or.inl (List.cons.inj hns).1.symm
      | cons first front =>
        obtain ⟨rfl, rfl⟩ := List.cons.inj hns
        cases told with
        | ok =>
          rw [followAndTell_of_told htold] at hfront
          exact Or.inr (ih.mpr ⟨front, back, rfl, hfront⟩)
        | error e =>
          rw [followAndTell_of_untold htold] at hfront
          cases hfront

/-- Where all records can be written, those of the first loggers can. -/
theorem told_of_append {front back : List Name} (h : (followAndTell a (front ++ back)).2 = .ok ()) :
    (followAndTell a front).2 = .ok () := by
  induction front generalizing a with
  | nil => rfl
  | cons m front ih =>
    obtain ⟨o, told, htold⟩ : ∃ o told, (a.loggers.follow m).emit m .info a.toOutlets = (o, told) :=
      ⟨_, _, rfl⟩
    rw [List.cons_append] at h
    cases told with
    | ok =>
      rw [followAndTell_of_told htold] at h ⊢
      exact ih h
    | error e =>
      rw [followAndTell_of_untold htold] at h
      cases h

/-! ### What the environment asks for is done -/

namespace Environment

variable (e : Environment)

theorem asksFor_of_comesTo (h : e.ComesTo a n) : e.AsksFor n := by
  obtain ⟨front, back, hfollowed, -⟩ := h
  rw [← mem_followed_iff, hfollowed]
  exact List.mem_append_right front List.mem_cons_self

/-- Where all records can be written, every logger that is asked for is come to. -/
theorem comesTo_of_told (h : (e.follow a).2 = .ok ()) (hn : e.AsksFor n) : e.ComesTo a n := by
  obtain ⟨front, back, hfollowed⟩ := List.append_of_mem (mem_followed_iff.mpr hn)
  rw [follow, hfollowed] at h
  exact ⟨front, back, hfollowed, told_of_append h⟩

/-- A logger that is come to is followed, and all others stay as they are. -/
theorem get_follow_of_comesTo (h : e.ComesTo a n) :
    (e.follow a).1.loggers.get n = (a.loggers.get n).followed := by
  rw [follow, loggers_followAndTell, Loggers.get_followAll, if_pos (mem_reached_iff.mpr h)]

theorem get_follow_of_not_comesTo (h : ¬ e.ComesTo a n) :
    (e.follow a).1.loggers.get n = a.loggers.get n := by
  rw [follow, loggers_followAndTell, Loggers.get_followAll,
    if_neg fun hreached => h (mem_reached_iff.mp hreached)]

/-- Where nothing is left to do, nothing is done. -/
theorem get_follow_of_isFollowed (h : ∀ n, e.AsksFor n → (a.loggers.get n).IsFollowed) (n : Name) :
    (e.follow a).1.loggers.get n = a.loggers.get n := by
  by_cases hcomes : e.ComesTo a n
  · rw [e.get_follow_of_comesTo hcomes, (h n (e.asksFor_of_comesTo hcomes)).followed_eq]
  · exact e.get_follow_of_not_comesTo hcomes

/-- Just the loggers that are asked for have been followed, if each of them is followed as it was. -/
theorem followsExactly_of_get {asked : Name → Prop} {before after : Loggers}
    (hasked : ∀ n, asked n → after.get n = (before.get n).followed)
    (hothers : ∀ n, ¬ asked n → after.get n = before.get n) : FollowsExactly asked before after where
  followed n hn := by
    rw [hasked n hn]
    exact Logger.isFollowed_followed _
  added n hn hnone := ⟨.debug, by rw [hasked n hn, Logger.handlers_followed_of_all hnone]⟩
  kept n hn hsome := by rw [hasked n hn, Logger.handlers_followed_of_any hsome]
  others := hothers

/--
Just the loggers that the environment asks for are followed, and to follow them once more changes no logger,
whatever has become of the files, exactly if each of them is come to or is followed already.
-/
theorem follow_exact_iff (a : Arrangement) :
    (FollowsExactly e.AsksFor a.loggers (e.follow a).1.loggers ∧
      ∀ (o : Outlets) (n : Name), (e.follow { (e.follow a).1 with toOutlets := o }).1.loggers.get n =
        (e.follow a).1.loggers.get n) ↔
      ∀ n, e.AsksFor n → e.ComesTo a n ∨ (a.loggers.get n).IsFollowed := by
  constructor
  · rintro ⟨hexact, -⟩ n hn
    by_cases hcomes : e.ComesTo a n
    · exact Or.inl hcomes
    · have hfollowed := hexact.followed n hn
      rw [e.get_follow_of_not_comesTo hcomes] at hfollowed
      exact Or.inr hfollowed
  · intro h
    have hasked : ∀ n, e.AsksFor n → (e.follow a).1.loggers.get n = (a.loggers.get n).followed := by
      intro n hn
      by_cases hcomes : e.ComesTo a n
      · exact e.get_follow_of_comesTo hcomes
      -- It stays as it is, and so it would if it were come to.
      · rw [e.get_follow_of_not_comesTo hcomes, ((h n hn).resolve_left hcomes).followed_eq]
    have hothers : ∀ n, ¬ e.AsksFor n → (e.follow a).1.loggers.get n = a.loggers.get n := fun n hn =>
      e.get_follow_of_not_comesTo fun hcomes => hn (e.asksFor_of_comesTo hcomes)
    have hexact := followsExactly_of_get hasked hothers
    exact ⟨hexact, fun o => e.get_follow_of_isFollowed hexact.followed⟩

/-- A logger whose handler cannot open its file keeps the next one from being followed. -/
theorem second_not_followed :
    let e : Environment := { debugModules := some "a,b" }
    let late : Handler := { kind := .file, pending := some ⟨0, { name := "missing/late.log" }⟩ }
    let a : Arrangement := { loggers := Loggers.put {} (.below "a") { handlers := [late] } }
    ¬ FollowsExactly e.AsksFor a.loggers (e.follow a).1.loggers := by
  intro e late a h
  have hasked : e.AsksFor (.below "b") := mem_followed_iff.mp (by decide +kernel)
  have hunset : ((e.follow a).1.loggers.get (.below "b")).threshold ≠ .ofLevel .debug := by decide +kernel
  exact hunset (h.followed _ hasked).1

end Environment

end Manifest.Logging
