import Mathlib.Data.List.Basic

/-! Paths with names for "here" and "up". A path leads to the names that are left when each "here" and
each name with an "up" behind it are taken out; two paths lead to the same names exactly when they
become the same path in that way. -/

namespace Fon9.Lib.Dots

open List

variable {α : Type*} (here up : α → Prop)

/-- An item that is a name. -/
def IsName (s : α) : Prop := ¬ here s ∧ ¬ up s

/-- The second path is the first one without some "here" and some names with the "up" behind them. -/
inductive Shortens : List α → List α → Prop
  | refl (path : List α) : Shortens path path
  | here {s : α} {pre post path : List α} (hhere : here s) (h : Shortens (pre ++ post) path) :
    Shortens (pre ++ s :: post) path
  | up {s t : α} {pre post path : List α} (hname : IsName here up s) (hup : ¬ here t ∧ up t)
    (h : Shortens (pre ++ post) path) : Shortens (pre ++ s :: t :: post) path

variable {here up} in
theorem Shortens.sublist {path path' : List α} (h : Shortens here up path path') : path'.Sublist path := by
  induction h with
  | refl path => exact .refl path
  | here hhere h ih => exact ih.trans (.append_left (.cons _ (.refl _)) _)
  | up hname hup h ih => exact ih.trans (.append_left (.cons _ (.cons _ (.refl _))) _)

variable [DecidablePred here] [DecidablePred up]

/-- Where a path leads from `names`, of which the last is the latest. -/
def walk : List α → List α → Option (List α)
  | names, [] => some names
  | names, s :: path =>
    if here s then walk names path
    else if up s then (if names = [] then none else walk names.dropLast path)
    else walk (names ++ [s]) path

variable {here up}

theorem walk_here {s : α} (h : here s) (names path : List α) :
    walk here up names (s :: path) = walk here up names path := if_pos h

theorem walk_name {s : α} (h : IsName here up s) (names path : List α) :
    walk here up names (s :: path) = walk here up (names ++ [s]) path := by
  rw [walk, if_neg h.1, if_neg h.2]

theorem walk_up {s : α} (h : ¬ here s ∧ up s) {names : List α} (hne : names ≠ []) (path : List α) :
    walk here up names (s :: path) = walk here up names.dropLast path := by
  rw [walk, if_neg h.1, if_pos h.2, if_neg hne]

/-- A path of names leads to them. -/
theorem walk_of_names {path : List α} (h : ∀ s ∈ path, IsName here up s) (names : List α) :
    walk here up names path = some (names ++ path) := by
  induction path generalizing names with
  | nil => rw [walk, append_nil]
  | cons s path ih =>
    rw [forall_mem_cons] at h
    rw [walk_name h.1, ih h.2, append_assoc, singleton_append]

/-- It does not lead anywhere when some first part of it has more "up" than there are names. -/
theorem walk_eq_none_iff (path names : List α) : walk here up names path = none ↔
    ∃ pre, pre <+: path ∧ names.length + (pre.countP fun s => ¬ here s ∧ ¬ up s) < pre.countP fun s => ¬ here s ∧ up s := by
  induction path generalizing names with
  | nil =>
    refine ⟨(by intro h; cases h), ?_⟩
    rintro ⟨pre, hpre, hlt⟩
    rw [prefix_nil.mp hpre] at hlt
    simp at hlt
  | cons s path ih =>
    have hcons : (∃ pre, pre <+: s :: path ∧ names.length + (pre.countP fun s => ¬ here s ∧ ¬ up s) < pre.countP fun s => ¬ here s ∧ up s) ↔
        ∃ pre, pre <+: path ∧ names.length + ((s :: pre).countP fun s => ¬ here s ∧ ¬ up s) < (s :: pre).countP fun s => ¬ here s ∧ up s := by
      constructor
      · rintro ⟨pre, hpre, hlt⟩
        rcases prefix_cons_iff.mp hpre with rfl | ⟨pre', rfl, hpre'⟩
        · simp at hlt
        · exact ⟨pre', hpre', hlt⟩
      · rintro ⟨pre, hpre, hlt⟩
        exact ⟨s :: pre, cons_prefix_cons.mpr ⟨rfl, hpre⟩, hlt⟩
    rw [hcons, walk]
    by_cases hhere : here s
    · rw [if_pos hhere, ih]
      simp [hhere]
    · rw [if_neg hhere]
      by_cases hup : up s
      · rw [if_pos hup]
        by_cases hne : names = []
        · rw [if_pos hne]
          refine iff_of_true rfl ⟨[], nil_prefix, ?_⟩
          simp [hhere, hup, hne]
        · have hpos := length_pos_iff.mpr hne
          rw [if_neg hne, ih]
          simp only [hhere, hup, not_false_eq_true, true_and, not_true_eq_false, and_false, countP_cons,
            decide_true, decide_false, if_true, Bool.false_eq_true, if_false, length_dropLast]
          apply exists_congr
          intro pre
          apply and_congr_right
          intro _
          omega
      · rw [if_neg hup, ih]
        simp [hhere, hup, Nat.add_assoc, Nat.add_comm 1]

theorem walk_append (names path path' : List α) :
    walk here up names (path ++ path') = (walk here up names path).bind fun names => walk here up names path' := by
  induction path generalizing names with
  | nil => rfl
  | cons s path ih =>
    rw [cons_append, walk, walk]
    split
    · exact ih names
    · split
      · split
        · rfl
        · exact ih _
      · exact ih _

theorem walk_of_shortens {path path' : List α} (h : Shortens here up path path') (names : List α) :
    walk here up names path = walk here up names path' := by
  induction h with
  | refl => rfl
  | here hhere h ih =>
    rw [← ih, walk_append, walk_append]
    congr 1
    funext names
    exact walk_here hhere names _
  | up hname hup h ih =>
    rw [← ih, walk_append, walk_append]
    congr 1
    funext names
    rw [walk_name hname, walk_up hup (append_ne_nil_of_right_ne_nil _ (cons_ne_nil _ _)),
      dropLast_concat]

/-- The names of a path are what it is shortened to. -/
theorem shortens_of_walk (path : List α) {names names' : List α} (hnames : ∀ s ∈ names, IsName here up s)
    (h : walk here up names path = some names') :
    Shortens here up (names ++ path) names' ∧ ∀ s ∈ names', IsName here up s := by
  induction path generalizing names with
  | nil =>
    cases h
    rw [append_nil]
    exact ⟨.refl _, hnames⟩
  | cons s path ih =>
    rw [walk] at h
    split at h
    · next hhere =>
      obtain ⟨hshort, hall⟩ := ih hnames h
      exact ⟨.here hhere hshort, hall⟩
    · next hhere =>
      split at h
      · next hup =>
        split at h
        · cases h
        · next hne =>
          have hlast := dropLast_append_getLast hne
          have hmem := getLast_mem hne
          obtain ⟨hshort, hall⟩ := ih (fun t ht => hnames t (dropLast_subset names ht)) h
          refine ⟨?_, hall⟩
          rw [← hlast, append_assoc, singleton_append]
          exact .up (hnames _ hmem) ⟨hhere, hup⟩ hshort
      · next hup =>
        have hs : ∀ t ∈ names ++ [s], IsName here up t := by
          intro t ht
          rcases mem_append.mp ht with ht | ht
          · exact hnames t ht
          · rw [mem_singleton.mp ht]
            exact ⟨hhere, hup⟩
        obtain ⟨hshort, hall⟩ := ih hs h
        rw [append_assoc, singleton_append] at hshort
        exact ⟨hshort, hall⟩

/-- Two paths lead to the same names when they can be shortened to the same path. -/
theorem walk_eq_iff {path path' names names' : List α} (h : walk here up [] path = some names)
    (h' : walk here up [] path' = some names') :
    names = names' ↔ ∃ short, Shortens here up path short ∧ Shortens here up path' short := by
  have hnone : ∀ s ∈ ([] : List α), IsName here up s := fun s hs => absurd hs not_mem_nil
  constructor
  · rintro rfl
    exact ⟨names, (shortens_of_walk path hnone h).1, (shortens_of_walk path' hnone h').1⟩
  · rintro ⟨short, hshort, hshort'⟩
    rw [walk_of_shortens hshort] at h
    rw [walk_of_shortens hshort', h] at h'
    exact Option.some.inj h'

theorem walk_names {path names : List α} (h : walk here up [] path = some names) :
    ∀ s ∈ names, IsName here up s :=
  (shortens_of_walk path (fun _ hs => absurd hs not_mem_nil) h).2

theorem walk_sublist {path names : List α} (h : walk here up [] path = some names) : names.Sublist path :=
  (shortens_of_walk path (fun _ hs => absurd hs not_mem_nil) h).1.sublist

end Fon9.Lib.Dots
