import Mathlib.Order.Lattice
import Mathlib.Data.List.Count
import Mathlib.Data.List.Perm.Basic

/-! Maps in which the value of the greatest rank wins. Each value that is put in goes to
its key; of it and the one already there the one of lower rank is given back. What is held
in the end are the values of greatest rank, in whatever order they came. -/

namespace Fon9.Lib.LastWriter

open List Function Function Option

variable {K V O : Type*} [DecidableEq K] [LinearOrder O] (key : V → K) (rank : V → O)

/-- The map with the value put in, and the value that is given back. -/
def put (w : K → Option V) (v : V) : (K → Option V) × Option V :=
  match w (key v) with
  | none => (Function.update w (key v) (some v), none)
  | some u => if rank v ≤ rank u then (w, some v) else (Function.update w (key v) (some v), some u)

/-- Values put in one after the other, and all that is given back. -/
def putAll (w : K → Option V) : List V → (K → Option V) × List V
  | [] => (w, [])
  | v :: vs => ((putAll (put key rank w v).1 vs).1,
      (put key rank w v).2.toList ++ (putAll (put key rank w v).1 vs).2)

variable (w : K → Option V)

/-- The values that stand for a key: the one the map holds and those that come. -/
def Candidate (vs : List V) (v : V) : Prop := w (key v) = some v ∨ v ∈ vs

def IsTop (vs : List V) (v : V) : Prop :=
  Candidate key w vs v ∧ ∀ u, Candidate key w vs u → key u = key v → rank u ≤ rank v

/-- No two values for a key have the same rank. -/
def Ranked (vs : List V) : Prop :=
  ∀ u v, Candidate key w vs u → Candidate key w vs v → key u = key v → rank u = rank v → u = v

/-- The map holds values under their own keys. -/
def Keyed : Prop := ∀ k v, w k = some v → key v = k

variable {key rank} {w : K → Option V} {vs vs' : List V} {k : K} {u v x : V}

theorem put_none (hw : w (key v) = none) :
    put key rank w v = (update w (key v) (some v), none) := by
  rw [put, hw]

theorem put_old (hw : w (key v) = some u) (hle : rank v ≤ rank u) :
    put key rank w v = (w, some v) := by
  rw [put, hw]
  exact if_pos hle

theorem put_new (hw : w (key v) = some u) (hlt : rank u < rank v) :
    put key rank w v = (update w (key v) (some v), some u) := by
  rw [put, hw]
  exact if_neg (not_le.mpr hlt)

theorem put_keyed (h : Keyed key w) (v : V) : Keyed key (put key rank w v).1 := by
  have hupdate : Keyed key (update w (key v) (some v)) := by
    intro k u hk
    by_cases hkey : k = key v
    · rw [hkey, update_self, some.injEq] at hk
      rw [hkey, hk]
    · rw [update_of_ne hkey] at hk
      exact h k u hk
  unfold put
  split
  · exact hupdate
  · split
    · exact h
    · exact hupdate

/-- A value held after another was put in was held before, or is the new one. -/
theorem put_candidate (h : Candidate key (put key rank w v).1 vs x) : Candidate key w (v :: vs) x := by
  have hupdate : Candidate key (update w (key v) (some v)) vs x →
      Candidate key w (v :: vs) x := by
    rintro (hheld | hcome)
    · by_cases hkey : key x = key v
      · rw [hkey, update_self, some.injEq] at hheld
        exact .inr (hheld ▸ mem_cons_self)
      · rw [update_of_ne hkey] at hheld
        exact .inl hheld
    · exact .inr (mem_cons_of_mem _ hcome)
  unfold put at h
  split at h
  · exact hupdate h
  · split at h
    · exact h.imp_right (mem_cons_of_mem _)
    · exact hupdate h

/-- A candidate that is gone after a step has a better one for its key. -/
theorem candidate_put (hkeyed : Keyed key w) (h : Candidate key w (v :: vs) x) :
    Candidate key (put key rank w v).1 vs x ∨
      ∃ y, Candidate key (put key rank w v).1 vs y ∧ key y = key x ∧ rank x ≤ rank y := by
  by_cases hcome : x ∈ vs
  · exact .inl (.inr hcome)
  have hold : w (key x) = some x ∨ x = v := by
    rcases h with hheld | hmem
    · exact .inl hheld
    · exact .inr ((mem_cons.mp hmem).resolve_right hcome)
  unfold put
  cases hw : w (key v) with
  | none =>
    left
    left
    rcases hold with hheld | rfl
    · have hne : key x ≠ key v := by
        intro hkey
        rw [hkey, hw] at hheld
        cases hheld
      dsimp only
      rw [update_of_ne hne]
      exact hheld
    · dsimp only
      exact update_self ..
  | some u =>
    have hu : key u = key v := hkeyed _ _ hw
    dsimp only
    by_cases hle : rank v ≤ rank u
    · rw [if_pos hle]
      rcases hold with hheld | rfl
      · exact .inl (.inl hheld)
      · exact .inr ⟨u, .inl (hu ▸ hw), hu, hle⟩
    · rw [if_neg hle]
      rcases hold with hheld | rfl
      · by_cases hkey : key x = key v
        · -- the value that was held gives way
          rw [hkey, hw, some.injEq] at hheld
          subst hheld
          refine .inr ⟨v, .inl (update_self ..), hkey.symm, ?_⟩
          exact le_of_lt (not_le.mp hle)
        · left
          left
          dsimp only
          rw [update_of_ne hkey]
          exact hheld
      · exact .inl (.inl (update_self ..))

theorem isTop_put (hkeyed : Keyed key w) (hranked : Ranked key rank w (v :: vs)) :
    IsTop key rank (put key rank w v).1 vs x ↔ IsTop key rank w (v :: vs) x := by
  constructor
  · rintro ⟨hx, htop⟩
    refine ⟨put_candidate hx, fun y hy hkey => ?_⟩
    rcases @candidate_put _ _ _ _ _ key rank _ _ _ _ hkeyed hy with hy | ⟨z, hz, hzkey, hle⟩
    · exact htop y hy hkey
    · exact le_trans hle (htop z hz (hzkey.trans hkey))
  · rintro ⟨hx, htop⟩
    refine ⟨?_, fun y hy hkey => htop y (put_candidate hy) hkey⟩
    rcases @candidate_put _ _ _ _ _ key rank _ _ _ _ hkeyed hx with hx' | ⟨z, hz, hzkey, hle⟩
    · exact hx'
    · have hz' := put_candidate hz
      have heq := hranked x z hx hz' hzkey.symm (le_antisymm hle (htop z hz' hzkey))
      rw [heq]
      exact hz

theorem ranked_put (hranked : Ranked key rank w (v :: vs)) : Ranked key rank (put key rank w v).1 vs :=
  fun x y hx hy => hranked x y (put_candidate hx) (put_candidate hy)

/-- What the map holds in the end is the value of greatest rank of each key. -/
theorem putAll_eq_some_iff (hkeyed : Keyed key w) (hranked : Ranked key rank w vs) :
    (putAll key rank w vs).1 k = some v ↔ key v = k ∧ IsTop key rank w vs v := by
  induction vs generalizing w with
  | nil =>
    constructor
    · intro hk
      have hkey := hkeyed k v hk
      refine ⟨hkey, .inl (hkey ▸ hk), ?_⟩
      rintro u (hu | hu) hsame
      · rw [hsame, hkey, show w k = some v from hk, some.injEq] at hu
        rw [hu]
      · cases hu
    · rintro ⟨rfl, hv | hv, -⟩
      · exact hv
      · cases hv
  | cons x vs ih =>
    rw [putAll, ih (put_keyed hkeyed x) (ranked_put hranked), isTop_put hkeyed hranked]

omit [DecidableEq K] in
theorem Candidate.perm (h : vs.Perm vs') : Candidate key w vs v ↔ Candidate key w vs' v :=
  or_congr_right h.mem_iff

/-- The order in which the values come does not matter. -/
theorem putAll_perm (hkeyed : Keyed key w) (hranked : Ranked key rank w vs) (h : vs.Perm vs') :
    (putAll key rank w vs').1 = (putAll key rank w vs).1 := by
  have hranked' : Ranked key rank w vs' := fun u v hu hv =>
    hranked u v ((Candidate.perm h).mpr hu) ((Candidate.perm h).mpr hv)
  funext k
  apply ext
  intro v
  rw [putAll_eq_some_iff hkeyed hranked, putAll_eq_some_iff hkeyed hranked']
  unfold IsTop
  simp only [Candidate.perm h]

/-! ### What is given back -/

section

variable [DecidableEq V]

/-- How often the map holds a value: once or not at all. -/
def held (key : V → K) (w : K → Option V) (v : V) : ℕ := if w (key v) = some v then 1 else 0

/-- A step neither loses a value nor makes one. -/
theorem put_count (hkeyed : Keyed key w) (v x : V) :
    (put key rank w v).2.toList.count x + held key (put key rank w v).1 x =
      [v].count x + held key w x := by
  have hupdate : held key (update w (key v) (some v)) x =
      if key x = key v then [v].count x else held key w x := by
    unfold held
    by_cases hkey : key x = key v
    · rw [if_pos hkey, hkey, update_self, count_singleton]
      simp only [some.injEq, beq_iff_eq]
    · rw [if_neg hkey, update_of_ne hkey]
  have hother : key x ≠ key v → [v].count x = 0 := by
    intro hkey
    rw [count_eq_zero, mem_singleton]
    exact fun h => hkey (h ▸ rfl)
  cases hw : w (key v) with
  | none =>
    rw [put_none hw, hupdate]
    by_cases hkey : key x = key v
    · simp [held, hkey, hw]
    · simp [if_neg hkey, hother hkey]
  | some u =>
    rcases le_or_gt (rank v) (rank u) with hle | hlt
    · rw [put_old hw hle]
      rfl
    · rw [put_new hw hlt, hupdate]
      by_cases hkey : key x = key v
      · simp only [held, hkey, hw, if_true, toList_some, count_singleton,
          some.injEq, beq_iff_eq]
        exact Nat.add_comm _ _
      · have hux : u ≠ x := by
          rintro rfl
          exact hkey (hkeyed _ _ hw)
        rw [if_neg hkey, hother hkey]
        simp [hux]

theorem putAll_count (hkeyed : Keyed key w) (vs : List V) (x : V) :
    (putAll key rank w vs).2.count x + held key (putAll key rank w vs).1 x =
      vs.count x + held key w x := by
  induction vs generalizing w with
  | nil => rfl
  | cons v vs ih =>
    have hstep := @put_count _ _ _ _ _ key rank _ _ hkeyed v x
    have hrest := ih (@put_keyed _ _ _ _ _ key rank _ hkeyed v)
    show ((put key rank w v).2.toList ++ (putAll key rank (put key rank w v).1 vs).2).count x +
      held key (putAll key rank (put key rank w v).1 vs).1 x = (v :: vs).count x + held key w x
    rw [count_append, ← singleton_append, count_append]
    omega

end

end Fon9.Lib.LastWriter
