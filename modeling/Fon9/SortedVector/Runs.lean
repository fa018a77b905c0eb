import Mathlib.Data.List.TakeWhile
import Fon9.SortedVector.Insert

/-! A `SortedVector` over whole runs: its keys stay strictly increasing, and a hint changes nothing
of what is put where. -/

namespace Fon9.SortedVector

open Lib List Bool

variable {α : Type} {cmp : Compare α} {container : List α} {v : α}

/-- The keys are equivalent. -/
def Same (cmp : Compare α) (x v : α) : Prop := cmp.cmp x v = false ∧ cmp.cmp v x = false

theorem insertIdx_eq_append (container : List α) (v : α) {i : ℕ} (hi : i ≤ container.length) :
    container.insertIdx i v = container.take i ++ v :: container.drop i := by
  induction i generalizing container with
  | zero => rfl
  | succ i ih =>
    cases container with
    | nil => exact absurd hi (Nat.not_succ_le_zero i)
    | cons x xs => rw [insertIdx_succ_cons, ih xs (Nat.le_of_succ_le_succ hi), take_succ_cons, drop_succ_cons,
        cons_append]

section

variable (h : Sorted cmp container)
include h

theorem cmp_of_mem_take {x : α} (hx : x ∈ container.take (place cmp container v)) :
    cmp.cmp x v = true := by
  rw [mem_take_iff_getElem] at hx
  obtain ⟨i, hi, rfl⟩ := hx
  exact (below_iff h (by omega)).mpr (by omega)

theorem not_cmp_of_mem_drop {x : α} (hx : x ∈ container.drop (place cmp container v)) :
    ¬ cmp.cmp x v = true := by
  rw [mem_drop_iff_getElem] at hx
  obtain ⟨i, hi, rfl⟩ := hx
  rw [below_iff h]
  omega

/-- The key is there exactly when there is an equivalent one. -/
theorem isThere_iff : isThere cmp container v = true ↔ ∃ x ∈ container, Same cmp x v := by
  rw [isThere]
  constructor
  · intro hthere
    split at hthere
    · next x hx =>
      obtain ⟨hlt, rfl⟩ := List.getElem?_eq_some_iff.mp hx
      refine ⟨_, getElem_mem hlt, eq_false_iff.mpr (fun hbelow => ?_), ?_⟩
      · exact lt_irrefl _ ((below_iff h hlt).mp hbelow)
      · rw [not_eq_true'] at hthere
        exact hthere
    · cases hthere
  · rintro ⟨x, hx, hbelow, habove⟩
    obtain ⟨i, hi, rfl⟩ := getElem_of_mem hx
    have hle : place cmp container v ≤ i := by
      by_contra hlt
      rw [(below_iff h hi).mpr (by omega)] at hbelow
      cases hbelow
    have hplace : place cmp container v < container.length := by omega
    rw [getElem?_eq_getElem hplace]
    dsimp only
    rw [not_eq_true', eq_false_iff]
    intro hless
    obtain hlt | heq := Nat.lt_or_eq_of_le hle
    · have hnext := cmp.trans _ _ _ hless (pairwise_iff_getElem.mp h _ i hplace hi hlt)
      rw [habove] at hnext
      cases hnext
    · simp only [heq] at hless
      rw [habove] at hless
      cases hless

/-- A new value comes before all that is not before its place. -/
theorem cmp_of_mem_drop (hnew : ¬ isThere cmp container v = true) {x : α}
    (hx : x ∈ container.drop (place cmp container v)) : cmp.cmp v x = true := by
  rw [not_eq_true] at hnew
  by_contra hnot
  have hsame : Same cmp x v := by
    rw [not_eq_true] at hnot
    exact ⟨eq_false_iff.mpr (not_cmp_of_mem_drop h hx), hnot⟩
  rw [(isThere_iff h).mpr ⟨x, mem_of_mem_drop hx, hsame⟩] at hnew
  cases hnew

theorem sorted_put (v : α) : Sorted cmp (put cmp container v) := by
  rw [put]
  split
  · exact h
  · next hnew =>
    rw [insertIdx_eq_append container v (place_le cmp container v), Sorted, pairwise_append, pairwise_cons]
    have hbehind : ∀ x ∈ container.drop (place cmp container v), cmp.cmp v x = true := fun x => cmp_of_mem_drop h hnew
    refine ⟨h.sublist (take_sublist _ _), ⟨hbehind, h.sublist (drop_sublist _ _)⟩, fun a ha b hb => ?_⟩
    have hav := cmp_of_mem_take h ha
    obtain rfl | hb := mem_cons.mp hb
    · exact hav
    · exact cmp.trans _ _ _ hav (hbehind b hb)

theorem sorted_erase {first last : ℕ} (hle : first ≤ last) :
    Sorted cmp (erase container first last) := by
  refine h.sublist ?_
  have hsub := (List.Sublist.refl (container.take first)).append (drop_sublist_drop_left container hle)
  rw [take_append_drop] at hsub
  exact hsub

theorem sorted_removeIf (first last : ℕ) (pred : α → Bool) :
    Sorted cmp (removeIf container first last pred) := by
  rw [removeIf]
  split
  · exact h
  · next hlt =>
    refine h.sublist ?_
    have hmiddle : ((container.take last).drop first).filter (fun x => !pred x) |>.Sublist ((container.take last).drop first) :=
      filter_sublist
    have hsplit : container.take first ++ (container.take last).drop first = container.take last := by
      have hmin : min first last = first := Nat.min_eq_left (by omega)
      rw [← hmin, ← take_take, hmin, take_append_drop]
    have hsub := ((List.Sublist.refl (container.take first)).append hmiddle).append (List.Sublist.refl (container.drop last))
    rw [hsplit, take_append_drop] at hsub
    exact hsub

/-! ### Runs -/

end

/-- The operations. An `erase` is given places of the vector. -/
inductive Op (α : Type)
  | insert (v : α)
  | insertHint (ihint : ℕ) (v : α)
  | emplace (v : α)
  | kfetch (v : α)
  | erase (first last : ℕ)
  | removeIf (first last : ℕ) (pred : α → Bool)

/-- An operation on a vector; one that is given other places is not called. -/
def step (cmp : Compare α) (container : List α) : Op α → Option (List α)
  | .insert v => (insert cmp container v).map Prod.fst
  | .insertHint ihint v =>
    if ihint ≤ container.length then (insertHint cmp container v ihint).map Prod.fst else some container
  | .emplace v => (insert cmp container v).map Prod.fst
  | .kfetch v => kfetch cmp container v
  | .erase first last => some (if first ≤ last ∧ last ≤ container.length then erase container first last else container)
  | .removeIf first last pred => some (if last ≤ container.length then removeIf container first last pred else container)

theorem find_eq (h : Sorted cmp container) (v : α) :
    find cmp container v = some (if isThere cmp container v then (place cmp container v : ℤ) else container.length) := by
  have hfind := findI_eq h (.inl le_rfl) (Int.natCast_nonneg _) (place_le cmp container v) (le_refl _) (.inr rfl)
  rw [find, hfind]
  rfl

theorem place_lt_of_isThere (hthere : isThere cmp container v = true) : place cmp container v < container.length := by
  by_contra hge
  rw [isThere, getElem?_eq_none (Nat.le_of_not_lt hge)] at hthere
  cases hthere

theorem kfetch_eq (h : Sorted cmp container) (v : α) : kfetch cmp container v = some (put cmp container v) := by
  have hfetch : ∀ ifind, find cmp container v = some ifind → kfetch cmp container v =
      if ifind ≠ container.length then some container else (insert cmp container v).map Prod.fst := by
    intro ifind hifind
    rw [kfetch, hifind, insert_eq h]
    rfl
  rw [hfetch _ (find_eq h v)]
  by_cases hthere : isThere cmp container v = true
  · have hlt := place_lt_of_isThere hthere
    have hne : (place cmp container v : ℤ) ≠ container.length := fun heq => ne_of_lt hlt (Int.ofNat_inj.mp heq)
    rw [if_pos hthere, if_pos hne, put, if_pos hthere]
  · rw [if_neg hthere, if_neg (fun h => h rfl), insert_eq h]
    rfl

/-- No operation reads beside the elements, and the keys stay in order. -/
theorem step_sorted (h : Sorted cmp container) (op : Op α) : ∃ after, step cmp container op = some after ∧ Sorted cmp after := by
  cases op with
  | insert v =>
    refine ⟨put cmp container v, ?_, sorted_put h v⟩
    rw [step, insert_eq h]
    rfl
  | insertHint ihint v =>
    rw [step]
    split
    · next hhint =>
      refine ⟨put cmp container v, ?_, sorted_put h v⟩
      rw [insertHint_eq h v hhint]
      rfl
    · exact ⟨container, rfl, h⟩
  | emplace v =>
    refine ⟨put cmp container v, ?_, sorted_put h v⟩
    rw [step, insert_eq h]
    rfl
  | kfetch v => exact ⟨put cmp container v, kfetch_eq h v, sorted_put h v⟩
  | erase first last =>
    refine ⟨_, rfl, ?_⟩
    split
    · next hle => exact sorted_erase h hle.1
    · exact h
  | removeIf first last pred =>
    refine ⟨_, rfl, ?_⟩
    split
    · exact sorted_removeIf h first last pred
    · exact h

theorem run_sorted (ops : List (Op α)) (h : Sorted cmp container) :
    ∃ after, ops.foldlM (step cmp) container = some after ∧ Sorted cmp after := by
  induction ops generalizing container with
  | nil => exact ⟨container, rfl, h⟩
  | cons op ops ih =>
    obtain ⟨next, hstep, hnext⟩ := step_sorted h op
    obtain ⟨after, hrun, hafter⟩ := ih hnext
    refine ⟨after, ?_, hafter⟩
    rw [foldlM_cons, hstep]
    exact hrun

/-- In every run from the empty vector: a value is put at the same place with any hint as without one,
the keys stay in order, and a key that is there is not put in again. -/
theorem run_insertHint (cmp : Compare α) (ops : List (Op α)) :
    ∃ container, ops.foldlM (step cmp) [] = some container ∧ Sorted cmp container ∧
      ∀ (v : α) (ihint : Fin (container.length + 1)), ∃ (after : List α) (i : ℕ) (isNew : Bool),
        insert cmp container v = some (after, (i : ℤ), isNew) ∧
        insertHint cmp container v (ihint.val : ℕ) = some (after, (i : ℤ)) ∧
        Sorted cmp after ∧
        (isNew = false ↔ ∃ x ∈ container, Same cmp x v) ∧
        (isNew = false → after = container) ∧
        (isNew = true → after = container.take i ++ v :: container.drop i) := by
  obtain ⟨container, hrun, h⟩ := run_sorted ops (List.Pairwise.nil : Sorted cmp [])
  refine ⟨container, hrun, h, fun v ihint => ?_⟩
  refine ⟨put cmp container v, place cmp container v, !isThere cmp container v, insert_eq h v,
    insertHint_eq h v (Nat.le_of_lt_succ ihint.isLt), sorted_put h v, ?_, fun hold => ?_, fun hnew => ?_⟩
  · rw [← isThere_iff h, Bool.not_eq_false']
  · rw [Bool.not_eq_false'] at hold
    rw [put, if_pos hold]
  · rw [Bool.not_eq_true'] at hnew
    rw [put, hnew, if_neg Bool.false_ne_true, insertIdx_eq_append container v (place_le cmp container v)]

end Fon9.SortedVector
