import Fon9.Trie.Emplace

/-! `erase`. The loop that gives up the nodes no longer needed, with the counting behind
it, is a removal by recursion along the key, which keeps the tree in order and takes
the key out. The iterator returned is found in the tree that is left. -/

namespace Fon9.Trie.Node

open Lib Fin Function

variable {m : ℕ} {V : Type*} {node head : Node m V} {ary : Fin (m + 1) → Node m V}
  {key : List (Fin (m + 1))} {cur : NodePtr m}

/-! ### Removal along the key -/

/-- The node without its child at `idx`. -/
def dropChild (node : Node m V) (idx : Fin (m + 1)) : Node m V :=
  match node with
  | level value _ indexMin indexMax _ =>
    if indexMin ≠ indexMax then
      (if idx = indexMin then (node.setChild idx null).raiseIndexMin
        else if idx = indexMax then (node.setChild idx null).lowerIndexMax
        else node.setChild idx null).mapCount (· - 1)
    else if value.isSome then leaf value else null
  | node => node

/-- The node with a child from which a key has been removed. -/
def replaceChild (node : Node m V) (idx : Fin (m + 1)) (obj : Node m V) : Node m V :=
  if obj.isNull then node.dropChild idx else putCount (· - 1) node idx obj

def clearValue : Node m V → Node m V
  | level _ count indexMin indexMax ary => level none count indexMin indexMax ary
  | _ => null

/-- The tree without the key, by recursion along it. -/
def erased (key : List (Fin (m + 1))) (node : Node m V) : Node m V := descend replaceChild clearValue key node

theorem raiseMin_spec {last : Fin (m + 1)} (turns : ℕ) (idx : Fin (m + 1)) (hturns : idx.val + turns = last.val)
    (hlt : idx < last) (hlast : ary last ≠ null) :
    idx < raiseMin ary last turns idx ∧ raiseMin ary last turns idx ≤ last ∧
      ary (raiseMin ary last turns idx) ≠ null ∧
      ∀ j, idx < j → ary j ≠ null → raiseMin ary last turns idx ≤ j := by
  induction turns generalizing idx with
  | zero =>
    rw [lt_def] at hlt
    omega
  | succ turns ih =>
    have hsucc := val_succ hlt
    have hidx : idx < idx + 1 := lt_def.mpr (by omega)
    have hle : ∀ j, idx < j → idx + 1 ≤ j := by
      intro j hj
      rw [lt_def] at hj
      exact le_def.mpr (by omega)
    rw [raiseMin]
    split
    · next hnull =>
      obtain ⟨h1, h2, h3, h4⟩ := ih (idx + 1) (by omega) hnull.2
      refine ⟨hidx.trans h1, h2, h3, fun j hj hj' => ?_⟩
      obtain hlt | rfl := (hle j hj).lt_or_eq
      · exact h4 j hlt hj'
      · exact absurd (isNull_iff.mp hnull.1) hj'
    · next hnull =>
      have hne : ary (idx + 1) ≠ null := by
        intro h
        obtain hlt | heq := (hle last hlt).lt_or_eq
        · exact hnull ⟨isNull_iff.mpr h, hlt⟩
        · exact hlast (heq ▸ h)
      exact ⟨hidx, hle last hlt, hne, fun j hj _ => hle j hj⟩

theorem lowerMax_spec {first : Fin (m + 1)} (turns : ℕ) (idx : Fin (m + 1)) (hturns : first.val + turns = idx.val)
    (hlt : first < idx) (hfirst : ary first ≠ null) :
    lowerMax ary first turns idx < idx ∧ first ≤ lowerMax ary first turns idx ∧
      ary (lowerMax ary first turns idx) ≠ null ∧
      ∀ j, j < idx → ary j ≠ null → j ≤ lowerMax ary first turns idx := by
  induction turns generalizing idx with
  | zero =>
    rw [lt_def] at hlt
    omega
  | succ turns ih =>
    have hpred := val_pred hlt
    have hpos : 0 < idx.val := by
      rw [lt_def] at hlt
      omega
    have hidx : idx - 1 < idx := lt_def.mpr (by omega)
    have hle : ∀ j, j < idx → j ≤ idx - 1 := by
      intro j hj
      rw [lt_def] at hj
      exact le_def.mpr (by omega)
    rw [lowerMax]
    split
    · next hnull =>
      obtain ⟨h1, h2, h3, h4⟩ := ih (idx - 1) (by omega) hnull.2
      refine ⟨h1.trans hidx, h2, h3, fun j hj hj' => ?_⟩
      obtain hlt | rfl := (hle j hj).lt_or_eq
      · exact h4 j hlt hj'
      · exact absurd (isNull_iff.mp hnull.1) hj'
    · next hnull =>
      have hne : ary (idx - 1) ≠ null := by
        intro h
        obtain hlt | heq := (hle first hlt).lt_or_eq
        · exact hnull ⟨isNull_iff.mpr h, hlt⟩
        · exact hfirst (heq ▸ h)
      exact ⟨hidx, hle first hlt, hne, fun j hj _ => hle j hj⟩

variable {obj : Node m V} {count : ℕ}

theorem levelKeys_erase {idx : Fin (m + 1)} {k : List (Fin (m + 1))}
    (hobj : ∀ k', (obj.lookup k').isSome ↔ k' ≠ k ∧ ((ary idx).lookup k').isSome) :
    levelKeys (update ary idx obj) = (levelKeys ary).erase (idx :: k) := by
  ext key
  rw [Finset.mem_erase]
  cases key with
  | nil => simp [nil_not_mem_levelKeys]
  | cons i k' =>
    rw [cons_mem_levelKeys, cons_mem_levelKeys]
    by_cases hi : i = idx
    · subst hi
      simp [hobj]
    · simp [hi]

/-- The level around a node from which a key has been removed, with new ends. -/
theorem level_erased (value : Option V) (lo hi lo' hi' idx : Fin (m + 1)) (hary : ∀ i, (ary i).Wf)
    (hcount : count = (levelKeys ary).card) (hbound : ∀ i, update ary idx obj i ≠ null → lo' ≤ i ∧ i ≤ hi')
    (hlo : update ary idx obj lo' ≠ null) (hhi : update ary idx obj hi' ≠ null) (hobj : obj.Wf)
    (hkey : ((ary idx).lookup key).isSome) (hlook : ∀ k, obj.lookup k = if k = key then none else (ary idx).lookup k)
    :
    (level value (count - 1) lo' hi' (update ary idx obj)).Wf ∧
      ∀ k, (level value (count - 1) lo' hi' (update ary idx obj)).lookup k =
        if k = idx :: key then none else (level value count lo hi ary).lookup k := by
  have hwf : ∀ i, (update ary idx obj i).Wf := by
    intro i
    by_cases hi : i = idx
    · subst hi
      simpa using hobj
    · simpa [hi] using hary i
  refine ⟨⟨⟨hbound, hlo, hhi, fun i => (hwf i).shaped⟩, ?_, fun i => (hwf i).counted⟩, ?_⟩
  · have hobj : ∀ k, (obj.lookup k).isSome ↔ k ≠ key ∧ ((ary idx).lookup k).isSome := by
      intro k
      rw [hlook]
      split
      · next heq => simp [heq]
      · next hne => simp [hne]
    rw [levelKeys_erase hobj, Finset.card_erase_of_mem (cons_mem_levelKeys.mpr hkey), hcount]
  · intro k
    cases k with
    | nil => simp [Node.value]
    | cons i k =>
      by_cases hi : i = idx
      · subst hi
        simp [child, hlook]
      · simp [child, hi]

theorem setChild_level {value : Option V} {lo hi idx : Fin (m + 1)} :
    (level value count lo hi ary).setChild idx obj = level value count lo hi (update ary idx obj) := rfl

/-- A level without one of its nodes. -/
theorem dropChild_spec {value : Option V} {lo hi idx : Fin (m + 1)} (h : (level value count lo hi ary).Wf)
    (hkey : ((ary idx).lookup key).isSome) (hlast : ∀ k, ((ary idx).lookup k).isSome → k = key) :
    ((level value count lo hi ary).dropChild idx).Wf ∧
      ∀ k, ((level value count lo hi ary).dropChild idx).lookup k =
        if k = idx :: key then none else (level value count lo hi ary).lookup k := by
  obtain ⟨⟨hbound, hmin, hmax, hary⟩, hcount, hcounted⟩ := h
  have hchild : ary idx ≠ null := ne_null_of_lookup hkey
  have hle := (hbound hi hmax).1
  have hlook : ∀ k, (null : Node m V).lookup k = if k = key then none else (ary idx).lookup k := by
    intro k
    rw [lookup_null]
    split
    · rfl
    · next hne =>
      symm
      rw [← Option.not_isSome_iff_eq_none]
      exact fun hk => hne (hlast k hk)
  have hup : ∀ i, update ary idx null i ≠ null ↔ i ≠ idx ∧ ary i ≠ null := by
    intro i
    by_cases hi : i = idx
    · subst hi
      simp
    · simp [hi]
  have hnull : (null : Node m V).Wf := ⟨trivial, trivial⟩
  have hlevel := fun lo' hi' hb hl hh => level_erased value lo hi lo' hi' idx (fun i => ⟨hary i, hcounted i⟩) hcount
    hb hl hh hnull hkey hlook
  unfold dropChild
  simp only [setChild_level]
  by_cases hends : lo = hi
  · subst hends
    rw [if_neg (fun h => h rfl)]
    have honly : ∀ i, i ≠ idx → ary i = null := by
      intro i hi
      by_contra hne
      have h1 := hbound i hne
      have h2 := hbound idx hchild
      exact hi (le_antisymm (h1.2.trans h2.1) (h2.2.trans h1.1))
    have hrest : ∀ i k, (null : Node m V).lookup k =
        if i :: k = idx :: key then none else (ary i).lookup k := by
      intro i k
      by_cases hi : i = idx
      · subst hi
        simpa using hlook k
      · rw [honly i hi, lookup_null, ite_self]
    cases value with
    | none =>
      refine ⟨⟨trivial, trivial⟩, fun k => ?_⟩
      cases k with
      | nil => rfl
      | cons i k => exact hrest i k
    | some v =>
      refine ⟨⟨rfl, trivial⟩, fun k => ?_⟩
      cases k with
      | nil => rfl
      | cons i k => exact hrest i k
  · have hlt : lo < hi := lt_of_le_of_ne hle hends
    rw [if_pos hends]
    have hlt' : lo.val < hi.val := lt_def.mp hlt
    split
    · next heq =>
      subst heq
      have hup' : ary hi ≠ null ∧ hi ≠ idx := ⟨hmax, fun h => hends h.symm⟩
      obtain ⟨h1, h2, h3, h4⟩ := raiseMin_spec (hi - idx : ℕ) idx (by omega) hlt ((hup hi).mpr ⟨hup'.2, hmax⟩)
      refine hlevel _ _ (fun i hi' => ?_) h3 ((hup hi).mpr ⟨hup'.2, hmax⟩)
      have hi'' := (hup i).mp hi'
      have hb := hbound i hi''.2
      exact ⟨h4 i (lt_of_le_of_ne hb.1 fun h => hi''.1 h.symm) hi', hb.2⟩
    · next hne =>
      split
      · next heq =>
        subst heq
        obtain ⟨h1, h2, h3, h4⟩ := lowerMax_spec (idx - lo : ℕ) idx (by omega) hlt ((hup lo).mpr ⟨fun h => hne h.symm, hmin⟩)
        refine hlevel _ _ (fun i hi' => ?_) ((hup lo).mpr ⟨fun h => hne h.symm, hmin⟩) h3
        have hi'' := (hup i).mp hi'
        have hb := hbound i hi''.2
        exact ⟨hb.1, h4 i (lt_of_le_of_ne hb.2 hi''.1) hi'⟩
      · next hne' =>
        refine hlevel lo hi (fun i hi' => hbound i ((hup i).mp hi').2) ((hup lo).mpr ⟨fun h => hne h.symm, hmin⟩)
          ((hup hi).mpr ⟨fun h => hne' h.symm, hmax⟩)

/-- The removal keeps the tree in order and takes out the key only. -/
theorem erased_spec (h : node.Wf) (hkey : (node.lookup key).isSome) :
    (erased key node).Wf ∧ ∀ k, (erased key node).lookup k = if k = key then none else node.lookup k := by
  induction key generalizing node with
  | nil =>
    cases node with
    | null => cases hkey
    | leaf value =>
      refine ⟨⟨trivial, trivial⟩, fun k => ?_⟩
      show (null : Node m V).lookup k = _
      rw [lookup_null]
      cases k with
      | nil => rfl
      | cons i k => exact (lookup_null k).symm
    | level value count indexMin indexMax ary =>
      refine ⟨⟨h.shaped, h.counted⟩, fun k => ?_⟩
      cases k with
      | nil => rfl
      | cons i k => rfl
  | cons idx key ih =>
    cases node with
    | null => cases ((lookup_null (m := m) (V := V) (idx :: key)) ▸ hkey : (none : Option V).isSome)
    | leaf value => cases ((lookup_null (m := m) (V := V) key) ▸ hkey : (none : Option V).isSome)
    | level value count indexMin indexMax ary =>
      have hchild : (ary idx).Wf := ⟨h.shaped.2.2.2 idx, h.counted.2 idx⟩
      have hkey' : ((ary idx).lookup key).isSome := hkey
      obtain ⟨hwf, hlook⟩ := ih hchild hkey'
      show (replaceChild _ idx (erased key (ary idx))).Wf ∧
        ∀ k, (replaceChild _ idx (erased key (ary idx))).lookup k = _
      by_cases hnull : erased key (ary idx) = null
      · have hdrop := dropChild_spec h hkey' (by
          intro k hk
          by_contra hne
          have hk' := hlook k
          rw [hnull, lookup_null, if_neg hne] at hk'
          rw [← hk'] at hk
          cases hk)
        rw [hnull]
        exact hdrop
      · have hnot : ¬ (erased key (ary idx)).isNull = true := fun h => hnull (isNull_iff.mp h)
        rw [replaceChild, if_neg hnot]
        obtain ⟨hbound, hmin, hmax, hary⟩ := h.shaped
        have hup : ∀ i, ary i ≠ null → update ary idx (erased key (ary idx)) i ≠ null := by
          intro i hi
          by_cases hidx : i = idx
          · subst hidx
            simpa using hnull
          · simpa [hidx] using hi
        refine level_erased value indexMin indexMax indexMin indexMax idx (fun i => ⟨hary i, h.counted.2 i⟩) h.counted.1 (fun i hi => ?_) (hup _ hmin) (hup _ hmax)
          hwf hkey' hlook
        by_cases hidx : i = idx
        · subst hidx
          exact hbound i (ne_null_of_lookup hkey')
        · rw [update_of_ne hidx] at hi
          exact hbound i hi

end Fon9.Trie.Node
