import Fon9.Trie.Order

/-! `emplace`. The counts of the levels are the numbers of the keys below them. The loop
of `emplace` with the counting behind it is an insertion by recursion along the key,
which keeps the tree in order and adds the key. -/

namespace Fon9.Trie.Node

open Lib Finset Function

variable {m : ℕ} {V : Type*}

/-- The keys below a level and below a node. -/
def keys : Node m V → Finset (List (Fin (m + 1)))
  | null => ∅
  | leaf value => if value.isSome then {[]} else ∅
  | level value _ _ _ ary =>
    (if value.isSome then {[]} else ∅) ∪ Finset.univ.biUnion fun i => (ary i).keys.image (i :: ·)

def levelKeys (ary : Fin (m + 1) → Node m V) : Finset (List (Fin (m + 1))) :=
  Finset.univ.biUnion fun i => (ary i).keys.image (i :: ·)

/-- The count of each level is the number of its keys. -/
def Counted : Node m V → Prop
  | level _ count _ _ ary => count = (levelKeys ary).card ∧ ∀ i, (ary i).Counted
  | _ => True

/-- A tree in order. -/
structure Wf (node : Node m V) : Prop where
  shaped : node.Shaped
  counted : node.Counted

variable {node : Node m V} {ary : Fin (m + 1) → Node m V} {key : List (Fin (m + 1))}

theorem mem_levelKeys : key ∈ levelKeys ary ↔ ∃ i k, key = i :: k ∧ k ∈ (ary i).keys := by
  simp only [levelKeys, mem_biUnion, mem_univ, true_and, mem_image]
  constructor
  · rintro ⟨i, k, hk, rfl⟩
    exact ⟨i, k, rfl, hk⟩
  · rintro ⟨i, k, rfl, hk⟩
    exact ⟨i, k, hk, rfl⟩

theorem mem_keys : key ∈ node.keys ↔ (node.lookup key).isSome := by
  induction node generalizing key with
  | null => simp [keys, lookup_null]
  | leaf value =>
    cases key with
    | nil => cases value <;> simp [keys, Node.value]
    | cons i k =>
      have hnone : (leaf value : Node m V).lookup (i :: k) = none := lookup_null k
      rw [hnone]
      cases value <;> simp [keys]
  | level value count indexMin indexMax ary ih =>
    have hown : key ∈ (if value.isSome then {[]} else ∅ : Finset (List (Fin (m + 1)))) ↔
        key = [] ∧ value.isSome := by
      cases value <;> simp
    show key ∈ _ ∪ levelKeys ary ↔ _
    rw [mem_union, hown, mem_levelKeys]
    cases key with
    | nil => simp [Node.value]
    | cons i k =>
      constructor
      · rintro (⟨hk, -⟩ | ⟨j, k', hk, hmem⟩)
        · cases hk
        · cases hk
          exact (ih i).mp hmem
      · intro hk
        exact .inr ⟨i, k, rfl, (ih i).mpr hk⟩

theorem cons_mem_levelKeys {i : Fin (m + 1)} {k : List (Fin (m + 1))} :
    i :: k ∈ levelKeys ary ↔ ((ary i).lookup k).isSome := by
  rw [mem_levelKeys, ← mem_keys]
  constructor
  · rintro ⟨j, k', heq, hk⟩
    cases heq
    exact hk
  · intro hk
    exact ⟨i, k, rfl, hk⟩

theorem nil_not_mem_levelKeys : [] ∉ levelKeys ary := by
  rw [mem_levelKeys]
  rintro ⟨i, k, heq, -⟩
  cases heq

/-- The number of the keys of a node. -/
theorem card_keys (node : Node m V) :
    node.Counted → node.keys.card = (match node with
      | null => 0
      | leaf value => if value.isSome then 1 else 0
      | level value count _ _ _ => count + if value.isSome then 1 else 0) := by
  intro h
  cases node with
  | null => rfl
  | leaf value => cases value <;> rfl
  | level value count indexMin indexMax ary =>
    obtain ⟨hcount, -⟩ := h
    show (_ ∪ levelKeys ary).card = _
    cases value with
    | none =>
      show (∅ ∪ levelKeys ary).card = count + 0
      rw [empty_union, hcount]
      rfl
    | some v =>
      show ({[]} ∪ levelKeys ary).card = count + 1
      rw [card_union_of_disjoint, hcount, card_singleton, add_comm]
      rw [disjoint_singleton_left]
      exact nil_not_mem_levelKeys

/-! ### Insertion along the key -/

/-- A place with a node. -/
def touch : Node m V → Node m V
  | null => leaf none
  | node => node

/-- The tree with the value inserted, by recursion along the key. -/
def inserted (value : V) : List (Fin (m + 1)) → Node m V → Node m V
  | [], node => node.setValue (some value)
  | idx :: key, node =>
    ((node.enter idx).setChild idx (inserted value key ((node.enter idx).child idx))).mapCount (· + 1)

/-- What the loop of `emplace` makes of a node. -/
def prepared : List (Fin (m + 1)) → Node m V → Node m V
  | [], node => node
  | idx :: key, node => (node.enter idx).setChild idx (prepared key ((node.enter idx).child idx))

theorem emplaceLoop_eq (head : Node m V) (cur : NodePtr m) (key : List (Fin (m + 1))) :
    emplaceLoop head cur key = (head.modify (prepared key) cur, key.reverse ++ cur) := by
  induction key generalizing head cur with
  | nil =>
    show (head, cur) = (head.modify id cur, cur)
    rw [modify_id]
  | cons idx key ih =>
    rw [emplaceLoop, ih, List.reverse_cons, List.append_assoc, List.singleton_append]
    congr 1
    exact modify_modify (f := fun node => node.setChild idx (prepared key (node.child idx))) head cur

theorem isLevel_enter (hn : node ≠ null) (idx : Fin (m + 1)) : (node.enter idx).IsLevel := by
  cases node with
  | null => exact absurd rfl hn
  | leaf value => trivial
  | level value count indexMin indexMax ary => trivial

theorem child_setChild (h : node.IsLevel) (idx : Fin (m + 1)) (obj : Node m V) :
    (node.setChild idx obj).child idx = obj := by
  cases node with
  | null => exact absurd h id
  | leaf value => exact absurd h id
  | level value count indexMin indexMax ary => simp [setChild, child]

theorem child_enter (hn : node ≠ null) (idx : Fin (m + 1)) :
    (node.enter idx).child idx = (node.child idx).touch := by
  cases node with
  | null => exact absurd rfl hn
  | leaf value => simp [enter, child, touch]
  | level value count indexMin indexMax ary =>
    show (if (ary idx).isNull then update ary idx (leaf none) else ary) idx = (ary idx).touch
    cases hidx : ary idx with
    | null => simp [isNull, touch]
    | leaf value => simp [isNull, touch, hidx]
    | level value count indexMin indexMax ary' => simp [isNull, touch, hidx]

theorem touch_ne_null (node : Node m V) : node.touch ≠ null := by
  cases node <;> simp [touch]

theorem lookup_touch (node : Node m V) (key : List (Fin (m + 1))) : node.touch.lookup key = node.lookup key := by
  cases node with
  | null =>
    rw [lookup_null]
    cases key with
    | nil => rfl
    | cons i k => exact lookup_null k
  | leaf value => rfl
  | level value count indexMin indexMax ary => rfl

/-- The counting and the value behind the loop make the insertion. -/
theorem descend_prepared (hn : node ≠ null) (value : V) :
    descend (putCount (· + 1)) (setValue (some value)) key (prepared key node) = inserted value key node := by
  induction key generalizing node with
  | nil => rfl
  | cons idx key ih =>
    have hlevel := isLevel_enter hn idx
    rw [prepared, descend, child_setChild hlevel, ih (by rw [child_enter hn]; exact touch_ne_null _), inserted]
    cases hent : node.enter idx with
    | null =>
      rw [hent] at hlevel
      exact absurd hlevel id
    | leaf v =>
      rw [hent] at hlevel
      exact absurd hlevel id
    | level v count indexMin indexMax ary => simp [putCount, setChild, mapCount]

/-- The loop finds the value of the key. -/
theorem lookup_prepared (hn : node ≠ null) : (prepared key node).lookup key = node.lookup key := by
  induction key generalizing node with
  | nil => rfl
  | cons idx key ih =>
    rw [prepared, lookup_cons, child_setChild (isLevel_enter hn idx),
      ih (by rw [child_enter hn]; exact touch_ne_null _), child_enter hn, lookup_touch, lookup_cons]

/-- The loop changes nothing on the way to a value. -/
theorem prepared_of_stored (h : node.Shaped) (hkey : (node.lookup key).isSome) : prepared key node = node := by
  induction key generalizing node with
  | nil => rfl
  | cons idx key ih =>
    cases node with
    | null => cases ((lookup_null (m := m) (V := V) (idx :: key)) ▸ hkey : (none : Option V).isSome)
    | leaf value => cases ((lookup_null (m := m) (V := V) key) ▸ hkey : (none : Option V).isSome)
    | level value count indexMin indexMax ary =>
      have hchild : ary idx ≠ null := ne_null_of_lookup hkey
      obtain ⟨hmin, hmax⟩ := h.1 idx hchild
      have hnull : ¬ (ary idx).isNull = true := fun hnull => hchild (isNull_iff.mp hnull)
      have henter : (level value count indexMin indexMax ary).enter idx = level value count indexMin indexMax ary := by
        rw [enter, if_neg (not_lt.mpr hmin), if_neg (not_lt.mpr hmin), if_neg (not_lt.mpr hmax), if_neg hnull]
      rw [prepared, henter]
      show level value count indexMin indexMax (update ary idx (prepared key (ary idx))) = _
      rw [ih (h.2.2.2 idx) hkey, update_eq_self]

/-! ### What an insertion does -/

/-- A node in order, or one that has just been made. -/
def Ready (node : Node m V) : Prop := node = leaf none ∨ node.Wf ∧ node ≠ null

theorem Ready.ne_null (h : node.Ready) : node ≠ null := by
  obtain rfl | h := h
  · simp
  · exact h.2

theorem Ready.touch (h : node.Wf) : node.touch.Ready := by
  cases node with
  | null => exact .inl rfl
  | leaf value => exact .inr ⟨h, by simp [Node.touch]⟩
  | level value count indexMin indexMax ary => exact .inr ⟨h, by simp [Node.touch]⟩

theorem levelKeys_insert {idx : Fin (m + 1)} {obj : Node m V} {k : List (Fin (m + 1))}
    (hobj : ∀ k', (obj.lookup k').isSome ↔ k' = k ∨ ((ary idx).lookup k').isSome) :
    levelKeys (update ary idx obj) = insert (idx :: k) (levelKeys ary) := by
  ext key
  rw [mem_insert]
  cases key with
  | nil => simp [nil_not_mem_levelKeys]
  | cons i k' =>
    rw [cons_mem_levelKeys, cons_mem_levelKeys]
    by_cases hi : i = idx
    · subst hi
      simp [hobj]
    · simp [hi]

/-- A node of a level, widened for `idx`, in which a key is inserted. -/
theorem level_inserted (value : Option V) {count : ℕ} (lo hi lo' hi' idx : Fin (m + 1)) {obj : Node m V} {v : V}
    (hary : ∀ i, (ary i).Wf) (hcount : count = (levelKeys ary).card)
    (hbound : ∀ i, ary i ≠ null → lo' ≤ i ∧ i ≤ hi') (hidx : lo' ≤ idx ∧ idx ≤ hi')
    (hlo : lo' = idx ∨ lo' = lo ∧ ary lo ≠ null) (hhi : hi' = idx ∨ hi' = hi ∧ ary hi ≠ null)
    (hobj : obj.Wf) (hne : obj ≠ null) (hnew : (ary idx).lookup key = none)
    (hlook : ∀ k, obj.lookup k = if k = key then some v else (ary idx).lookup k) :
    (level value (count + 1) lo' hi' (update ary idx obj)).Wf ∧
      ∀ k, (level value (count + 1) lo' hi' (update ary idx obj)).lookup k =
        if k = idx :: key then some v else (level value count lo hi ary).lookup k := by
  have hup : ∀ i, update ary idx obj i ≠ null ↔ i = idx ∨ ary i ≠ null := by
    intro i
    by_cases hi : i = idx
    · subst hi
      simp [hne]
    · simp [hi]
  have hwf : ∀ i, (update ary idx obj i).Wf := by
    intro i
    by_cases hi : i = idx
    · subst hi
      simpa using hobj
    · simpa [hi] using hary i
  refine ⟨⟨⟨?_, ?_, ?_, fun i => (hwf i).shaped⟩, ?_, fun i => (hwf i).counted⟩, ?_⟩
  · intro i hi
    obtain rfl | hi := (hup i).mp hi
    · exact hidx
    · exact hbound i hi
  · rw [hup]
    obtain hlo | ⟨rfl, hne⟩ := hlo
    · exact .inl hlo
    · exact .inr hne
  · rw [hup]
    obtain hhi | ⟨rfl, hne⟩ := hhi
    · exact .inl hhi
    · exact .inr hne
  · have hobj : ∀ k, (obj.lookup k).isSome ↔ k = key ∨ ((ary idx).lookup k).isSome := by
      intro k
      rw [hlook]
      split
      · next heq => simp [heq]
      · next hne => simp [hne]
    rw [levelKeys_insert hobj, card_insert_of_notMem, hcount]
    rw [cons_mem_levelKeys, hnew]
    simp
  · intro k
    cases k with
    | nil => simp [Node.value]
    | cons i k =>
      by_cases hi : i = idx
      · subst hi
        simp [child, hlook]
      · simp [child, hi]

theorem inserted_spec (hready : node.Ready) (hnew : node.lookup key = none) (v : V) :
    (inserted v key node).Wf ∧ inserted v key node ≠ null ∧
      ∀ k, (inserted v key node).lookup k = if k = key then some v else node.lookup k := by
  induction key generalizing node with
  | nil =>
    cases node with
    | null => exact absurd rfl hready.ne_null
    | leaf value =>
      refine ⟨⟨rfl, trivial⟩, by simp [inserted, setValue], fun k => ?_⟩
      cases k with
      | nil => rfl
      | cons i k =>
        rw [if_neg (List.cons_ne_nil i k)]
        rfl
    | level value count indexMin indexMax ary =>
      obtain hleaf | ⟨hwf, -⟩ := hready
      · cases hleaf
      · refine ⟨⟨hwf.shaped, hwf.counted⟩, by simp [inserted, setValue], fun k => ?_⟩
        cases k with
        | nil => rfl
        | cons i k =>
          rw [if_neg (List.cons_ne_nil i k)]
          rfl
  | cons idx key ih =>
    cases node with
    | null => exact absurd rfl hready.ne_null
    | leaf value =>
      have hnone : ∀ k, (leaf none : Node m V).lookup k = none := by
        intro k
        cases k with
        | nil => rfl
        | cons i k => exact lookup_null k
      have hobj := ih (.inl rfl) (hnone key)
      have heq : inserted v (idx :: key) (leaf value) =
          level value (0 + 1) idx idx (update (fun _ => null) idx (inserted v key (leaf none))) := by
        simp [inserted, enter, setChild, child, mapCount]
      rw [heq]
      have hempty : 0 = (levelKeys fun _ => (null : Node m V)).card := by
        symm
        rw [card_eq_zero]
        refine eq_empty_of_forall_notMem fun k hk => ?_
        obtain ⟨i, k', -, hk'⟩ := mem_levelKeys.mp hk
        exact absurd hk' (notMem_empty k')
      have hary : ∀ i, ((fun _ => null : Fin (m + 1) → Node m V) i).Wf := fun _ => ⟨trivial, trivial⟩
      have hlevel := level_inserted value idx idx idx idx idx hary hempty
        (fun i hi => absurd rfl hi) ⟨le_rfl, le_rfl⟩ (.inl rfl) (.inl rfl) hobj.1 hobj.2.1 (lookup_null key)
        (fun k => by rw [hobj.2.2 k, lookup_null, hnone])
      refine ⟨hlevel.1, by simp, fun k => ?_⟩
      rw [hlevel.2 k]
      cases k <;> rfl
    | level value count indexMin indexMax ary =>
      obtain hleaf | ⟨⟨hshape, hcount⟩, -⟩ := hready
      · cases hleaf
      obtain ⟨hbound, hmin, hmax, hary⟩ := hshape
      have hnew' : (ary idx).touch.lookup key = none := by
        rw [lookup_touch]
        exact hnew
      have hobj := ih (Ready.touch ⟨hary idx, hcount.2 idx⟩) hnew'
      have heq : inserted v (idx :: key) (level value count indexMin indexMax ary) =
          level value (count + 1) (if idx < indexMin then idx else indexMin)
            (if idx < indexMin then indexMax else if indexMax < idx then idx else indexMax)
            (update ary idx (inserted v key (ary idx).touch)) := by
        rw [inserted, child_enter (by simp)]
        have hary : update (if (ary idx).isNull then update ary idx (leaf none) else ary) idx
            (inserted v key (ary idx).touch) = update ary idx (inserted v key (ary idx).touch) := by
          split
          · rw [update_idem]
          · rfl
        rw [← hary]
        rfl
      have hle : indexMin ≤ indexMax := (hbound indexMax hmax).1
      rw [heq]
      have hlevel := level_inserted value indexMin indexMax (if idx < indexMin then idx else indexMin)
        (if idx < indexMin then indexMax else if indexMax < idx then idx else indexMax) idx (fun i => ⟨hary i, hcount.2 i⟩) hcount.1 ?_ ?_ ?_ ?_ hobj.1 hobj.2.1 hnew (fun k => by
          rw [hobj.2.2 k, lookup_touch])
      · exact ⟨hlevel.1, by simp, hlevel.2⟩
      · intro i hi
        obtain ⟨h1, h2⟩ := hbound i hi
        split_ifs with h3 h4
        · exact ⟨h3.le.trans h1, h2⟩
        · exact ⟨h1, h2.trans h4.le⟩
        · exact ⟨h1, h2⟩
      · split_ifs with h3 h4
        · exact ⟨le_rfl, h3.le.trans hle⟩
        · exact ⟨not_lt.mp h3, le_rfl⟩
        · exact ⟨not_lt.mp h3, not_lt.mp h4⟩
      · split_ifs with h3
        · exact .inl rfl
        · exact .inr ⟨rfl, hmin⟩
      · split_ifs with h3 h4
        · exact .inr ⟨rfl, hmax⟩
        · exact .inl rfl
        · exact .inr ⟨rfl, hmax⟩

end Fon9.Trie.Node
