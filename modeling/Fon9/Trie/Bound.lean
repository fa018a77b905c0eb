import Fon9.Trie.Map

/-! `lower_bound` and `upper_bound`. The descent along the key stops in a hole, before the first node
of a level or behind the last one, and there the neighbour is found; or at a leaf before the end of
the key, and there the leaf itself is taken, though its key comes before. -/

namespace Fon9.Trie

open Lib List

variable {m : ℕ} {V : Type*}

inductive SearchFn
  | lowerBound
  | upperBound
  deriving DecidableEq

/-- What is searched for. -/
def SearchFn.Bound {α : Type*} [LinearOrder α] : SearchFn → List α → List α → Prop
  | lowerBound, key, k => key ≤ k
  | upperBound, key, k => key < k

namespace Node

/-- The loop of `SearchBound`. -/
def searchBound (head : Node m V) (sfn : SearchFn) (cur : NodePtr m) : List (Fin (m + 1)) → Option (NodePtr m)
  | [] =>
    if (head.deref cur).value.isSome then
      if sfn = .upperBound then head.next cur else some cur
    else some ((head.deref cur).first cur)
  | idx :: key =>
    match head.deref cur with
    | level _ _ indexMin _ ary =>
      if (ary idx).isNull then
        if idx < indexMin then some ((ary indexMin).first (indexMin :: cur)) else head.ownerNext (idx :: cur)
      else head.searchBound sfn (idx :: cur) key
    | node => some (node.first cur)

variable {head : Node m V} {cur : NodePtr m} {sfn : SearchFn}

theorem bound_iff_lt {α : Type*} [LinearOrder α] {key k : List α} (h : key ≠ k) : sfn.Bound key k ↔ key < k := by
  cases sfn with
  | lowerBound => exact ⟨fun hle => lt_of_le_of_ne hle h, le_of_lt⟩
  | upperBound => exact Iff.rfl

theorem le_of_bound {α : Type*} [LinearOrder α] {key k : List α} (h : sfn.Bound key k) : key ≤ k := by
  cases sfn with
  | lowerBound => exact h
  | upperBound => exact le_of_lt h

/-- The key ends at a node. -/
theorem searchBound_nil (h : head.Shaped) (hcur : head.deref cur ≠ null) :
    IsFirst PtrLt (fun q => head.Stored q ∧ sfn.Bound cur.reverse q.reverse) (head.searchBound sfn cur []) := by
  have hnext := next_spec h hcur
  have hstored : head.Stored cur ↔ (head.deref cur).value.isSome := by
    rw [Stored, lookup, ← deref_eq_sub]
  rw [searchBound]
  by_cases hvalue : (head.deref cur).value.isSome
  · rw [if_pos hvalue]
    cases sfn with
    | upperBound => exact hnext
    | lowerBound =>
      refine ⟨⟨hstored.mpr hvalue, le_refl _⟩, fun q hq hne => ?_⟩
      exact lt_of_le_of_ne hq.2 (fun heq => hne (reverse_injective heq).symm)
  · rw [if_neg hvalue]
    have hshape := h.deref cur
    cases hderef : head.deref cur with
    | null => exact absurd hderef hcur
    | leaf value =>
      rw [hderef] at hvalue hshape
      exact absurd hshape hvalue
    | level value count indexMin indexMax ary =>
      rw [hderef] at hvalue
      have hnone : value = none := Option.not_isSome_iff_eq_none.mp hvalue
      subst hnone
      rw [next, hderef] at hnext
      refine hnext.congr fun q => and_congr_right fun hq => ?_
      refine (bound_iff_lt fun heq => ?_).symm
      rw [← reverse_injective heq, hstored, hderef] at hq
      cases hq

section Holes

variable {value : Option V} {count : ℕ} {indexMin indexMax idx : Fin (m + 1)} {ary : Fin (m + 1) → Node m V}

/-- What goes on from a node at a hole of its level is not stored. -/
theorem not_stored_hole (hderef : head.deref cur = level value count indexMin indexMax ary) (hnull : ary idx = null)
    {q : NodePtr m} (hq : head.Stored q) (k : List (Fin (m + 1))) : q.reverse ≠ cur.reverse ++ idx :: k := by
  intro hqk
  rw [Stored, hqk, stored_of_level hderef, hnull, lookup_null] at hq
  cases hq

/-- The descent stops before the first node of a level. -/
theorem first_of_hole (h : head.Shaped) (hderef : head.deref cur = level value count indexMin indexMax ary)
    (hnull : ary idx = null) (hlt : idx < indexMin) (key : List (Fin (m + 1))) :
    IsFirst PtrLt (fun q => head.Stored q ∧ sfn.Bound (cur.reverse ++ idx :: key) q.reverse)
      (some ((ary indexMin).first (indexMin :: cur))) := by
  have hne : head.deref cur ≠ null := by
    rw [hderef]
    exact nofun
  have hbound := (h.deref cur)
  rw [hderef] at hbound
  have hnext := next_spec h hne
  rw [next, hderef] at hnext
  refine hnext.congr fun q => and_congr_right fun hq => ?_
  rw [bound_iff_lt (not_stored_hole hderef hnull hq key).symm, PtrLt]
  constructor
  · intro hcur
    rw [lt_iff_extends_or_beyond] at hcur
    obtain ⟨j, k, hqj⟩ | hb := hcur
    · rw [Stored, hqj, stored_of_level hderef] at hq
      rw [hqj]
      exact append_cons_lt_append_cons _ (hlt.trans_le (hbound.1 j (ne_null_of_lookup hq)).1) _ _
    · exact hb.append_lt _
  · exact (lt_append_cons _ _ _).trans

/-- The descent stops in a hole of a level. -/
theorem ownerNext_of_hole (h : head.Shaped) (hderef : head.deref cur = level value count indexMin indexMax ary)
    (hnull : ary idx = null) (key : List (Fin (m + 1))) :
    IsFirst PtrLt (fun q => head.Stored q ∧ sfn.Bound (cur.reverse ++ idx :: key) q.reverse)
      (head.ownerNext (idx :: cur)) := by
  have hlink : head.Linked (idx :: cur) := by
    rw [Linked, hderef]
    trivial
  refine (ownerNext_spec h hlink).congr fun q => and_congr_right fun hq => ?_
  rw [bound_iff_lt (not_stored_hole hderef hnull hq key).symm, reverse_cons]
  have hassoc : cur.reverse ++ idx :: key = (cur.reverse ++ [idx]) ++ key := by
    rw [append_assoc, singleton_append]
  constructor
  · intro hb
    rw [hassoc]
    exact hb.append_lt key
  · intro hlt
    have hle : cur.reverse ++ [idx] ≤ (cur.reverse ++ [idx]) ++ key := by
      refine (append_nil (cur.reverse ++ [idx])).symm.trans_le ?_
      rw [append_le_append_iff]
      exact nil_le key
    rw [hassoc] at hlt
    have hbelow := hle.trans_lt hlt
    rw [lt_iff_extends_or_beyond] at hbelow
    obtain ⟨j, k, hqj⟩ | hb := hbelow
    · rw [append_assoc, singleton_append] at hqj
      exact absurd hqj (not_stored_hole hderef hnull hq _)
    · exact hb

end Holes

/-- The key goes on where a node without a next level ends the descent. -/
def LeafAbove : Node m V → List (Fin (m + 1)) → Prop
  | _, [] => False
  | null, _ :: _ => False
  | leaf _, _ :: _ => True
  | level _ _ _ _ ary, idx :: key => LeafAbove (ary idx) key

theorem not_leafAbove_nil (node : Node m V) : ¬ node.LeafAbove [] := by
  cases node with
  | null => exact id
  | leaf value => exact id
  | level value count indexMin indexMax ary => exact id

theorem searchBound_iff (h : head.Shaped) (hcur : head.deref cur ≠ null) (key : List (Fin (m + 1))) :
    IsFirst PtrLt (fun q => head.Stored q ∧ sfn.Bound (cur.reverse ++ key) q.reverse) (head.searchBound sfn cur key) ↔
      ¬ (head.deref cur).LeafAbove key := by
  induction key generalizing cur with
  | nil =>
    rw [append_nil]
    exact iff_of_true (searchBound_nil h hcur) (not_leafAbove_nil _)
  | cons idx key ih =>
    rw [searchBound]
    cases hderef : head.deref cur with
    | null => exact absurd hderef hcur
    | leaf value =>
      -- the leaf comes before the key
      refine iff_of_false (fun hfirst => ?_) (fun hnot => hnot trivial)
      exact absurd (le_of_bound hfirst.1.2) (not_le_of_gt (lt_append_cons _ _ _))
    | level value count indexMin indexMax ary =>
      by_cases hnull : ary idx = null
      · have hleaf : ¬ (level value count indexMin indexMax ary).LeafAbove (idx :: key) := by
          rw [LeafAbove, hnull]
          cases key with
          | nil => exact not_leafAbove_nil _
          | cons _ _ => exact id
        refine iff_of_true ?_ hleaf
        dsimp only
        rw [if_pos (isNull_iff.mpr hnull)]
        by_cases hlt : idx < indexMin
        · rw [if_pos hlt]
          exact first_of_hole h hderef hnull hlt key
        · rw [if_neg hlt]
          exact ownerNext_of_hole h hderef hnull key
      · have hchild : head.deref (idx :: cur) = ary idx := by
          rw [deref, hderef]
          rfl
        have hrest := @ih (idx :: cur) (by rw [hchild]; exact hnull)
        rw [reverse_cons, append_assoc, singleton_append, hchild] at hrest
        dsimp only
        rw [if_neg (fun h => hnull (isNull_iff.mp h))]
        exact hrest

/-- A key goes on above a leaf when one of its heads is stored that no other key goes on from. -/
theorem leafAbove_iff {node : Node m V} (h : node.Shaped) (key : List (Fin (m + 1))) :
    node.LeafAbove key ↔ ∃ p s, key = p ++ s ∧ s ≠ [] ∧ (node.lookup p).isSome ∧ ∀ e, e ≠ [] → node.lookup (p ++ e) = none := by
  induction key generalizing node with
  | nil =>
    refine iff_of_false (not_leafAbove_nil node) ?_
    · rintro ⟨p, s, hkey, hs, -⟩
      exact hs (append_eq_nil_iff.mp hkey.symm).2
  | cons idx key ih =>
    cases node with
    | null =>
      refine iff_of_false id ?_
      rintro ⟨p, s, -, -, hp, -⟩
      rw [lookup_null] at hp
      cases hp
    | leaf value =>
      refine iff_of_true trivial ⟨[], idx :: key, rfl, cons_ne_nil _ _, h, fun e he => ?_⟩
      obtain ⟨j, e, rfl⟩ := exists_cons_of_ne_nil he
      exact lookup_null e
    | level value count indexMin indexMax ary =>
      obtain ⟨hbound, hmin, -, hary⟩ := h
      rw [LeafAbove, ih (hary idx)]
      constructor
      · rintro ⟨p, s, rfl, hs, hp, hnone⟩
        exact ⟨idx :: p, s, rfl, hs, hp, hnone⟩
      · rintro ⟨p, s, hkey, hs, hp, hnone⟩
        cases p with
        | nil =>
          obtain ⟨k, hk⟩ := (hary indexMin).exists_key hmin
          have hk' := hnone (indexMin :: k) (cons_ne_nil _ _)
          rw [nil_append, lookup_cons] at hk'
          rw [child] at hk'
          rw [hk'] at hk
          cases hk
        | cons j p =>
          rw [cons_append, cons_eq_cons] at hkey
          obtain ⟨rfl, rfl⟩ := hkey
          exact ⟨p, s, rfl, hs, hp, hnone⟩

end Node

/-! ### The bounds of a trie -/

open Node

variable {κ : Type*} [LinearOrder κ] {T : KeyTrans κ} {V : Type*}

/-- `SearchBound`. -/
def searchBound (t : Trie T V) (sfn : SearchFn) (key : List κ) : Iterator T :=
  if t.head.isNull then none else t.head.searchBound sfn [] (key.map T.toIndex)

def lowerBound (t : Trie T V) (key : List κ) : Iterator T := t.searchBound .lowerBound key

def upperBound (t : Trie T V) (key : List κ) : Iterator T := t.searchBound .upperBound key

/-- One of the heads of a key is stored, and no key that goes on from it. -/
def PassesEnd (map : List κ → Option V) (key : List κ) : Prop :=
  ∃ p s, key = p ++ s ∧ s ≠ [] ∧ (map p).isSome ∧ ∀ e, e ≠ [] → map (p ++ e) = none

theorem bound_map (T : KeyTrans κ) (sfn : SearchFn) (key k : List κ) :
    sfn.Bound (key.map T.toIndex) (k.map T.toIndex) ↔ sfn.Bound key k := by
  have hlt : ∀ a b : List κ, a.map T.toIndex < b.map T.toIndex ↔ a < b := by
    intro a b
    have h := @keyOf_lt_keyOf _ _ T (ptrOf T a) (ptrOf T b)
    rw [keyOf_ptrOf, keyOf_ptrOf, PtrLt, ptrOf, ptrOf, reverse_reverse, reverse_reverse] at h
    exact h.symm
  cases sfn with
  | lowerBound => exact not_lt.symm.trans ((not_congr (hlt k key)).trans not_lt)
  | upperBound => exact hlt key k

theorem isFirst_map_keyOf {P : List κ → Prop} {o : Iterator T} :
    IsFirst (· < ·) P (o.map keyOf) ↔ IsFirst PtrLt (fun q => P (keyOf q)) o := by
  cases o with
  | none =>
    constructor
    · exact fun h q => h (keyOf q)
    · intro h key
      rw [← keyOf_ptrOf (T := T) key]
      exact h (ptrOf T key)
  | some cur =>
    constructor
    · exact fun h => ⟨h.1, fun q hq hne => keyOf_lt_keyOf.mp (h.2 (keyOf q) hq (keyOf_injective.ne hne))⟩
    · refine fun h => ⟨h.1, fun key hkey hne => ?_⟩
      rw [← keyOf_ptrOf (T := T) key] at hkey hne ⊢
      exact keyOf_lt_keyOf.mpr (h.2 (ptrOf T key) hkey fun heq => hne (congrArg keyOf heq))

/-- The bounds of a key are found unless the key goes on from a stored key that no other one does. -/
theorem searchBound_iff {t : Trie T V} (h : t.head.Shaped) (sfn : SearchFn) (key : List κ) :
    IsFirst (· < ·) (fun k => (t.contents k).isSome ∧ sfn.Bound key k) ((t.searchBound sfn key).map keyOf) ↔
      ¬ PassesEnd t.contents key := by
  have hpasses : PassesEnd t.contents key ↔ t.head.LeafAbove (key.map T.toIndex) := by
    rw [leafAbove_iff h]
    constructor
    · rintro ⟨p, s, rfl, hs, hp, hnone⟩
      refine ⟨p.map T.toIndex, s.map T.toIndex, map_append, fun h => hs (map_eq_nil_iff.mp h), hp, fun e he => ?_⟩
      have hmap : (e.map T.toIndex.symm).map T.toIndex = e := by
        rw [map_map]
        exact (map_congr_left fun i _ => T.toIndex.apply_symm_apply i).trans (map_id e)
      have hext := hnone (e.map T.toIndex.symm) (fun h => he (map_eq_nil_iff.mp h))
      rw [contents, map_append, hmap] at hext
      exact hext
    · rintro ⟨p, s, hkey, hs, hp, hnone⟩
      obtain ⟨p, s, rfl, rfl, rfl⟩ := map_eq_append_iff.mp hkey
      refine ⟨p, s, rfl, fun h => hs (by rw [h, map_nil]), hp, fun e he => ?_⟩
      rw [contents, map_append]
      exact hnone _ (fun h => he (map_eq_nil_iff.mp h))
  rw [isFirst_map_keyOf, hpasses]
  have hcond : ∀ q, (t.contents (keyOf q)).isSome ∧ sfn.Bound key (keyOf q) ↔
      t.head.Stored q ∧ sfn.Bound (([] : NodePtr T.maxIndex).reverse ++ key.map T.toIndex) q.reverse := by
    intro q
    rw [← stored_iff, ← bound_map T, map_keyOf]
    rfl
  rw [searchBound]
  by_cases hnull : t.head.isNull
  · have hhead := isNull_iff.mp hnull
    rw [if_pos hnull]
    refine iff_of_true (fun q hq => ?_) ?_
    · have hq' := ((hcond q).mp hq).1
      rw [Stored, hhead, lookup_null] at hq'
      cases hq'
    · rw [hhead]
      cases key with
      | nil => exact not_leafAbove_nil _
      | cons _ _ => exact id
  · have hnode := @Node.searchBound_iff _ _ t.head [] sfn h (fun h => hnull (isNull_iff.mpr h)) (key.map T.toIndex)
    rw [if_neg hnull]
    refine Iff.trans ⟨?_, ?_⟩ hnode
    · exact fun hfirst => hfirst.congr hcond
    · exact fun hfirst => hfirst.congr fun q => (hcond q).symm

/-- After any operations both bounds of a key are found, unless the key goes on from a stored key
that no other one does. -/
theorem run_bounds_iff (ops : List (Op T V)) (key : List κ) :
    (IsFirst (· < ·) (fun k => ((ops.foldl mapStep fun _ => none) k).isSome ∧ key ≤ k)
        (((ops.foldl step {}).lowerBound key).map keyOf) ∧
      IsFirst (· < ·) (fun k => ((ops.foldl mapStep fun _ => none) k).isSome ∧ key < k)
        (((ops.foldl step {}).upperBound key).map keyOf)) ↔
      ¬ PassesEnd (ops.foldl (mapStep (T := T)) fun _ => none) key := by
  obtain ⟨hwf, hcontents⟩ := contents_run_empty ops
  have hlower := searchBound_iff hwf.shaped .lowerBound key
  have hupper := searchBound_iff hwf.shaped .upperBound key
  rw [hcontents] at hlower hupper
  constructor
  · exact fun h => hlower.mp h.1
  · exact fun h => ⟨hlower.mpr h, hupper.mpr h⟩

/-- The keys of a level are two. -/
def twoKeys : KeyTrans (Fin 2) where
  maxIndex := 1
  toIndex := OrderIso.refl _

/-- The lower bound of a key that goes on from the only stored one. -/
theorem not_run_bounds :
    ¬ ∀ (ops : List (Op twoKeys Unit)) (key : List (Fin 2)),
      IsFirst (· < ·) (fun k => ((ops.foldl mapStep fun _ => none) k).isSome ∧ key ≤ k)
          (((ops.foldl step {}).lowerBound key).map keyOf) ∧
        IsFirst (· < ·) (fun k => ((ops.foldl mapStep fun _ => none) k).isSome ∧ key < k)
          (((ops.foldl step {}).upperBound key).map keyOf) := by
  intro h
  have hlower := (h [.emplace [0] ()] [0, 1]).1
  exact absurd hlower.1.2 (by decide)

end Fon9.Trie
