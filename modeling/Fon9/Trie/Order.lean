import Fon9.Lib.Lex
import Fon9.Lib.Loop
import Fon9.Trie.Path

/-! Steps through the tree in the order of the keys. `IndexMin_` and `IndexMax_` bound
the nodes of a level, and no node is without a value below it; so the first and the
last key of a node are found by following them, and the neighbours of a key by the
search of the levels above it. -/

namespace Fon9.Trie

open Lib List

variable {m : ℕ} {V : Type*}

/-- The order of pointers, by their keys. -/
def PtrLt (p q : NodePtr m) : Prop := p.reverse < q.reverse

namespace Node

/-- `IndexMin_` and `IndexMax_` are the ends of each level, and each node holds a value. -/
def Shaped : Node m V → Prop
  | null => True
  | leaf value => value.isSome
  | level _ _ indexMin indexMax ary =>
    (∀ i, ary i ≠ null → indexMin ≤ i ∧ i ≤ indexMax) ∧ ary indexMin ≠ null ∧ ary indexMax ≠ null ∧
      ∀ i, (ary i).Shaped

def IsLevel : Node m V → Prop
  | level _ _ _ _ _ => True
  | _ => False

/-- The pointer has an owner, or is that of the head. -/
def Linked (head : Node m V) : NodePtr m → Prop
  | [] => True
  | _ :: cur => (head.deref cur).IsLevel

/-- There is a value at the pointer. -/
def Stored (head : Node m V) (cur : NodePtr m) : Prop := (head.lookup cur.reverse).isSome

variable {head node : Node m V} {cur : NodePtr m}

theorem Shaped.child (h : node.Shaped) (idx : Fin (m + 1)) : (node.child idx).Shaped := by
  cases node with
  | null => trivial
  | leaf value => trivial
  | level value count indexMin indexMax ary => exact h.2.2.2 idx

theorem Shaped.sub (h : node.Shaped) (key : List (Fin (m + 1))) : (node.sub key).Shaped := by
  induction key generalizing node with
  | nil => exact h
  | cons idx key ih => exact ih (h.child idx)

theorem Shaped.deref (h : head.Shaped) (cur : NodePtr m) : (head.deref cur).Shaped := by
  rw [deref_eq_sub]
  exact h.sub _

theorem isLevel_of_child {idx : Fin (m + 1)} (h : node.child idx ≠ null) : node.IsLevel := by
  cases node with
  | null => exact absurd rfl h
  | leaf value => exact absurd rfl h
  | level value count indexMin indexMax ary => trivial

theorem IsLevel.eq_level (h : node.IsLevel) :
    ∃ value count indexMin indexMax ary, node = level value count indexMin indexMax ary := by
  cases node with
  | null => exact absurd h id
  | leaf value => exact absurd h id
  | level value count indexMin indexMax ary => exact ⟨value, count, indexMin, indexMax, ary, rfl⟩

theorem IsLevel.ne_null (h : node.IsLevel) : node ≠ null := by
  rintro rfl
  exact h

theorem linked_of_ne_null (h : head.deref cur ≠ null) : head.Linked cur := by
  cases cur with
  | nil => trivial
  | cons idx cur => exact isLevel_of_child h

theorem Linked.owner {idx : Fin (m + 1)} (h : head.Linked (idx :: cur)) : head.Linked cur :=
  linked_of_ne_null h.ne_null

/-! ### The ends of a node -/

theorem first_spec (h : node.Shaped) (hn : node ≠ null) (cur : NodePtr m) :
    ∃ key, node.first cur = key.reverse ++ cur ∧ (node.lookup key).isSome ∧
      ∀ k, (node.lookup k).isSome → key ≤ k := by
  induction node generalizing cur with
  | null => exact absurd rfl hn
  | leaf value => exact ⟨[], rfl, h, fun k _ => nil_le _⟩
  | level value count indexMin indexMax ary ih =>
    obtain ⟨hbound, hmin, -, hary⟩ := h
    cases value with
    | some v => exact ⟨[], rfl, rfl, fun k _ => nil_le _⟩
    | none =>
      obtain ⟨key, hfirst, hkey, hleast⟩ := ih indexMin (hary indexMin) hmin (indexMin :: cur)
      refine ⟨indexMin :: key, ?_, hkey, ?_⟩
      · rw [first, hfirst, reverse_cons, append_assoc, singleton_append]
      · intro k hk
        cases k with
        | nil => cases hk
        | cons j k =>
          have hj := (hbound j (ne_null_of_lookup hk)).1
          obtain hlt | rfl := hj.lt_or_eq
          · exact (cons_lt_cons_iff.mpr (.inl hlt)).le
          · exact cons_le_cons indexMin (hleast k hk)

/-- The first key below a node. -/
theorem lvFirst_spec {value : Option V} {count : ℕ} {indexMin indexMax : Fin (m + 1)}
    {ary : Fin (m + 1) → Node m V} (h : (level value count indexMin indexMax ary).Shaped) (cur : NodePtr m) :
    ∃ i key, (ary indexMin).first (indexMin :: cur) = (i :: key).reverse ++ cur ∧ ((ary i).lookup key).isSome ∧
      ∀ j k, ((ary j).lookup k).isSome → i :: key ≤ j :: k := by
  obtain ⟨hbound, hmin, -, hary⟩ := h
  obtain ⟨key, hfirst, hkey, hleast⟩ := first_spec (hary indexMin) hmin (indexMin :: cur)
  refine ⟨indexMin, key, ?_, hkey, ?_⟩
  · rw [hfirst, reverse_cons, append_assoc, singleton_append]
  · intro j k hk
    have hj := (hbound j (ne_null_of_lookup hk)).1
    obtain hlt | rfl := hj.lt_or_eq
    · exact (cons_lt_cons_iff.mpr (.inl hlt)).le
    · exact cons_le_cons indexMin (hleast k hk)

theorem last_spec (h : node.Shaped) (hn : node ≠ null) (cur : NodePtr m) :
    ∃ key, node.last cur = key.reverse ++ cur ∧ (node.lookup key).isSome ∧
      ∀ k, (node.lookup k).isSome → k ≤ key := by
  induction node generalizing cur with
  | null => exact absurd rfl hn
  | leaf value =>
    refine ⟨[], rfl, h, fun k hk => ?_⟩
    cases k with
    | nil => exact le_rfl
    | cons j k =>
      have hk : ((null : Node m V).lookup k).isSome := hk
      rw [lookup_null] at hk
      cases hk
  | level value count indexMin indexMax ary ih =>
    obtain ⟨hbound, -, hmax, hary⟩ := h
    obtain ⟨key, hlast, hkey, hgreatest⟩ := ih indexMax (hary indexMax) hmax (indexMax :: cur)
    refine ⟨indexMax :: key, ?_, hkey, ?_⟩
    · rw [last, hlast, reverse_cons, append_assoc, singleton_append]
    · intro k hk
      cases k with
      | nil => exact nil_le _
      | cons j k =>
        have hj := (hbound j (ne_null_of_lookup hk)).2
        obtain hlt | rfl := hj.lt_or_eq
        · exact (cons_lt_cons_iff.mpr (.inl hlt)).le
        · exact cons_le_cons j (hgreatest k hk)

/-- Every node holds a value. -/
theorem Shaped.exists_key (h : node.Shaped) (hn : node ≠ null) : ∃ key, (node.lookup key).isSome := by
  obtain ⟨key, -, hkey, -⟩ := first_spec h hn []
  exact ⟨key, hkey⟩

end Node

/-! ### The search of a level -/

variable {ary : Fin (m + 1) → Node m V}

theorem val_succ {i j : Fin (m + 1)} (h : i < j) : (i + 1).val = i.val + 1 :=
  Fin.val_add_one_of_lt (h.trans_le (Fin.le_last j))

theorem val_pred {i j : Fin (m + 1)} (h : j < i) : (i - 1).val = i.val - 1 := by
  have hi : i ≠ 0 := by
    rintro rfl
    exact absurd h (Fin.not_lt_zero j)
  rw [Fin.val_sub_one_of_ne_zero hi]

theorem scanNext_spec (ary : Fin (m + 1) → Node m V) (last : Fin (m + 1)) (turns : ℕ) (idx : Fin (m + 1))
    (hturns : idx.val + turns = last.val) :
    match scanNext ary turns idx with
    | none => ∀ j, idx < j → j ≤ last → ary j = .null
    | some i => idx < i ∧ i ≤ last ∧ ary i ≠ .null ∧ ∀ j, idx < j → j < i → ary j = .null := by
  induction turns generalizing idx with
  | zero =>
    intro j hlt hle
    rw [Fin.lt_def] at hlt
    rw [Fin.le_def] at hle
    omega
  | succ turns ih =>
    have hlt : idx < last := Fin.lt_def.mpr (by omega)
    have hsucc := val_succ hlt
    have hstep : ∀ j, idx < j → j = idx + 1 ∨ idx + 1 < j := by
      intro j hj
      rw [Fin.lt_def] at hj
      by_cases heq : j.val = idx.val + 1
      · exact .inl (Fin.ext (by omega))
      · exact .inr (Fin.lt_def.mpr (by omega))
    rw [scanNext]
    by_cases hnull : (ary (idx + 1)).isNull = true
    · rw [if_pos hnull]
      have hrest := ih (idx + 1) (by omega)
      have hnull := Node.isNull_iff.mp hnull
      cases hscan : scanNext ary turns (idx + 1) with
      | none =>
        rw [hscan] at hrest
        intro j hj hle
        obtain rfl | hj := hstep j hj
        · exact hnull
        · exact hrest j hj hle
      | some i =>
        rw [hscan] at hrest
        obtain ⟨h1, h2, h3, h4⟩ := hrest
        refine ⟨(Fin.lt_def.mpr (by omega : idx.val < (idx + 1).val)).trans h1, h2, h3, fun j hj hji => ?_⟩
        obtain rfl | hj := hstep j hj
        · exact hnull
        · exact h4 j hj hji
    · rw [if_neg hnull]
      refine ⟨Fin.lt_def.mpr (by omega), Fin.le_def.mpr (by omega), fun h => hnull (Node.isNull_iff.mpr h), ?_⟩
      intro j hj hji
      obtain rfl | hj := hstep j hj
      · exact absurd hji (lt_irrefl _)
      · exact absurd (hj.trans hji) (lt_irrefl _)

theorem scanPrev_spec (ary : Fin (m + 1) → Node m V) (first : Fin (m + 1)) (turns : ℕ) (idx : Fin (m + 1))
    (hturns : first.val + turns = idx.val) :
    match scanPrev ary turns idx with
    | none => ∀ j, j < idx → first ≤ j → ary j = .null
    | some i => i < idx ∧ first ≤ i ∧ ary i ≠ .null ∧ ∀ j, j < idx → i < j → ary j = .null := by
  induction turns generalizing idx with
  | zero =>
    intro j hlt hle
    rw [Fin.lt_def] at hlt
    rw [Fin.le_def] at hle
    omega
  | succ turns ih =>
    have hlt : first < idx := Fin.lt_def.mpr (by omega)
    have hpred := val_pred hlt
    have hstep : ∀ j, j < idx → j = idx - 1 ∨ j < idx - 1 := by
      intro j hj
      rw [Fin.lt_def] at hj
      by_cases heq : j.val = idx.val - 1
      · exact .inl (Fin.ext (by omega))
      · exact .inr (Fin.lt_def.mpr (by omega))
    rw [scanPrev]
    by_cases hnull : (ary (idx - 1)).isNull = true
    · rw [if_pos hnull]
      have hrest := ih (idx - 1) (by omega)
      have hnull := Node.isNull_iff.mp hnull
      cases hscan : scanPrev ary turns (idx - 1) with
      | none =>
        rw [hscan] at hrest
        intro j hj hle
        obtain rfl | hj := hstep j hj
        · exact hnull
        · exact hrest j hj hle
      | some i =>
        rw [hscan] at hrest
        obtain ⟨h1, h2, h3, h4⟩ := hrest
        refine ⟨h1.trans (Fin.lt_def.mpr (by omega : (idx - 1).val < idx.val)), h2, h3, fun j hj hji => ?_⟩
        obtain rfl | hj := hstep j hj
        · exact hnull
        · exact h4 j hj hji
    · rw [if_neg hnull]
      refine ⟨Fin.lt_def.mpr (by omega), Fin.le_def.mpr (by omega), fun h => hnull (Node.isNull_iff.mpr h), ?_⟩
      intro j hj hji
      obtain rfl | hj := hstep j hj
      · exact absurd hji (lt_irrefl _)
      · exact absurd (hji.trans hj) (lt_irrefl _)

namespace Node

variable {head : Node m V} {cur : NodePtr m}

/-- What is stored below a level. -/
theorem stored_of_level {value : Option V} {count : ℕ} {indexMin indexMax : Fin (m + 1)}
    (hderef : head.deref cur = level value count indexMin indexMax ary) (i : Fin (m + 1))
    (key : List (Fin (m + 1))) :
    (head.lookup (cur.reverse ++ i :: key)).isSome ↔ ((ary i).lookup key).isSome := by
  rw [lookup_append, ← deref_eq_sub, hderef]
  rfl

theorem reverse_below (cur : NodePtr m) (i : Fin (m + 1)) (key : List (Fin (m + 1))) :
    (key.reverse ++ i :: cur).reverse = cur.reverse ++ i :: key := by
  rw [reverse_append, reverse_reverse, reverse_cons, append_assoc, singleton_append]

section

variable {indexMin indexMax : Fin (m + 1)} (hbound : ∀ i, ary i ≠ null → indexMin ≤ i ∧ i ≤ indexMax)
  (idx : Fin (m + 1))
include hbound

/-- Nothing behind `idx`, or the next node behind it. -/
theorem scanNext_level :
    match scanNext ary (indexMax - idx : ℕ) idx with
    | none => ∀ j, idx < j → ary j = null
    | some i => idx < i ∧ ary i ≠ null ∧ ∀ j, idx < j → ary j ≠ null → i ≤ j := by
  by_cases hle : idx ≤ indexMax
  · have hspec := scanNext_spec ary indexMax (indexMax - idx : ℕ) idx
      (by rw [Fin.le_def] at hle; omega)
    cases hscan : scanNext ary (indexMax - idx : ℕ) idx with
    | none =>
      rw [hscan] at hspec
      intro j hj
      by_contra hne
      exact hne (hspec j hj (hbound j hne).2)
    | some i =>
      rw [hscan] at hspec
      obtain ⟨hlt, -, hne, hnull⟩ := hspec
      refine ⟨hlt, hne, fun j hj hj' => ?_⟩
      by_contra hji
      exact hj' (hnull j hj (not_le.mp hji))
  · have hzero : (indexMax - idx : ℕ) = 0 := by
      rw [Fin.le_def] at hle
      omega
    rw [hzero, scanNext]
    intro j hj
    by_contra hne
    exact hle (hj.le.trans (hbound j hne).2)

/-- Nothing before `idx`, or the next node before it. -/
theorem scanPrev_level :
    match scanPrev ary (idx - indexMin : ℕ) idx with
    | none => ∀ j, j < idx → ary j = null
    | some i => i < idx ∧ ary i ≠ null ∧ ∀ j, j < idx → ary j ≠ null → j ≤ i := by
  by_cases hle : indexMin ≤ idx
  · have hspec := scanPrev_spec ary indexMin (idx - indexMin : ℕ) idx
      (by rw [Fin.le_def] at hle; omega)
    cases hscan : scanPrev ary (idx - indexMin : ℕ) idx with
    | none =>
      rw [hscan] at hspec
      intro j hj
      by_contra hne
      exact hne (hspec j hj (hbound j hne).1)
    | some i =>
      rw [hscan] at hspec
      obtain ⟨hlt, -, hne, hnull⟩ := hspec
      refine ⟨hlt, hne, fun j hj hj' => ?_⟩
      by_contra hji
      exact hj' (hnull j hj (not_le.mp hji))
  · have hzero : (idx - indexMin : ℕ) = 0 := by
      rw [Fin.le_def] at hle
      omega
    rw [hzero, scanPrev]
    intro j hj
    by_contra hne
    exact hle ((hbound j hne).1.trans hj.le)

end

/-- `OwnerNext` finds the first key that parts upwards from that of the pointer. -/
theorem ownerNext_spec (h : head.Shaped) (hlink : head.Linked cur) :
    IsFirst PtrLt (fun q => head.Stored q ∧ Beyond cur.reverse q.reverse) (head.ownerNext cur) := by
  induction cur with
  | nil => exact fun q hq => hq.2
  | cons idx cur ih =>
    have hrest := ih hlink.owner
    have hlevel : (head.deref cur).IsLevel := hlink
    have hshape := h.deref cur
    rw [ownerNext]
    obtain ⟨value, count, indexMin, indexMax, ary, hderef⟩ := hlevel.eq_level
    rw [hderef]
    rw [hderef] at hshape
    obtain ⟨hbound, -, -, hary⟩ := hshape
    have hscan := scanNext_level hbound idx
    simp only [reverse_cons, beyond_concat]
    cases hs : scanNext ary (indexMax - idx : ℕ) idx with
    | none =>
      rw [hs] at hscan
      refine hrest.congr fun q => and_congr_right fun hq => ?_
      constructor
      · exact .inr
      · rintro (⟨j, k, hj, hqj⟩ | hb)
        · rw [Stored, hqj, stored_of_level hderef, hscan j hj, lookup_null] at hq
          cases hq
        · exact hb
    | some i =>
      rw [hs] at hscan
      obtain ⟨hlt, hne, hleast⟩ := hscan
      obtain ⟨key, hfirst, hkey, hkeyLeast⟩ := first_spec (hary i) hne (i :: cur)
      simp only [hfirst]
      have hstored : head.Stored (key.reverse ++ i :: cur) := by
        rw [Stored, reverse_below, stored_of_level hderef]
        exact hkey
      refine ⟨⟨hstored, .inl ⟨i, key, hlt, reverse_below cur i key⟩⟩, ?_⟩
      rintro q ⟨hq, hb⟩ hqne
      rw [PtrLt, reverse_below]
      obtain ⟨j, k, hj, hqj⟩ | hb := hb
      · rw [Stored, hqj, stored_of_level hderef] at hq
        rw [hqj]
        obtain hij | rfl := (hleast j hj (ne_null_of_lookup hq)).lt_or_eq
        · exact append_cons_lt_append_cons _ hij _ _
        · rw [append_lt_append_iff, cons_lt_cons_iff]
          refine .inr ⟨rfl, lt_of_le_of_ne (hkeyLeast k hq) fun heq => hqne ?_⟩
          subst heq
          rw [← reverse_inj, hqj, reverse_below]
      · exact hb.append_lt _

/-- `Next` finds the key behind that of the pointer. -/
theorem next_spec (h : head.Shaped) (hcur : head.deref cur ≠ null) :
    IsFirst PtrLt (fun q => head.Stored q ∧ PtrLt cur q) (head.next cur) := by
  have howner := ownerNext_spec h (linked_of_ne_null hcur)
  have hshape := h.deref cur
  rw [next]
  cases hderef : head.deref cur with
  | null => exact absurd hderef hcur
  | leaf value =>
    refine howner.congr fun q => and_congr_right fun hq => ?_
    rw [PtrLt, lt_iff_extends_or_beyond]
    constructor
    · exact .inr
    · rintro (⟨j, k, hqj⟩ | hb)
      · rw [Stored, hqj, lookup_append, ← deref_eq_sub, hderef] at hq
        have hq : ((null : Node m V).lookup k).isSome := hq
        rw [lookup_null] at hq
        cases hq
      · exact hb
  | level value count indexMin indexMax ary =>
    rw [hderef] at hshape
    obtain ⟨i, key, hfirst, hkey, hleast⟩ := lvFirst_spec hshape cur
    have hrev : ((i :: key).reverse ++ cur).reverse = cur.reverse ++ i :: key := by
      rw [reverse_append, reverse_reverse]
    simp only [hfirst]
    have hstored : head.Stored ((i :: key).reverse ++ cur) := by
      rw [Stored, hrev, stored_of_level hderef]
      exact hkey
    have hlt : PtrLt cur ((i :: key).reverse ++ cur) := by
      rw [PtrLt, hrev]
      exact lt_append_cons _ _ _
    refine ⟨⟨hstored, hlt⟩, ?_⟩
    rintro q ⟨hq, hlt⟩ hne
    rw [PtrLt, hrev]
    rw [PtrLt, lt_iff_extends_or_beyond] at hlt
    obtain ⟨j, k, hqj⟩ | hb := hlt
    · rw [Stored, hqj, stored_of_level hderef] at hq
      rw [hqj, append_lt_append_iff]
      refine lt_of_le_of_ne (hleast j k hq) fun heq => hne ?_
      rw [← reverse_inj, hqj, hrev, heq]
    · exact hb.append_lt _

/-- `Prev` finds the key before that of the pointer. -/
theorem prev_spec (h : head.Shaped) (hlink : head.Linked cur) :
    IsFirst (fun p q => PtrLt q p) (fun q => head.Stored q ∧ PtrLt q cur) (head.prev cur) := by
  induction cur with
  | nil =>
    rintro q ⟨-, hq⟩
    exact absurd hq (not_lt.mpr (nil_le _))
  | cons idx cur ih =>
    have hrest := ih hlink.owner
    have hlevel : (head.deref cur).IsLevel := hlink
    have hshape := h.deref cur
    rw [prev]
    obtain ⟨value, count, indexMin, indexMax, ary, hderef⟩ := hlevel.eq_level
    rw [hderef]
    rw [hderef] at hshape
    obtain ⟨hbound, -, -, hary⟩ := hshape
    have hscan := scanPrev_level hbound idx
    have hvalue : head.Stored cur ↔ value.isSome := by
      rw [Stored, lookup, ← deref_eq_sub, hderef]
      rfl
    simp only [PtrLt, reverse_cons, lt_concat_iff]
    cases hs : scanPrev ary (idx - indexMin : ℕ) idx with
    | none =>
      rw [hs] at hscan
      have hbelow : ∀ q j k, head.Stored q → j < idx → q.reverse ≠ cur.reverse ++ j :: k := by
        intro q j k hq hj hqj
        rw [Stored, hqj, stored_of_level hderef, hscan j hj, lookup_null] at hq
        cases hq
      show IsFirst _ _ (if value.isSome then some cur else head.prev cur)
      split
      · next hsome =>
        refine ⟨⟨hvalue.mpr hsome, .inr (.inl rfl)⟩, ?_⟩
        rintro q ⟨hq, ⟨j, k, hj, hqj⟩ | heq | hlt⟩ hne
        · exact absurd hqj (hbelow q j k hq hj)
        · exact absurd (reverse_inj.mp heq) hne
        · exact hlt
      · next hnone =>
        refine hrest.congr fun q => and_congr_right fun hq => ?_
        constructor
        · exact fun hlt => .inr (.inr hlt)
        · rintro (⟨j, k, hj, hqj⟩ | heq | hlt)
          · exact absurd hqj (hbelow q j k hq hj)
          · obtain rfl := reverse_inj.mp heq
            exact absurd (hvalue.mp hq) hnone
          · exact hlt
    | some i =>
      rw [hs] at hscan
      obtain ⟨hlt, hne, hgreatest⟩ := hscan
      obtain ⟨key, hlast, hkey, hkeyGreatest⟩ := last_spec (hary i) hne (i :: cur)
      simp only [hlast]
      have hstored : head.Stored (key.reverse ++ i :: cur) := by
        rw [Stored, reverse_below, stored_of_level hderef]
        exact hkey
      refine ⟨⟨hstored, .inl ⟨i, key, hlt, reverse_below cur i key⟩⟩, ?_⟩
      rintro q ⟨hq, hq'⟩ hqne
      show q.reverse < _
      rw [reverse_below]
      obtain ⟨j, k, hj, hqj⟩ | heq | hb := hq'
      · rw [Stored, hqj, stored_of_level hderef] at hq
        rw [hqj]
        obtain hij | rfl := (hgreatest j hj (ne_null_of_lookup hq)).lt_or_eq
        · exact append_cons_lt_append_cons _ hij _ _
        · rw [append_lt_append_iff, cons_lt_cons_iff]
          refine .inr ⟨rfl, lt_of_le_of_ne (hkeyGreatest k hq) fun heq => hqne ?_⟩
          subst heq
          rw [← reverse_inj, hqj, reverse_below]
      · rw [heq]
        exact lt_append_cons _ _ _
      · exact hb.trans (lt_append_cons _ _ _)

end Node

end Fon9.Trie
