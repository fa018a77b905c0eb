import Mathlib.Data.Set.Card
import Fon9.Trie.EraseLoop

/-! `Trie` as an ordered map. After any operations the keys stored, what is found and the
walks in both directions are those of the map the operations describe. -/

namespace Fon9.Trie

open Lib Node List Function

variable {κ : Type*} [LinearOrder κ] {T : KeyTrans κ} {V : Type*} {t : Trie T V}

/-! ### Keys and pointers -/

def ptrOf (T : KeyTrans κ) (key : List κ) : NodePtr T.maxIndex := (key.map T.toIndex).reverse

/-- The map a trie stands for. -/
def contents (t : Trie T V) (key : List κ) : Option V := t.head.lookup (key.map T.toIndex)

@[simp] theorem keyOf_ptrOf (key : List κ) : keyOf (ptrOf T key) = key := by
  have hid : ⇑T.toIndex.symm ∘ ⇑T.toIndex = id := by
    funext k
    exact T.toIndex.symm_apply_apply k
  rw [keyOf, ptrOf, reverse_reverse, map_map, hid, map_id]

@[simp] theorem map_keyOf (cur : NodePtr T.maxIndex) : (keyOf cur).map T.toIndex = cur.reverse := by
  have hid : ⇑T.toIndex ∘ ⇑T.toIndex.symm = id := by
    funext i
    exact T.toIndex.apply_symm_apply i
  rw [keyOf, map_map, hid, map_id]

@[simp] theorem ptrOf_keyOf (cur : NodePtr T.maxIndex) : ptrOf T (keyOf cur) = cur := by
  rw [ptrOf, map_keyOf, reverse_reverse]

theorem keyOf_injective : Function.Injective (keyOf : NodePtr T.maxIndex → List κ) := by
  intro p q h
  rw [← ptrOf_keyOf p, h, ptrOf_keyOf]

theorem keyOf_lt_keyOf {p q : NodePtr T.maxIndex} : keyOf p < keyOf q ↔ PtrLt p q := by
  constructor
  · intro h
    rw [PtrLt, ← map_keyOf, ← map_keyOf]
    exact List.map_lt (fun a b hab => T.toIndex.lt_iff_lt.mpr hab) h
  · exact fun h => List.map_lt (fun a b hab => T.toIndex.symm.lt_iff_lt.mpr hab) h

theorem get_some (t : Trie T V) (cur : NodePtr T.maxIndex) : t.get (some cur) = t.contents (keyOf cur) := by
  rw [contents, map_keyOf, Node.lookup, ← deref_eq_sub]
  rfl

theorem stored_iff (t : Trie T V) (cur : NodePtr T.maxIndex) :
    t.head.Stored cur ↔ (t.contents (keyOf cur)).isSome := by
  rw [contents, map_keyOf, Stored]

/-! ### Search -/

theorem deref_append (head : Node T.maxIndex V) (key : List (Fin (T.maxIndex + 1))) (cur : NodePtr T.maxIndex) :
    head.deref (key.reverse ++ cur) = (head.deref cur).sub key := by
  rw [deref_eq_sub, deref_eq_sub, reverse_append, reverse_reverse, sub_append]

theorem findLoop_eq (head : Node T.maxIndex V) (cur : NodePtr T.maxIndex) (key : List κ)
    (hcur : (head.deref cur).isNull = false) :
    findLoop head cur key =
      if (head.deref (ptrOf T key ++ cur)).isNull then none else some (ptrOf T key ++ cur) := by
  induction key generalizing cur with
  | nil =>
    show some cur = if (head.deref cur).isNull then none else some cur
    rw [hcur]
    rfl
  | cons k key ih =>
    have hptr : ptrOf T (k :: key) ++ cur = ptrOf T key ++ T.toIndex k :: cur := by
      rw [ptrOf, ptrOf, map_cons, reverse_cons, append_assoc, singleton_append]
    rw [findLoop, hptr]
    by_cases hnull : ((head.deref cur).child (T.toIndex k)).isNull
    · have hsub : (head.deref (ptrOf T key ++ T.toIndex k :: cur)) = null := by
        rw [ptrOf, deref_append, deref, isNull_iff.mp hnull, sub_null]
      rw [if_pos hnull, hsub]
      rfl
    · rw [if_neg hnull]
      exact ih (T.toIndex k :: cur) (Bool.eq_false_iff.mpr hnull)

theorem findNode_eq (t : Trie T V) (key : List κ) :
    t.findNode key = if (t.head.deref (ptrOf T key)).isNull then none else some (ptrOf T key) := by
  rw [findNode]
  by_cases hnull : t.head.isNull
  · rw [if_pos hnull, deref_eq_sub, isNull_iff.mp hnull, sub_null]
    rfl
  · have hloop := findLoop_eq t.head [] key (Bool.eq_false_iff.mpr hnull)
    rw [append_nil] at hloop
    rw [if_neg hnull, hloop]

theorem contents_eq_value (t : Trie T V) (key : List κ) : t.contents key = (t.head.deref (ptrOf T key)).value := by
  rw [deref_eq_sub, ptrOf, reverse_reverse]
  rfl

theorem findMapped_eq (t : Trie T V) (key : List κ) : t.findMapped key = t.contents key := by
  rw [findMapped, findNode_eq, contents_eq_value]
  split
  · next hnull =>
    rw [isNull_iff.mp hnull]
    rfl
  · rfl

theorem find_eq (t : Trie T V) (key : List κ) :
    t.find key = if (t.contents key).isSome then some (ptrOf T key) else none := by
  rw [find, findNode_eq, contents_eq_value]
  split
  · next hnull =>
    rw [isNull_iff.mp hnull]
    rfl
  · rw [Option.filter_some]

/-! ### The operations -/

theorem emplace_stored (h : t.head.Wf) {key : List κ} (hkey : (t.contents key).isSome) (value : V) :
    t.emplace key value = (t, some (ptrOf T key), false) := by
  have hne : t.head ≠ null := ne_null_of_lookup hkey
  have hnull : ¬ t.head.isNull = true := fun hnull => hne (isNull_iff.mp hnull)
  have hloop : emplaceLoop t.head [] (key.map T.toIndex) = (t.head, ptrOf T key) := by
    rw [emplaceLoop_eq, append_nil]
    show (prepared (key.map T.toIndex) t.head, _) = _
    rw [prepared_of_stored h.shaped hkey]
    rfl
  rw [emplace]
  simp only [if_neg hnull, hloop]
  rw [← contents_eq_value, if_pos hkey]

theorem emplace_new {key : List κ} (hkey : t.contents key = none) (value : V) :
    t.emplace key value = (⟨inserted value (key.map T.toIndex) t.head.touch⟩, some (ptrOf T key), true) := by
  have htouch : (if t.head.isNull then .leaf none else t.head) = t.head.touch := by
    cases t.head <;> rfl
  have hloop : emplaceLoop t.head.touch [] (key.map T.toIndex) =
      (prepared (key.map T.toIndex) t.head.touch, ptrOf T key) := by
    rw [emplaceLoop_eq, append_nil]
    rfl
  have hvalue : ((prepared (key.map T.toIndex) t.head.touch).deref (ptrOf T key)).value = none := by
    rw [deref_eq_sub, ptrOf, reverse_reverse]
    show lookup _ _ = _
    rw [lookup_prepared (touch_ne_null _), lookup_touch]
    exact hkey
  have hins : ((prepared (key.map T.toIndex) t.head.touch).incCount (ptrOf T key)).modify (setValue (some value))
      (ptrOf T key) = inserted value (key.map T.toIndex) t.head.touch := by
    rw [incCount, modify_addCount, zoom_eq_descend, ptrOf, reverse_reverse,
      descend_prepared (touch_ne_null _)]
  rw [emplace]
  simp only [htouch, hloop]
  rw [hvalue, hins]
  rfl

/-- The tree with the value at a pointer taken away, its node still there. -/
def cleared (t : Trie T V) (cur : NodePtr T.maxIndex) : Node T.maxIndex V := t.head.modify (setValue none) cur

variable {cur : NodePtr T.maxIndex}

section

variable (hcur : t.head.Stored cur)
include hcur

theorem linked_of_stored : t.head.Linked cur := by
  refine linked_of_ne_null ?_
  rw [deref_eq_sub]
  exact ne_null_of_value hcur

theorem deref_cleared : (t.cleared cur).deref cur = setValue none (t.head.deref cur) :=
  deref_modify (linked_of_stored hcur)

theorem erase_leaf {value : Option V} (hnode : t.head.deref cur = leaf value) :
    t.erase cur = (⟨((t.cleared cur).eraseLoop cur).1⟩, ((t.cleared cur).eraseLoop cur).2) := by
  have hderef := deref_cleared hcur
  rw [cleared, hnode] at hderef
  rw [erase, hderef]
  rfl

theorem erase_level {value : Option V} {count : ℕ} {indexMin indexMax : Fin (T.maxIndex + 1)}
    {ary : Fin (T.maxIndex + 1) → Node T.maxIndex V}
    (hnode : t.head.deref cur = level value count indexMin indexMax ary) :
    t.erase cur = (⟨(t.cleared cur).decCount cur⟩, some ((ary indexMin).first (indexMin :: cur))) := by
  have hderef := deref_cleared hcur
  rw [cleared, hnode] at hderef
  rw [erase, hderef]
  rfl

theorem linked_cleared : (t.cleared cur).deref cur ≠ null := by
  rw [deref_cleared hcur, deref_eq_sub]
  have hne : t.head.sub cur.reverse ≠ null := ne_null_of_value hcur
  cases hnode : t.head.sub cur.reverse with
  | null => exact absurd hnode hne
  | leaf value => simp [setValue]
  | level value count indexMin indexMax ary => simp [setValue]

theorem erase_fst : (t.erase cur).1.head = erased cur.reverse t.head := by
  have hlink := linked_of_stored hcur
  rw [erased, ← zoom_eq_descend]
  cases hnode : t.head.deref cur with
  | null =>
    rw [deref_eq_sub] at hnode
    exact absurd hnode (ne_null_of_value hcur)
  | leaf value =>
    rw [erase_leaf hcur hnode]
    show ((t.cleared cur).eraseLoop cur).1 = _
    rw [eraseLoop_fst (linked_of_ne_null (linked_cleared hcur)), cleared, zoom_replaceChild_modify hlink]
    refine zoom_congr ?_
    rw [hnode]
    rfl
  | level value count indexMin indexMax ary =>
    rw [erase_level hcur hnode]
    show (t.head.modify (setValue none) cur).decCount cur = _
    rw [decCount, addCount_modify, ← zoom_replaceChild hlink]
    · refine zoom_congr ?_
      rw [hnode]
      rfl
    · rw [hnode]
      simp [setValue]

end

theorem erase_snd (h : t.head.Wf) (hcur : t.head.Stored cur) :
    IsFirst PtrLt (fun q => (t.erase cur).1.head.Stored q ∧ PtrLt cur q) (t.erase cur).2 := by
  have hwf := (erased_spec h hcur).1
  rw [← erase_fst hcur] at hwf
  cases hnode : t.head.deref cur with
  | null =>
    rw [deref_eq_sub] at hnode
    exact absurd hnode (ne_null_of_value hcur)
  | leaf value =>
    rw [erase_leaf hcur hnode] at hwf ⊢
    have hrange : (t.cleared cur).Ranged := by
      show (zoom setChild (setValue none) cur t.head).Ranged
      rw [zoom_eq_descend]
      exact ranged_descend_setValue h.shaped.ranged none _
    have hloop := eraseLoop_snd hrange (linked_cleared hcur) hwf.shaped
    refine hloop.congr fun q => and_congr_right fun hq => ?_
    rw [PtrLt, lt_iff_extends_or_beyond]
    constructor
    · exact .inr
    · rintro (⟨j, k, hqj⟩ | hb)
      · rw [eraseLoop_fst (linked_of_ne_null (linked_cleared hcur)), zoom_eq_descend, Stored, hqj, lookup_append,
          sub_descend_null, lookup_null] at hq
        cases hq
      · exact hb
  | level value count indexMin indexMax ary =>
    rw [erase_level hcur hnode] at hwf ⊢
    have htree : ((t.cleared cur).decCount cur).deref cur = level none count indexMin indexMax ary := by
      rw [cleared, decCount, addCount_modify, deref_putCount _ (linked_of_stored hcur), hnode]
      rfl
    have hne : ((t.cleared cur).decCount cur).deref cur ≠ null := by
      rw [htree]
      simp
    have hnext := next_spec hwf.shaped hne
    rw [Node.next, htree] at hnext
    exact hnext

/-! ### Walks -/

/-- The iterators from `begin()` on by `++`, before `end()`. -/
def forward (t : Trie T V) (fuel : ℕ) : List (NodePtr T.maxIndex) := walk t.head.next fuel t.begin

/-- The iterators from `i` on by `--`, until `begin()`. -/
def backward (t : Trie T V) : ℕ → Iterator T → List (NodePtr T.maxIndex)
  | 0, _ => []
  | fuel + 1, i =>
    if i = t.begin then []
    else
      match t.toPrev i with
      | some cur => cur :: t.backward fuel (some cur)
      | none => []

theorem begin_first (h : t.head.Shaped) : IsFirst PtrLt t.head.Stored t.begin := by
  rw [begin]
  by_cases hnull : t.head.isNull
  · rw [if_pos hnull]
    intro q hq
    rw [Stored, isNull_iff.mp hnull, lookup_null] at hq
    cases hq
  · rw [if_neg hnull]
    obtain ⟨key, hfirst, hkey, hleast⟩ := first_spec h (fun h => hnull (isNull_iff.mpr h)) []
    rw [hfirst, append_nil]
    refine ⟨?_, fun q hq hne => ?_⟩
    · rw [Stored, reverse_reverse]
      exact hkey
    · rw [PtrLt, reverse_reverse]
      refine lt_of_le_of_ne (hleast _ hq) fun heq => hne ?_
      rw [heq, reverse_reverse]

theorem last_first (h : t.head.Shaped) (hne : t.head ≠ null) :
    IsFirst (fun p q => PtrLt q p) t.head.Stored (some (t.head.last [])) := by
  obtain ⟨key, hlast, hkey, hgreatest⟩ := last_spec h hne []
  rw [hlast, append_nil]
  refine ⟨?_, fun q hq hqne => ?_⟩
  · rw [Stored, reverse_reverse]
    exact hkey
  · show q.reverse < key.reverse.reverse
    rw [reverse_reverse]
    refine lt_of_le_of_ne (hgreatest _ hq) fun heq => hqne ?_
    rw [← heq, reverse_reverse]

theorem not_null_of_stored (hcur : t.head.Stored cur) : t.head.deref cur ≠ null := by
  rw [deref_eq_sub]
  exact ne_null_of_value hcur

/-- From a value, the way back ends where there is no value before. -/
theorem backward_some (h : t.head.Shaped) (fuel : ℕ) (hcur : t.head.Stored cur) :
    t.backward fuel (some cur) = walk t.head.prev fuel (t.head.prev cur) := by
  induction fuel generalizing cur with
  | zero => rfl
  | succ fuel ih =>
    have hfirst := begin_first h
    have hprev := prev_spec h (linked_of_stored hcur)
    rw [backward]
    split
    · next heq =>
      rw [← heq] at hfirst
      cases hp : t.head.prev cur with
      | none => rfl
      | some p =>
        rw [hp] at hprev
        have hne : p ≠ cur := by
          rintro rfl
          exact absurd hprev.1.2 (lt_irrefl _)
        exact absurd (hprev.1.2.trans (hfirst.2 p hprev.1.1 hne)) (lt_irrefl _)
    · show (match t.head.prev cur with
        | some p => p :: t.backward fuel (some p)
        | none => []) = _
      cases hp : t.head.prev cur with
      | none => rfl
      | some p =>
        rw [hp] at hprev
        show p :: t.backward fuel (some p) = p :: walk t.head.prev fuel (t.head.prev p)
        rw [ih hprev.1.1]

theorem backward_none (h : t.head.Shaped) (hne : t.head ≠ null) (fuel : ℕ) :
    t.backward fuel none = walk t.head.prev fuel (some (t.head.last [])) := by
  cases fuel with
  | zero => rfl
  | succ fuel =>
    have hbegin : (none : Iterator T) ≠ t.begin := by
      rw [begin, if_neg fun hnull => hne (isNull_iff.mp hnull)]
      exact nofun
    rw [backward, if_neg hbegin]
    show t.head.last [] :: t.backward fuel (some (t.head.last [])) = _
    rw [backward_some h fuel (last_first h hne).1]
    rfl

/-! ### Runs -/

/-- The operations; `erase` is given the iterator of a value. -/
inductive Op (T : KeyTrans κ) (V : Type*)
  | emplace (key : List κ) (value : V)
  | erase (cur : NodePtr T.maxIndex)

def step (t : Trie T V) : Op T V → Trie T V
  | .emplace key value => (t.emplace key value).1
  | .erase cur => if (t.get (some cur)).isSome then (t.erase cur).1 else t

/-- The operations on a map. -/
def mapStep (map : List κ → Option V) : Op T V → List κ → Option V
  | .emplace key value => if (map key).isSome then map else Function.update map key (some value)
  | .erase cur => Function.update map (keyOf cur) none

/-- The trie behaves as the map. -/
structure Refines (t : Trie T V) (map : List κ → Option V) : Prop where
  finite : {key | (map key).isSome}.Finite
  size : t.size = {key | (map key).isSome}.ncard
  isEmpty : t.isEmpty ↔ ∀ key, map key = none
  find : ∀ key, (t.find key).map keyOf = (map key).map fun _ => key
  get_find : ∀ key, t.get (t.find key) = map key
  findMapped : ∀ key, t.findMapped key = map key
  ascending : ∀ fuel, t.size ≤ fuel → ((t.forward fuel).map keyOf).Pairwise (· < ·)
  visited : ∀ fuel, t.size ≤ fuel → ∀ key, key ∈ (t.forward fuel).map keyOf ↔ (map key).isSome
  backward : ∀ fuel, t.size ≤ fuel → t.backward fuel none = (t.forward fuel).reverse
  emplaced : ∀ key value, ((t.emplace key value).2.2 = true ↔ map key = none) ∧
    (t.emplace key value).2.1.map keyOf = some key ∧
      (t.emplace key value).1.get (t.emplace key value).2.1 = some ((map key).getD value)
  erased : ∀ cur, (map (keyOf cur)).isSome →
    IsFirst (· < ·) (fun key => (map key).isSome ∧ keyOf cur < key) ((t.erase cur).2.map keyOf)

theorem contents_emplace (h : t.head.Wf) (key : List κ) (value : V) :
    (t.emplace key value).1.head.Wf ∧
      (t.emplace key value).1.contents = mapStep (T := T) t.contents (.emplace key value) := by
  cases hkey : t.contents key with
  | none =>
    have hnew : t.head.touch.lookup (key.map T.toIndex) = none := by
      rw [lookup_touch]
      exact hkey
    obtain ⟨hwf, -, hlook⟩ := inserted_spec (Ready.touch h) hnew value
    rw [emplace_new hkey]
    refine ⟨hwf, ?_⟩
    funext k
    rw [mapStep, if_neg (by rw [hkey]; simp)]
    show (inserted value (key.map T.toIndex) t.head.touch).lookup (k.map T.toIndex) = _
    rw [hlook, lookup_touch, update_apply]
    by_cases hk : k = key
    · rw [if_pos (by rw [hk]), if_pos hk]
    · rw [if_neg fun heq => hk (map_injective_iff.mpr T.toIndex.injective heq), if_neg hk]
      rfl
  | some v =>
    have hsome : (t.contents key).isSome := by
      rw [hkey]
      rfl
    rw [emplace_stored h hsome, mapStep, if_pos hsome]
    exact ⟨h, rfl⟩

theorem contents_erase (h : t.head.Wf) (hcur : t.head.Stored cur) :
    (t.erase cur).1.head.Wf ∧ (t.erase cur).1.contents = Function.update t.contents (keyOf cur) none := by
  obtain ⟨hwf, hlook⟩ := erased_spec h hcur
  rw [← erase_fst hcur] at hwf hlook
  refine ⟨hwf, ?_⟩
  funext k
  rw [contents, hlook, update_apply]
  by_cases hk : k = keyOf cur
  · rw [if_pos hk, if_pos (by rw [hk, map_keyOf])]
  · rw [if_neg hk, if_neg]
    · rfl
    · rw [← map_keyOf]
      exact fun heq => hk (map_injective_iff.mpr T.toIndex.injective heq)

theorem contents_step (h : t.head.Wf) (op : Op T V) :
    (t.step op).head.Wf ∧ (t.step op).contents = mapStep t.contents op := by
  cases op with
  | emplace key value => exact contents_emplace h key value
  | erase cur =>
    rw [step]
    split
    · next hcur =>
      rw [get_some, ← stored_iff] at hcur
      exact contents_erase h hcur
    · next hcur =>
      refine ⟨h, ?_⟩
      rw [get_some, Bool.not_eq_true, Option.isSome_eq_false_iff, Option.isNone_iff_eq_none] at hcur
      rw [mapStep, ← hcur, update_eq_self]

/-! ### The map of a trie in order -/

/-- The pointers to values. -/
def stored (t : Trie T V) : Finset (NodePtr T.maxIndex) := t.head.keys.image List.reverse

theorem mem_stored : cur ∈ t.stored ↔ t.head.Stored cur := by
  rw [stored, Finset.mem_image, Stored, ← Node.mem_keys]
  constructor
  · rintro ⟨key, hkey, rfl⟩
    rwa [reverse_reverse]
  · exact fun h => ⟨cur.reverse, h, reverse_reverse cur⟩

theorem size_eq_card (h : t.head.Wf) : t.size = t.stored.card := by
  rw [stored, Finset.card_image_of_injective _ reverse_injective, card_keys t.head h.counted, size]
  cases t.head <;> rfl

theorem keys_eq_image (t : Trie T V) : {key | (t.contents key).isSome} = (t.stored.image keyOf : Finset (List κ)) := by
  ext key
  rw [Finset.coe_image, Set.mem_image, Set.mem_ofPred_eq]
  constructor
  · intro hkey
    refine ⟨ptrOf T key, ?_, keyOf_ptrOf key⟩
    rw [Finset.mem_coe, mem_stored, stored_iff, keyOf_ptrOf]
    exact hkey
  · rintro ⟨cur, hcur, rfl⟩
    rwa [Finset.mem_coe, mem_stored, stored_iff] at hcur

theorem ptrLt_trans (p q r : NodePtr T.maxIndex) (hpq : PtrLt p q) (hqr : PtrLt q r) : PtrLt p r := hpq.trans hqr

theorem ptrLt_irrefl (p : NodePtr T.maxIndex) : ¬ PtrLt p p := lt_irrefl _

theorem forward_spec (h : t.head.Wf) {fuel : ℕ} (hfuel : t.size ≤ fuel) :
    (t.forward fuel).Pairwise PtrLt ∧ ∀ cur, cur ∈ t.forward fuel ↔ t.head.Stored cur := by
  have hnext : ∀ p ∈ t.stored, IsFirst PtrLt (fun q => q ∈ t.stored ∧ PtrLt p q) (t.head.next p) := by
    intro p hp
    refine (next_spec h.shaped (not_null_of_stored (mem_stored.mp hp))).congr fun q => ?_
    rw [mem_stored]
  have hfirst : IsFirst PtrLt (· ∈ t.stored) t.begin := (begin_first h.shaped).congr fun q => mem_stored.symm
  rw [size_eq_card h] at hfuel
  have hwalk := walk_ordered ptrLt_trans ptrLt_irrefl hnext (Finset.Subset.refl _) (fun _ _ q hq _ => hq) hfirst hfuel
  exact ⟨hwalk.1, fun cur => (hwalk.2 cur).trans mem_stored⟩

theorem backward_spec (h : t.head.Wf) {fuel : ℕ} (hfuel : t.size ≤ fuel) :
    (t.backward fuel none).Pairwise (fun p q => PtrLt q p) ∧ ∀ cur, cur ∈ t.backward fuel none ↔ t.head.Stored cur := by
  by_cases hne : t.head = null
  · have hnone : t.backward fuel none = [] := by
      cases fuel with
      | zero => rfl
      | succ fuel =>
        rw [backward, if_pos]
        rw [begin, hne]
        rfl
    rw [hnone]
    refine ⟨List.Pairwise.nil, fun cur => ?_⟩
    rw [Stored, hne, lookup_null]
    simp
  · have hprev : ∀ p ∈ t.stored,
        IsFirst (fun p q => PtrLt q p) (fun q => q ∈ t.stored ∧ PtrLt q p) (t.head.prev p) := by
      intro p hp
      refine (prev_spec h.shaped (linked_of_stored (mem_stored.mp hp))).congr fun q => ?_
      rw [mem_stored]
    have hlast : IsFirst (fun p q => PtrLt q p) (· ∈ t.stored) (some (t.head.last [])) :=
      (last_first h.shaped hne).congr fun q => mem_stored.symm
    rw [size_eq_card h] at hfuel
    rw [backward_none h.shaped hne]
    have hwalk := walk_ordered (fun p q r hpq hqr => ptrLt_trans r q p hqr hpq) ptrLt_irrefl hprev
      (Finset.Subset.refl _) (fun _ _ q hq _ => hq) hlast hfuel
    exact ⟨hwalk.1, fun cur => (hwalk.2 cur).trans mem_stored⟩

theorem backward_eq_reverse (h : t.head.Wf) {fuel : ℕ} (hfuel : t.size ≤ fuel) :
    t.backward fuel none = (t.forward fuel).reverse := by
  obtain ⟨hfwd, hfwdMem⟩ := forward_spec h hfuel
  obtain ⟨hbwd, hbwdMem⟩ := backward_spec h hfuel
  have hrev : (t.forward fuel).reverse.Pairwise (fun p q => PtrLt q p) := pairwise_reverse.mpr hfwd
  have hirrefl : ∀ {p q : NodePtr T.maxIndex}, PtrLt q p → p ≠ q := by
    rintro p q hlt rfl
    exact ptrLt_irrefl p hlt
  have hperm : (t.backward fuel none).Perm (t.forward fuel).reverse := by
    refine (perm_ext_iff_of_nodup ?_ ?_).mpr fun cur => ?_
    · exact hbwd.imp hirrefl
    · exact hrev.imp hirrefl
    · rw [mem_reverse, hbwdMem, hfwdMem]
  exact hperm.eq_of_pairwise (fun p q _ _ hpq hqp => absurd (ptrLt_trans p q p hqp hpq) (ptrLt_irrefl p)) hbwd hrev

theorem refines_contents (h : t.head.Wf) : Refines t t.contents := by
  have hstored : ∀ cur, (t.contents (keyOf cur)).isSome → t.head.Stored cur := fun cur => (stored_iff t cur).mpr
  refine
    { finite := ?_, size := ?_, isEmpty := ?_, find := fun key => ?_, get_find := fun key => ?_,
      findMapped := findMapped_eq t, ascending := fun fuel hfuel => ?_, visited := fun fuel hfuel key => ?_,
      backward := fun fuel => backward_eq_reverse h, emplaced := fun key value => ?_, erased := fun cur hcur => ?_ }
  · rw [keys_eq_image]
    exact Finset.finite_toSet _
  · rw [keys_eq_image, Set.ncard_coe_finset, Finset.card_image_of_injective _ keyOf_injective, size_eq_card h]
  · rw [isEmpty, isNull_iff]
    constructor
    · intro hnull key
      rw [contents, hnull, lookup_null]
    · intro hnone
      by_contra hne
      obtain ⟨key, hkey⟩ := h.shaped.exists_key hne
      have hkey' := hnone (keyOf key.reverse)
      rw [contents, map_keyOf, reverse_reverse] at hkey'
      rw [hkey'] at hkey
      cases hkey
  · rw [find_eq]
    cases t.contents key <;> simp
  · rw [find_eq]
    split
    · rw [get_some, keyOf_ptrOf]
    · next hnone =>
      rw [Bool.not_eq_true, Option.isSome_eq_false_iff, Option.isNone_iff_eq_none] at hnone
      rw [hnone]
      rfl
  · rw [pairwise_map]
    exact (forward_spec h hfuel).1.imp fun hlt => keyOf_lt_keyOf.mpr hlt
  · rw [mem_map]
    constructor
    · rintro ⟨cur, hcur, rfl⟩
      rw [← stored_iff]
      exact ((forward_spec h hfuel).2 cur).mp hcur
    · intro hkey
      refine ⟨ptrOf T key, ((forward_spec h hfuel).2 _).mpr ?_, keyOf_ptrOf key⟩
      rw [stored_iff, keyOf_ptrOf]
      exact hkey
  · have hcontents := (contents_emplace h key value).2
    cases hkey : t.contents key with
    | none =>
      have hget := congrFun hcontents key
      rw [mapStep, if_neg (by rw [hkey]; simp), update_self] at hget
      rw [emplace_new hkey] at hget ⊢
      refine ⟨by simp, by simp, ?_⟩
      rw [get_some, keyOf_ptrOf, hget]
      rfl
    | some v =>
      have hsome : (t.contents key).isSome := by
        rw [hkey]
        rfl
      rw [emplace_stored h hsome]
      refine ⟨by simp, by simp, ?_⟩
      rw [get_some, keyOf_ptrOf, hkey]
      rfl
  · have hcur := hstored cur hcur
    have hsnd := erase_snd h hcur
    have hrest : ∀ q, (t.erase cur).1.head.Stored q ∧ PtrLt cur q ↔
        (t.contents (keyOf q)).isSome ∧ keyOf cur < keyOf q := by
      intro q
      rw [stored_iff, (contents_erase h hcur).2, keyOf_lt_keyOf]
      refine and_congr_left fun hlt => ?_
      rw [update_of_ne]
      intro heq
      exact absurd (keyOf_injective heq ▸ hlt : PtrLt cur cur) (ptrLt_irrefl cur)
    have hsnd := hsnd.congr hrest
    cases hi : (t.erase cur).2 with
    | none =>
      rw [hi] at hsnd
      intro key hkey
      rw [← keyOf_ptrOf (T := T) key] at hkey
      exact hsnd (ptrOf T key) hkey
    | some i =>
      rw [hi] at hsnd
      refine ⟨hsnd.1, fun key hkey hne => ?_⟩
      rw [← keyOf_ptrOf (T := T) key] at hkey hne ⊢
      exact keyOf_lt_keyOf.mpr (hsnd.2 (ptrOf T key) hkey fun heq => hne (congrArg keyOf heq))

/-- The contents of a trie follow the operations. -/
theorem contents_run (ops : List (Op T V)) (h : t.head.Wf) :
    (ops.foldl step t).head.Wf ∧ (ops.foldl step t).contents = ops.foldl mapStep t.contents := by
  induction ops generalizing t with
  | nil => exact ⟨h, rfl⟩
  | cons op ops ih =>
    obtain ⟨hwf, hcontents⟩ := contents_step h op
    obtain ⟨hwf', hcontents'⟩ := ih hwf
    refine ⟨hwf', hcontents'.trans ?_⟩
    rw [hcontents]
    rfl

/-- The trie that any operations make of the empty one. -/
theorem contents_run_empty (ops : List (Op T V)) :
    (ops.foldl step ({} : Trie T V)).head.Wf ∧
      (ops.foldl step ({} : Trie T V)).contents = ops.foldl mapStep fun _ => none := by
  have hempty : ({} : Trie T V).contents = fun _ => none := by
    funext key
    exact lookup_null _
  rw [← hempty]
  exact contents_run ops ⟨trivial, trivial⟩

/-- After any operations the trie behaves as the map they describe. -/
theorem run_refines (ops : List (Op T V)) :
    Refines (ops.foldl step {}) (ops.foldl mapStep fun _ => none) := by
  obtain ⟨hwf, hcontents⟩ := contents_run_empty ops
  rw [← hcontents]
  exact refines_contents hwf

end Fon9.Trie
