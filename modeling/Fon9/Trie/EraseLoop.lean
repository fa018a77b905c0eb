import Fon9.Trie.Erase

/-! The loop of `erase`, and with it `erase`: the tree it leaves is the removal along the
key, and its iterator, found before the counting, is the next one in that tree, as the
steps do not read the counts. -/

namespace Fon9.Trie.Node

open Lib List Function Function

variable {m : ℕ} {V : Type*} {node head : Node m V} {ary : Fin (m + 1) → Node m V}
  {cur : NodePtr m} {f g : Node m V → Node m V}

/-! ### The counts are not read -/

/-- The tree with no counts. -/
def uncount : Node m V → Node m V
  | level value _ indexMin indexMax ary => level value 0 indexMin indexMax fun i => (ary i).uncount
  | node => node

theorem child_uncount (node : Node m V) (idx : Fin (m + 1)) : node.uncount.child idx = (node.child idx).uncount := by
  cases node <;> rfl

theorem isNull_uncount (node : Node m V) : node.uncount.isNull = node.isNull := by
  cases node <;> rfl

theorem deref_uncount (head : Node m V) (cur : NodePtr m) : head.uncount.deref cur = (head.deref cur).uncount := by
  induction cur with
  | nil => rfl
  | cons idx cur ih => rw [deref, ih, child_uncount, deref]

theorem first_uncount (node : Node m V) (cur : NodePtr m) : node.uncount.first cur = node.first cur := by
  induction node generalizing cur with
  | null => rfl
  | leaf value => rfl
  | level value count indexMin indexMax ary ih =>
    cases value with
    | none => exact ih indexMin (indexMin :: cur)
    | some v => rfl

theorem lvFirst_uncount (node : Node m V) (cur : NodePtr m) : node.uncount.lvFirst cur = node.lvFirst cur := by
  cases node with
  | null => rfl
  | leaf value => rfl
  | level value count indexMin indexMax ary => exact first_uncount (ary indexMin) (indexMin :: cur)

theorem scanNext_uncount (turns : ℕ) (idx : Fin (m + 1)) :
    scanNext (fun i => (ary i).uncount) turns idx = scanNext ary turns idx := by
  induction turns generalizing idx with
  | zero => rfl
  | succ turns ih => rw [scanNext, scanNext, isNull_uncount, ih]

theorem ownerNext_uncount (head : Node m V) (cur : NodePtr m) : head.uncount.ownerNext cur = head.ownerNext cur := by
  induction cur with
  | nil => rfl
  | cons idx cur ih =>
    rw [ownerNext, ownerNext, deref_uncount]
    cases head.deref cur with
    | null => rfl
    | leaf value => rfl
    | level value count indexMin indexMax ary =>
      simp only [uncount, scanNext_uncount]
      cases scanNext ary (indexMax - idx : ℕ) idx with
      | none => exact ih
      | some i =>
        simp only
        rw [first_uncount]

theorem uncount_modify (hf : ∀ node, (f node).uncount = node.uncount) (head : Node m V) (cur : NodePtr m) :
    (head.modify f cur).uncount = head.uncount := by
  induction cur generalizing f with
  | nil => exact hf head
  | cons idx cur ih =>
    refine ih fun node => ?_
    cases node with
    | null => rfl
    | leaf value => rfl
    | level value count indexMin indexMax ary =>
      simp only [setChild, child, uncount]
      congr 1
      funext i
      by_cases hi : i = idx
      · subst hi
        rw [update_self, hf]
      · rw [update_of_ne hi]

theorem uncount_addCount (h : ℕ → ℕ) (head : Node m V) (cur : NodePtr m) :
    (addCount h head cur).uncount = head.uncount := by
  induction cur generalizing head with
  | nil => rfl
  | cons idx cur ih =>
    rw [addCount, ih]
    refine uncount_modify (fun node => ?_) head cur
    cases node <;> rfl

theorem ownerNext_addCount (h : ℕ → ℕ) (head : Node m V) (cur cur' : NodePtr m) :
    (addCount h head cur').ownerNext cur = head.ownerNext cur := by
  rw [← ownerNext_uncount, uncount_addCount, ownerNext_uncount]

theorem lvFirst_addCount (h : ℕ → ℕ) (head : Node m V) (cur cur' : NodePtr m) :
    ((addCount h head cur').deref cur).lvFirst cur = (head.deref cur).lvFirst cur := by
  rw [← lvFirst_uncount, ← deref_uncount, uncount_addCount, deref_uncount, lvFirst_uncount]

/-! ### Changes at a pointer -/

theorem putCount_child (h : ℕ → ℕ) (hlevel : node.IsLevel) (idx : Fin (m + 1)) (obj : Node m V) :
    (putCount h node idx obj).child idx = obj := by
  cases node with
  | null => exact absurd hlevel id
  | leaf value => exact absurd hlevel id
  | level value count indexMin indexMax ary => simp [putCount, setChild, mapCount, child]

theorem deref_putCount (h : ℕ → ℕ) (hlink : head.Linked cur) :
    (zoom (putCount h) f cur head).deref cur = f (head.deref cur) := by
  induction cur generalizing f with
  | nil => rfl
  | cons idx cur ih =>
    rw [deref, zoom, ih hlink.owner, putCount_child h hlink]
    rfl

theorem deref_modify (hlink : head.Linked cur) : (head.modify f cur).deref cur = f (head.deref cur) := by
  induction cur generalizing f with
  | nil => rfl
  | cons idx cur ih =>
    rw [deref, modify, zoom, ← modify, ih hlink.owner, child_setChild hlink]
    rfl

/-- Where the node stays, its owners only count. -/
theorem zoom_replaceChild (hlink : head.Linked cur) (hne : f (head.deref cur) ≠ null) :
    zoom replaceChild f cur head = zoom (putCount (· - 1)) f cur head := by
  induction cur generalizing f with
  | nil => rfl
  | cons idx cur ih =>
    have hput : replaceChild (head.deref cur) idx (f ((head.deref cur).child idx)) =
        putCount (· - 1) (head.deref cur) idx (f ((head.deref cur).child idx)) :=
      if_neg fun h => hne (isNull_iff.mp h)
    have hlevel : (head.deref cur).IsLevel := hlink
    have hne' : putCount (· - 1) (head.deref cur) idx (f ((head.deref cur).child idx)) ≠ null := by
      obtain ⟨value, count, indexMin, indexMax, ary, hderef⟩ := hlevel.eq_level
      rw [hderef]
      simp [putCount, setChild, mapCount]
    have hcongr : zoom replaceChild (fun node => replaceChild node idx (f (node.child idx))) cur head =
        zoom replaceChild (fun node => putCount (· - 1) node idx (f (node.child idx))) cur head := zoom_congr hput
    exact hcongr.trans (ih hlink.owner hne')

theorem dropChild_setChild (node : Node m V) (idx : Fin (m + 1)) (obj : Node m V) :
    (node.setChild idx obj).dropChild idx = node.dropChild idx := by
  cases node with
  | null => rfl
  | leaf value => rfl
  | level value count indexMin indexMax ary => simp only [setChild, dropChild, update_idem]

theorem replaceChild_setChild (hlevel : node.IsLevel) (idx : Fin (m + 1)) (obj obj' : Node m V) :
    replaceChild (node.setChild idx obj) idx obj' = replaceChild node idx obj' := by
  rw [replaceChild, replaceChild, dropChild_setChild]
  cases node with
  | null => exact absurd hlevel id
  | leaf value => exact absurd hlevel id
  | level value count indexMin indexMax ary => simp only [putCount, setChild, update_idem]

/-- A node changed and then removed is removed. -/
theorem zoom_replaceChild_modify (hlink : head.Linked cur) :
    zoom replaceChild g cur (head.modify f cur) = zoom replaceChild (g ∘ f) cur head := by
  induction cur generalizing f g with
  | nil => rfl
  | cons idx cur ih =>
    rw [zoom, modify, zoom, ← modify, ih hlink.owner]
    refine zoom_congr ?_
    show replaceChild ((head.deref cur).setChild idx _) idx (g (((head.deref cur).setChild idx _).child idx)) = _
    rw [replaceChild_setChild hlink, child_setChild hlink]
    rfl

/-! ### The loop -/

/-- The ends of the levels, as in a tree in order; a node may be left without a value. -/
def Ranged : Node m V → Prop
  | level _ _ indexMin indexMax ary =>
    (∀ i, ary i ≠ null → indexMin ≤ i ∧ i ≤ indexMax) ∧ ary indexMin ≠ null ∧ ary indexMax ≠ null ∧
      ∀ i, (ary i).Ranged
  | _ => True

theorem Shaped.ranged (h : node.Shaped) : node.Ranged := by
  induction node with
  | null => trivial
  | leaf value => trivial
  | level value count indexMin indexMax ary ih => exact ⟨h.1, h.2.1, h.2.2.1, fun i => ih i (h.2.2.2 i)⟩

theorem Ranged.deref (h : head.Ranged) (cur : NodePtr m) : (head.deref cur).Ranged := by
  induction cur with
  | nil => exact h
  | cons idx cur ih =>
    rw [Node.deref]
    cases hderef : head.deref cur with
    | null => trivial
    | leaf value => trivial
    | level value count indexMin indexMax ary =>
      rw [hderef] at ih
      exact ih.2.2.2 idx

theorem descend_setValue_ne_null {value : Option V} {key : List (Fin (m + 1))} (h : node ≠ null) :
    descend setChild (setValue value) key node ≠ null := by
  cases key with
  | nil => cases node <;> simp_all [descend, setValue]
  | cons idx key => cases node <;> simp_all [descend, setChild]

theorem ranged_descend_setValue (h : node.Ranged) (value : Option V) (key : List (Fin (m + 1))) :
    (descend setChild (setValue value) key node).Ranged := by
  induction key generalizing node with
  | nil => cases node <;> exact h
  | cons idx key ih =>
    cases node with
    | null => trivial
    | leaf value => trivial
    | level v count indexMin indexMax ary =>
      obtain ⟨hbound, hmin, hmax, hary⟩ := h
      have hup : ∀ i, ary i ≠ null →
          update ary idx (descend setChild (setValue value) key (ary idx)) i ≠ null := by
        intro i hi
        by_cases hidx : i = idx
        · subst hidx
          rw [update_self]
          exact descend_setValue_ne_null hi
        · rwa [update_of_ne hidx]
      refine ⟨fun i hi => hbound i ?_, hup _ hmin, hup _ hmax, fun i => ?_⟩
      · rintro hnull
        by_cases hidx : i = idx
        · subst hidx
          rw [update_self] at hi
          have hi : descend setChild (setValue value) key (ary i) ≠ null := hi
          rw [hnull] at hi
          cases key <;> exact hi rfl
        · rw [update_of_ne hidx] at hi
          exact hi hnull
      · by_cases hidx : i = idx
        · subst hidx
          rw [update_self]
          exact ih (hary i)
        · rw [update_of_ne hidx]
          exact hary i

/-- The loop removes the node, its owner with it where that is no longer needed. -/
theorem eraseLoop_fst (hlink : head.Linked cur) :
    (head.eraseLoop cur).1 = zoom replaceChild (fun _ => null) cur head := by
  induction cur with
  | nil => rfl
  | cons idx cur ih =>
    have hlevel : (head.deref cur).IsLevel := hlink
    have hdec : ∀ f : Node m V → Node m V, f (head.deref cur) = (head.deref cur).dropChild idx →
        f (head.deref cur) ≠ null →
        zoom (putCount (· - 1)) f cur head = zoom replaceChild (fun _ => null) (idx :: cur) head := by
      intro f hf hne
      rw [← zoom_replaceChild hlink.owner hne]
      exact zoom_congr hf
    rw [eraseLoop]
    obtain ⟨value, count, indexMin, indexMax, ary, hderef⟩ := hlevel.eq_level
    rw [hderef]
    rw [hderef] at hdec
    by_cases hends : indexMin ≠ indexMax
    · simp only [if_pos hends]
      have hdrop := hdec fun node => (if idx = indexMin then (node.setChild idx null).raiseIndexMin
        else if idx = indexMax then (node.setChild idx null).lowerIndexMax
        else node.setChild idx null).mapCount (· - 1)
      rw [← hdrop]
      · split
        · rw [decCount, addCount, modify_modify, modify_modify, addCount_modify]
          rfl
        · split
          · rw [decCount, addCount, modify_modify, modify_modify, addCount_modify]
            rfl
          · rw [decCount, addCount, modify_modify, addCount_modify]
            rfl
      · rw [dropChild, if_pos hends]
      · split_ifs <;> simp [setChild, raiseIndexMin, lowerIndexMax, mapCount]
    · simp only [if_neg hends]
      by_cases hvalue : value.isSome
      · simp only [if_pos hvalue]
        rw [decCount, addCount_modify]
        refine hdec resetNextLevel ?_ (by simp [resetNextLevel])
        rw [dropChild, if_neg hends, if_pos hvalue]
        rfl
      · simp only [if_neg hvalue]
        rw [ih hlink.owner]
        refine zoom_congr ?_
        show null = (head.deref cur).dropChild idx
        rw [hderef, dropChild, if_neg hends, if_neg hvalue]

/-- The keys beyond one of a level without keys behind it. -/
theorem isFirst_beyond_owner {tree : Node m V} {idx : Fin (m + 1)} {o : Option (NodePtr m)}
    (hnone : ∀ j k, idx < j → ((tree.deref cur).lookup (j :: k)).isSome = false)
    (h : IsFirst PtrLt (fun q => tree.Stored q ∧ Beyond cur.reverse q.reverse) o) :
    IsFirst PtrLt (fun q => tree.Stored q ∧ Beyond (idx :: cur).reverse q.reverse) o := by
  refine h.congr fun q => and_congr_right fun hq => ?_
  rw [reverse_cons, beyond_concat]
  constructor
  · exact .inr
  · rintro (⟨j, k, hj, hqj⟩ | hb)
    · rw [Stored, hqj, lookup_append, ← deref_eq_sub, hnone j k hj] at hq
      cases hq
    · exact hb

/-- The first key of a level, none of whose keys is at or before `idx`, is the first one
beyond `idx`. -/
theorem isFirst_lvFirst {tree : Node m V} {idx : Fin (m + 1)} (hshape : (tree.deref cur).Shaped)
    (hlevel : (tree.deref cur).IsLevel) (hfirst : ∀ j k, ((tree.deref cur).lookup (j :: k)).isSome → idx < j) :
    IsFirst PtrLt (fun q => tree.Stored q ∧ Beyond (idx :: cur).reverse q.reverse)
      (some ((tree.deref cur).lvFirst cur)) := by
  obtain ⟨value, count, indexMin, indexMax, ary, hderef⟩ := hlevel.eq_level
  rw [hderef]
  rw [hderef] at hshape hfirst
  obtain ⟨i, key, hlv, hkey, hleast⟩ := lvFirst_spec hshape cur
  have hrev : ((i :: key).reverse ++ cur).reverse = cur.reverse ++ i :: key := by
    rw [reverse_append, reverse_reverse]
  rw [lvFirst, hlv]
  have hstored : tree.Stored ((i :: key).reverse ++ cur) := by
    rw [Stored, hrev, stored_of_level hderef]
    exact hkey
  refine ⟨⟨hstored, ?_⟩, ?_⟩
  · rw [reverse_cons, beyond_concat, hrev]
    exact .inl ⟨i, key, hfirst i key hkey, rfl⟩
  · rintro q ⟨hq, hb⟩ hne
    rw [PtrLt, hrev]
    rw [reverse_cons, beyond_concat] at hb
    obtain ⟨j, k, -, hqj⟩ | hb := hb
    · rw [Stored, hqj, stored_of_level hderef] at hq
      rw [hqj, append_lt_append_iff]
      refine lt_of_le_of_ne (hleast j k hq) fun heq => hne ?_
      rw [← reverse_inj, hqj, hrev, heq]
    · exact hb.append_lt _

theorem child_dropChild (node : Node m V) (idx : Fin (m + 1)) : (node.dropChild idx).child idx = null := by
  cases node with
  | null => rfl
  | leaf value => rfl
  | level value count indexMin indexMax ary =>
    rw [dropChild]
    split_ifs <;> simp [setChild, raiseIndexMin, lowerIndexMax, mapCount, child]

/-- Nothing is left of a removed node. -/
theorem sub_descend_null (key : List (Fin (m + 1))) (node : Node m V) :
    (descend replaceChild (fun _ => null) key node).sub key = null := by
  induction key generalizing node with
  | nil => rfl
  | cons idx key ih =>
    rw [descend, sub_cons, replaceChild]
    split
    · rw [child_dropChild, sub_null]
    · cases node with
      | null => exact sub_null key
      | leaf value => exact sub_null key
      | level value count indexMin indexMax ary =>
        have hlevel : (level value count indexMin indexMax ary).IsLevel := trivial
        rw [putCount_child _ hlevel]
        exact ih (ary idx)

/-- The level in which a node has been changed, after the counting. -/
theorem deref_decCount (hlink : head.Linked cur) (idx : Fin (m + 1)) :
    ((head.modify f cur).decCount (idx :: cur)).deref cur = (f (head.deref cur)).mapCount (· - 1) := by
  rw [decCount, addCount, modify_modify, addCount_modify, deref_putCount _ hlink]
  rfl

/-- The iterator of the loop is the first key beyond the node. -/
theorem eraseLoop_snd (hrange : head.Ranged) (hcur : head.deref cur ≠ null) (hshape : (head.eraseLoop cur).1.Shaped) :
    IsFirst PtrLt (fun q => (head.eraseLoop cur).1.Stored q ∧ Beyond cur.reverse q.reverse) (head.eraseLoop cur).2 := by
  induction cur with
  | nil => exact fun q hq => hq.2
  | cons idx cur ih =>
    have hlevel : (head.deref cur).IsLevel := isLevel_of_child hcur
    have hlink : head.Linked cur := linked_of_ne_null hlevel.ne_null
    have hcurRange := hrange.deref cur
    rw [eraseLoop] at hshape ⊢
    obtain ⟨value, count, indexMin, indexMax, ary, hderef⟩ := hlevel.eq_level
    rw [hderef]
    rw [hderef] at hcurRange
    simp only [hderef] at hshape ⊢
    obtain ⟨hbound, hmin, hmax, -⟩ := hcurRange
    have hidx : ary idx ≠ null := by
      rw [deref, hderef] at hcur
      exact hcur
    have hdrop : ∀ j (k : List (Fin (m + 1))), ((update ary idx null j).lookup k).isSome →
        update ary idx null j ≠ null := fun j k hk => ne_null_of_lookup hk
    by_cases hends : indexMin ≠ indexMax
    · simp only [if_pos hends] at hshape ⊢
      have hlt : indexMin < indexMax := lt_of_le_of_ne (hbound indexMax hmax).1 hends
      have hlt' : indexMin.val < indexMax.val := hlt
      by_cases hisMin : idx = indexMin
      · subst hisMin
        simp only [if_true] at hshape ⊢
        rw [modify_modify] at hshape ⊢
        have hR := deref_decCount (f := raiseIndexMin ∘ fun node => node.setChild idx null) hlink idx
        have hRshape := hshape.deref cur
        rw [hR, hderef] at hRshape
        rw [← lvFirst_addCount (· - 1) _ cur (idx :: cur)]
        refine isFirst_lvFirst (hshape.deref cur) ?_ fun j k hk => ?_
        · rw [hR, hderef]
          trivial
        · rw [hR, hderef] at hk
          have hmax' : update ary idx null indexMax ≠ null := by
            rwa [update_of_ne (Ne.symm hends)]
          have hraise := raiseMin_spec (indexMax - idx : ℕ) idx (by omega) hlt hmax'
          exact hraise.1.trans_le (hRshape.1 j (hdrop j k hk)).1
      · simp only [if_neg hisMin] at hshape ⊢
        by_cases hisMax : idx = indexMax
        · subst hisMax
          simp only [if_true] at hshape ⊢
          rw [modify_modify] at hshape ⊢
          have hR := deref_decCount (f := lowerIndexMax ∘ fun node => node.setChild idx null) hlink idx
          have hRshape := hshape.deref cur
          rw [hR, hderef] at hRshape
          rw [← ownerNext_addCount (· - 1) _ cur (idx :: cur)]
          refine isFirst_beyond_owner (fun j k hj => ?_) (ownerNext_spec hshape ?_)
          · rw [hR, hderef, Bool.eq_false_iff]
            intro hk
            have hmin' : update ary idx null indexMin ≠ null := by
              rwa [update_of_ne hends]
            have hlower := lowerMax_spec (idx - indexMin : ℕ) idx (by omega) hlt hmin'
            exact absurd (hj.trans_le ((hRshape.1 j (hdrop j k hk)).2.trans hlower.1.le)) (lt_irrefl _)
          · refine linked_of_ne_null ?_
            rw [hR, hderef]
            simp [setChild, lowerIndexMax, mapCount]
        · simp only [if_neg hisMax] at hshape ⊢
          have hR := deref_decCount (f := fun node => node.setChild idx null) hlink idx
          rw [← ownerNext_addCount (· - 1) _ (idx :: cur) (idx :: cur)]
          refine ownerNext_spec hshape ?_
          show (((head.modify (fun node => node.setChild idx null) cur).decCount (idx :: cur)).deref cur).IsLevel
          rw [hR, hderef]
          trivial
    · simp only [if_neg hends] at hshape ⊢
      by_cases hvalue : value.isSome
      · simp only [if_pos hvalue] at hshape ⊢
        have hR : (((head.modify resetNextLevel cur).decCount cur).deref cur) = leaf value := by
          rw [decCount, addCount_modify, deref_putCount _ hlink, hderef]
          rfl
        refine isFirst_beyond_owner (fun j k hj => ?_) (ownerNext_spec hshape ?_)
        · rw [hR]
          exact congrArg Option.isSome (lookup_null k)
        · refine linked_of_ne_null ?_
          rw [hR]
          simp
      · simp only [if_neg hvalue] at hshape ⊢
        refine isFirst_beyond_owner (fun j k hj => ?_) (ih hlevel.ne_null hshape)
        rw [eraseLoop_fst hlink, zoom_eq_descend, deref_eq_sub, sub_descend_null, lookup_null]
        rfl

end Fon9.Trie.Node
