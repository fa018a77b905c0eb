import Fon9.Lib.SortedInsert

/-! `SortedVector`: a vector in the order of its keys. Iterators are places, and a read beside the
elements fails. -/

namespace Fon9.SortedVector

open Lib List Int Option

/-- What `Compare` has to be: a strict weak order. -/
structure Compare (α : Type) where
  cmp : α → α → Bool
  irrefl : ∀ a, cmp a a = false
  trans : ∀ a b c, cmp a b = true → cmp b c = true → cmp a c = true
  split : ∀ a b c, cmp a c = true → cmp a b = true ∨ cmp b c = true

variable {α : Type}

/-- `*i`. -/
def read (container : List α) (i : ℤ) : Option α := if 0 ≤ i then container[i.toNat]? else none

variable (cmp : Compare α) (container : List α) (v : α)

/-- `lower_i`. -/
def lowerI (first last : ℤ) : Option ℤ :=
  lowerBound (read container) (fun x => cmp.cmp x v) (last - first).toNat first

/-- `find_i`: where the key is or belongs, and whether it is there. -/
def findI (first last : ℤ) : Option (ℤ × Bool) := do
  let res ← lowerI cmp container v first last
  if res = last then return (res, false)
  let x ← read container res
  return (res, !cmp.cmp v x)

/-- `Container_.insert`. -/
def containerInsert (i : ℤ) : List α × ℤ := (container.insertIdx i.toNat v, i)

/-- `insert` of a value: the elements, the place and whether the value is new. -/
def insert : Option (List α × ℤ × Bool) := do
  let r ← findI cmp container v 0 container.length
  if r.2 then return (container, r.1, false)
  let r := containerInsert container v r.1
  return (r.1, r.2, true)

/-- The search at the end of `insert` with a hint. -/
def insertBetween (ibeg iend : ℤ) : Option (List α × ℤ) := do
  let r ← findI cmp container v ibeg iend
  if r.2 then return (container, r.1)
  return containerInsert container v r.1

/-- `insert` with a hint. -/
def insertHint (ihint : ℤ) : Option (List α × ℤ) := do
  let iend : ℤ := container.length
  let ibeg : ℤ := 0
  if ihint = iend then
    if iend = ibeg then return (container ++ [v], iend)
    let last ← read container (ihint - 1)
    if cmp.cmp last v then return (container ++ [v], iend)
    insertBetween cmp container v ibeg iend
  else
    let x ← read container ihint
    if cmp.cmp v x then
      if ihint = ibeg then return containerInsert container v ihint
      let y ← read container (ihint - 1)
      if cmp.cmp y v then return containerInsert container v ihint
      insertBetween cmp container v ibeg ihint
    else if ibeg ≠ ihint then insertBetween cmp container v (ibeg - 1) iend
    else insertBetween cmp container v ibeg iend

/-- `find`. -/
def find : Option ℤ := do
  let r ← findI cmp container v 0 container.length
  return if r.2 then r.1 else container.length

/-- `kfetch`, with the element that is made of the key. -/
def kfetch : Option (List α) := do
  let ifind ← find cmp container v
  if ifind ≠ container.length then return container
  let r ← insert cmp container v
  return r.1

/-- `erase` of a range. -/
def erase (first last : ℕ) : List α := container.take first ++ container.drop last

/-- `remove_if`. -/
def removeIf (first last : ℕ) (pred : α → Bool) : List α :=
  if first ≥ last then container
  else container.take first ++ ((container.take last).drop first).filter (fun x => !pred x) ++ container.drop last

/-! ### Where a value belongs -/

variable {cmp container v}

/-- The keys are strictly increasing. -/
def Sorted (cmp : Compare α) (container : List α) : Prop := container.Pairwise fun x y => cmp.cmp x y = true

/-- How many elements come before a value. -/
def place (cmp : Compare α) (container : List α) (v : α) : ℕ := (container.takeWhile fun x => cmp.cmp x v).length

theorem place_le (cmp : Compare α) (container : List α) (v : α) : place cmp container v ≤ container.length :=
  (List.takeWhile_prefix _).length_le

/-- The elements before the place are those that come before the value. -/
theorem below_iff (h : Sorted cmp container) {i : ℕ} (hi : i < container.length) :
    cmp.cmp container[i] v = true ↔ i < place cmp container v := by
  induction container generalizing i with
  | nil => exact absurd hi (Nat.not_lt_zero i)
  | cons x xs ih =>
    obtain ⟨hx, hxs⟩ := pairwise_cons.mp h
    rw [place, takeWhile_cons]
    by_cases hlt : cmp.cmp x v = true
    · rw [if_pos hlt, length_cons]
      cases i with
      | zero => exact iff_of_true hlt (Nat.succ_pos _)
      | succ i =>
        rw [getElem_cons_succ, Nat.succ_lt_succ_iff]
        exact ih hxs (Nat.lt_of_succ_lt_succ hi)
    · rw [if_neg hlt, length_nil]
      refine iff_of_false (fun hbelow => ?_) (Nat.not_lt_zero i)
      cases i with
      | zero => exact hlt hbelow
      | succ i => exact hlt (cmp.trans _ _ _ (hx _ (getElem_mem _)) hbelow)

theorem read_eq {i : ℕ} (hi : i < container.length) : read container i = some container[i] := by
  rw [read, if_pos (natCast_nonneg i), toNat_natCast, getElem?_eq_getElem hi]

/-- Whether the key is there already. -/
def isThere (cmp : Compare α) (container : List α) (v : α) : Bool :=
  match container[place cmp container v]? with
  | some x => !cmp.cmp v x
  | none => false

/-- Every search that has the place of the value among its places finds it, and whether it is there. -/
theorem findI_eq (h : Sorted cmp container) {first : ℤ} {last : ℕ} (hfirst : 0 ≤ first ∨ first = -1 ∧ 1 ≤ place cmp container v)
    (hle : first ≤ place cmp container v) (hge : place cmp container v ≤ last) (hlast : last ≤ container.length)
    (hend : place cmp container v < last ∨ last = container.length) :
    findI cmp container v first last = some ((place cmp container v : ℤ), isThere cmp container v) := by
  have hlower : lowerI cmp container v first last = some (place cmp container v : ℤ) := by
    refine lowerBound_eq _ first hle (by omega) (by omega) fun i h0 hi => ?_
    obtain ⟨i, rfl⟩ := eq_ofNat_of_zero_le h0
    have hi' : i < container.length := by omega
    refine ⟨container[i], read_eq hi', ?_⟩
    rw [below_iff h hi']
    exact ofNat_lt.symm
  rw [findI, hlower, isThere]
  by_cases hat : place cmp container v = last
  · have hnone : container[place cmp container v]? = none := getElem?_eq_none (by omega)
    rw [hnone]
    exact if_pos (congrArg Nat.cast hat)
  · have hlt : place cmp container v < container.length := by omega
    rw [getElem?_eq_getElem hlt]
    have hne : ¬ (place cmp container v : ℤ) = last := fun h => hat (ofNat_inj.mp h)
    show (if (place cmp container v : ℤ) = last then _ else _) = _
    rw [if_neg hne, read_eq hlt]
    rfl

/-- What becomes of a vector that a value is put into. -/
def put (cmp : Compare α) (container : List α) (v : α) : List α :=
  if isThere cmp container v then container else container.insertIdx (place cmp container v) v

theorem insert_eq (h : Sorted cmp container) (v : α) :
    insert cmp container v = some (put cmp container v, (place cmp container v : ℤ), !isThere cmp container v) := by
  have hfind := findI_eq h (.inl le_rfl) (natCast_nonneg _) (place_le cmp container v) (le_refl _) (.inr rfl)
  rw [insert, put]
  cases hthere : isThere cmp container v with
  | true =>
    rw [hthere] at hfind
    rw [hfind]
    rfl
  | false =>
    rw [hthere] at hfind
    rw [hfind]
    rfl

theorem insertBetween_eq (h : Sorted cmp container) {ibeg : ℤ} {iend : ℕ} (hbeg : 0 ≤ ibeg ∨ ibeg = -1 ∧ 1 ≤ place cmp container v)
    (hle : ibeg ≤ place cmp container v) (hge : place cmp container v ≤ iend) (hiend : iend ≤ container.length)
    (hend : place cmp container v < iend ∨ iend = container.length) :
    insertBetween cmp container v ibeg iend = some (put cmp container v, (place cmp container v : ℤ)) := by
  have hfind := findI_eq h hbeg hle hge hiend hend
  rw [insertBetween, put]
  cases hthere : isThere cmp container v with
  | true =>
    rw [hthere] at hfind
    rw [hfind]
    rfl
  | false =>
    rw [hthere] at hfind
    rw [hfind]
    rfl

theorem not_cmp_of_cmp {x : α} (h : cmp.cmp v x = true) : ¬ cmp.cmp x v = true := by
  intro h'
  have hself := cmp.trans _ _ _ h h'
  rw [cmp.irrefl] at hself
  cases hself

/-- A value between its neighbours is put there. -/
theorem put_at (h : Sorted cmp container) {i : ℕ} (hi : i ≤ container.length)
    (hbefore : 0 < i → ∀ hlt : i - 1 < container.length, cmp.cmp container[i - 1] v = true)
    (hbehind : ∀ hlt : i < container.length, cmp.cmp v container[i] = true) :
    place cmp container v = i ∧ put cmp container v = container.insertIdx i v := by
  have hplace : place cmp container v = i := by
    have hle := place_le cmp container v
    refine le_antisymm ?_ ?_
    · by_contra hlt
      have hlt' : i < container.length := by omega
      exact not_cmp_of_cmp (hbehind hlt') ((below_iff h hlt').mpr (by omega))
    · by_cases hpos : 0 < i
      · have := (below_iff h (by omega)).mp (hbefore hpos (by omega))
        omega
      · omega
  have hthere : isThere cmp container v = false := by
    rw [isThere, hplace]
    by_cases hlt : i < container.length
    · rw [getElem?_eq_getElem hlt]
      show (!cmp.cmp v container[i]) = false
      rw [hbehind hlt]
      rfl
    · rw [getElem?_eq_none (Nat.le_of_not_lt hlt)]
  refine ⟨hplace, ?_⟩
  rw [put, hthere, hplace]
  rfl

/-- With any hint the value is put where it belongs, and no place beside the elements is read. -/
theorem insertHint_eq (h : Sorted cmp container) (v : α) {ihint : ℕ} (hhint : ihint ≤ container.length) :
    insertHint cmp container v ihint = some (put cmp container v, (place cmp container v : ℤ)) := by
  have hplace := place_le cmp container v
  have hall : insertBetween cmp container v 0 container.length = some (put cmp container v, (place cmp container v : ℤ)) :=
    insertBetween_eq h (.inl le_rfl) (natCast_nonneg _) hplace (le_refl _) (.inr rfl)
  by_cases hend : ihint = container.length
  · subst hend
    have hsplit : insertHint cmp container v container.length =
        if (container.length : ℤ) = 0 then some (container ++ [v], (container.length : ℤ))
        else (read container (container.length - 1)).bind fun last =>
          if cmp.cmp last v then some (container ++ [v], (container.length : ℤ))
          else insertBetween cmp container v 0 container.length := if_pos rfl
    have hback : place cmp container v = container.length ∧ put cmp container v = container.insertIdx container.length v →
        some (container ++ [v], (container.length : ℤ)) = some (put cmp container v, (place cmp container v : ℤ)) := by
      rintro ⟨hat, hput⟩
      rw [hat, hput, insertIdx_length_self]
    rw [hsplit]
    by_cases hempty : (container.length : ℤ) = 0
    · rw [if_pos hempty]
      exact hback (put_at h (le_refl _) (fun hpos => by omega) (fun hlt => absurd hlt (lt_irrefl _)))
    · have hlast : (container.length : ℤ) - 1 = (container.length - 1 : ℕ) := by omega
      rw [if_neg hempty, hlast, read_eq (by omega), bind_some]
      split
      · next hbefore => exact hback (put_at h (le_refl _) (fun _ _ => hbefore) (fun hlt => absurd hlt (lt_irrefl _)))
      · exact hall
  · have hlt : ihint < container.length := Nat.lt_of_le_of_ne hhint hend
    have hsplit : insertHint cmp container v ihint = (read container ihint).bind fun x =>
        if cmp.cmp v x then
          if (ihint : ℤ) = 0 then some (containerInsert container v ihint)
          else (read container (ihint - 1)).bind fun y =>
            if cmp.cmp y v then some (containerInsert container v ihint) else insertBetween cmp container v 0 ihint
        else if (0 : ℤ) ≠ ihint then insertBetween cmp container v (0 - 1) container.length
        else insertBetween cmp container v 0 container.length := if_neg (fun heq => hend (ofNat_inj.mp heq))
    have hhere : place cmp container v = ihint ∧ put cmp container v = container.insertIdx ihint v →
        some (containerInsert container v ihint) = some (put cmp container v, (place cmp container v : ℤ)) := by
      rintro ⟨hat, hput⟩
      rw [hat, hput, containerInsert, toNat_natCast]
    rw [hsplit, read_eq hlt, bind_some]
    split
    · next hbehind =>
      by_cases hfirst : (ihint : ℤ) = 0
      · rw [if_pos hfirst]
        exact hhere (put_at h hhint (fun hpos => by omega) (fun _ => hbehind))
      · have hbefore : (ihint : ℤ) - 1 = (ihint - 1 : ℕ) := by omega
        have hlt' : ihint - 1 < container.length := by omega
        rw [if_neg hfirst, hbefore, read_eq hlt', bind_some]
        split
        · next hbelow => exact hhere (put_at h hhint (fun _ _ => hbelow) (fun _ => hbehind))
        · next habove =>
          -- the place is before the hint
          rw [below_iff h hlt'] at habove
          exact insertBetween_eq h (.inl le_rfl) (natCast_nonneg _) (by omega) hhint (.inl (by omega))
    · next hbehind =>
      split
      · next hfirst =>
        -- `--ibeg` leaves the elements, but the first of them comes before the value
        have hsplit := cmp.split container[0] v container[ihint]
        have hone : 1 ≤ place cmp container v := by
          have hless : cmp.cmp container[0] container[ihint] = true :=
            pairwise_iff_getElem.mp h 0 ihint (by omega) hlt (by omega)
          obtain hbelow | hbelow := hsplit hless
          · exact (below_iff h (by omega)).mp hbelow
          · exact absurd hbelow hbehind
        exact insertBetween_eq h (.inr ⟨rfl, hone⟩) (by omega) hplace (le_refl _) (.inr rfl)
      · exact hall

end Fon9.SortedVector
