import Fon9.LevelArray.Level

/-! A `LevelArray` as a map. Elements once made stay where they are, and the elements of
distinct keys are distinct. -/

namespace Fon9.LevelArray

open Lib LevelRec BigEndian BigEndian

variable {kDeepStart n : ℕ}

/-! ### Keys and their bytes -/

variable (key : Key kDeepStart n)

theorem value_deepKeys : (deepKeys key).value = key % 256 ^ (n + 1) := by
  show value ((putBigEndian key).drop kDeepStart) = _
  rw [putBigEndian, drop_bytes, value_bytes_mod]

theorem val_withDeepKeys (keys : Keys n) :
    (withDeepKeys key keys : ℕ) = key / 256 ^ (n + 1) * 256 ^ (n + 1) + keys.value := by
  have htop : value ((putBigEndian key).take kDeepStart) * 256 ^ (n + 1) + key % 256 ^ (n + 1) = key := by
    have h := value_append ((putBigEndian key).take kDeepStart) (deepKeys key).toList
    have happ : (putBigEndian key).take kDeepStart ++ (deepKeys key).toList = putBigEndian key :=
      List.take_append_drop _ _
    have hdeep : value (deepKeys key).toList = key % 256 ^ (n + 1) := value_deepKeys key
    rw [happ, hdeep, List.Vector.toList_length, putBigEndian, value_bytes key.2] at h
    exact h.symm
  have hdiv := Nat.div_add_mod' (key : ℕ) (256 ^ (n + 1))
  show value ((putBigEndian key).take kDeepStart ++ keys.toList) = _
  rw [value_append, List.Vector.toList_length, Keys.value]
  omega

/-- `CheckKeyDeep` asks for a key that fits in `DeepN` bytes. -/
theorem checkKeyDeep_iff :
    checkKeyDeep kDeepStart (putBigEndian key) = true ↔ key.val < 256 ^ (n + 1) := by
  have hgen : ∀ d k : ℕ, k < 256 ^ (d + (n + 1)) →
      (checkKeyDeep d (bytes (d + (n + 1)) k) = true ↔ k < 256 ^ (n + 1)) := by
    intro d
    induction d with
    | zero =>
      intro k hk
      rw [zero_add] at hk
      exact ⟨fun _ => hk, fun _ => rfl⟩
    | succ d ih =>
      intro k hk
      rw [add_right_comm, pow_succ] at hk
      have hle : 256 ^ (n + 1) ≤ 256 ^ (d + (n + 1)) := Nat.pow_le_pow_right (by decide) (Nat.le_add_left _ _)
      have hpos : 0 < 256 ^ (d + (n + 1)) := Nat.pow_pos (by decide)
      have hdiv : k / 256 ^ (d + (n + 1)) < 256 := Nat.div_lt_of_lt_mul hk
      have hzero : (UInt8.ofNat (k / 256 ^ (d + (n + 1)) % 256) == 0) = true ↔ k < 256 ^ (d + (n + 1)) := by
        rw [beq_iff_eq, ← UInt8.toNat_inj, UInt8.toNat_ofNat', Nat.mod_eq_of_lt hdiv, Nat.mod_eq_of_lt hdiv]
        exact Nat.div_eq_zero_iff_lt hpos
      rw [add_right_comm, bytes_succ, checkKeyDeep, Bool.and_eq_true, hzero]
      constructor
      · rintro ⟨hlt, h⟩
        exact (ih k hlt).mp h
      · intro h
        exact ⟨lt_of_lt_of_le h hle, (ih k (lt_of_lt_of_le h hle)).mpr h⟩
  exact hgen kDeepStart key key.2

theorem value_deepKeys_of_lt {key : Key kDeepStart n} (h : key.val < 256 ^ (n + 1)) :
    (deepKeys key).value = key := by
  rw [value_deepKeys, Nat.mod_eq_of_lt h]

theorem block_deepKeys {key : Key kDeepStart n} (h : key.val < 256 ^ (n + 1)) :
    (deepKeys key).block = key / 256 := by
  rw [Keys.block, value_deepKeys_of_lt h]

/-! ### The invariant -/

variable {a : LevelArray kDeepStart n} {key key' : Key kDeepStart n} {e : Elem}

theorem get_eq_some : a.get key = some e ↔
    key.val < 256 ^ (n + 1) ∧ a.head.blockAt (deepKeys key) = some e.1 ∧ (deepKeys key).place = e.2 := by
  obtain ⟨block, place⟩ := e
  rw [LevelArray.get, ← checkKeyDeep_iff key]
  by_cases hdeep : checkKeyDeep kDeepStart (putBigEndian key) = true
  · rw [if_pos hdeep, LevelRec.get_eq]
    simp only [hdeep, true_and, Option.map_eq_some_iff, Prod.mk.injEq]
    constructor
    · rintro ⟨b, hb, rfl, hplace⟩
      exact ⟨hb, hplace⟩
    · rintro ⟨hb, hplace⟩
      exact ⟨block, hb, rfl, hplace⟩
  · rw [if_neg hdeep]
    exact ⟨(fun h => nomatch h), fun h => (hdeep h.1).elim⟩

/-- The `ValueBlock`s of distinct blocks of keys are distinct ones of those made. -/
structure Wf (a : LevelArray kDeepStart n) : Prop where
  made : ∀ keys b, a.head.blockAt keys = some b → b < a.news
  apart : ∀ keys keys' b, a.head.blockAt keys = some b → a.head.blockAt keys' = some b → keys.block = keys'.block

theorem blockAt_null (keys : Keys n) : (LevelRec.null : LevelRec n).blockAt keys = none := by cases n <;> rfl

theorem Wf.new : ({} : LevelArray kDeepStart n).Wf := by
  constructor
  · intro keys b h
    rw [blockAt_null] at h
    exact nomatch h
  · intro keys keys' b h
    rw [blockAt_null] at h
    exact nomatch h

theorem Wf.key_inj (ha : a.Wf) (h : a.get key = some e) (h' : a.get key' = some e) : key = key' := by
  obtain ⟨hlt, hblock, hplace⟩ := get_eq_some.mp h
  obtain ⟨hlt', hblock', hplace'⟩ := get_eq_some.mp h'
  have heq := Keys.eq_of_block_of_place (ha.apart _ _ _ hblock hblock') (hplace.trans hplace'.symm)
  refine Fin.ext ?_
  rw [← value_deepKeys_of_lt hlt, ← value_deepKeys_of_lt hlt', heq]

theorem blockAt_fetch (a : LevelArray kDeepStart n) (key : Key kDeepStart n) (keys : Keys n) :
    (a.fetch key).2.head.blockAt keys =
      if keys.block = (deepKeys key).block then some ((a.head.blockAt (deepKeys key)).getD a.news)
      else a.head.blockAt keys :=
  LevelRec.blockAt_fetch a.head (deepKeys key) keys a.news

theorem news_fetch (a : LevelArray kDeepStart n) (key : Key kDeepStart n) :
    (a.fetch key).2.news = if (a.head.blockAt (deepKeys key)).isSome then a.news else a.news + 1 :=
  fetch_news a.head (deepKeys key) a.news

/-- Elements stay where they are. -/
theorem get_fetch_of_get (h : a.get key = some e) : (a.fetch key').2.get key = some e := by
  obtain ⟨hlt, hblock, hplace⟩ := get_eq_some.mp h
  refine get_eq_some.mpr ⟨hlt, ?_, hplace⟩
  rw [blockAt_fetch]
  by_cases heq : (deepKeys key).block = (deepKeys key').block
  · rw [if_pos heq, ← blockAt_congr a.head heq, hblock]
    rfl
  · rw [if_neg heq, hblock]

/-- `Get` finds what `Fetch` returned. -/
theorem get_fetch (h : key.val < 256 ^ (n + 1)) : (a.fetch key).2.get key = some (a.fetch key).1 := by
  have helem := fetch_elem a.head (deepKeys key) a.news
  refine get_eq_some.mpr ⟨h, ?_, ?_⟩
  · rw [blockAt_fetch, if_pos rfl]
    exact congrArg (fun e : Elem => some e.1) helem.symm
  · exact congrArg Prod.snd helem.symm

/-- The `ValueBlock` behind `Fetch` is one made before, or the next one. -/
theorem getD_lt (ha : a.Wf) : (a.head.blockAt (deepKeys key)).getD a.news < (a.fetch key).2.news := by
  rw [news_fetch]
  cases hblock : a.head.blockAt (deepKeys key) with
  | none => exact Nat.lt_succ_self _
  | some b => exact ha.made _ b hblock

theorem Wf.fetch (ha : a.Wf) : (a.fetch key).2.Wf := by
  have hnews : a.news ≤ (a.fetch key).2.news := by
    rw [news_fetch]
    cases (a.head.blockAt (deepKeys key)).isSome
    · exact Nat.le_succ _
    · exact le_refl _
  -- a block other than that of `key` does not lead to its `ValueBlock`
  have hother : ∀ keys b, keys.block ≠ (deepKeys key).block → a.head.blockAt keys = some b →
      b ≠ (a.head.blockAt (deepKeys key)).getD a.news := by
    intro keys b hne hkeys
    cases hblock : a.head.blockAt (deepKeys key) with
    | none => exact ne_of_lt (ha.made keys b hkeys)
    | some b' =>
      rintro rfl
      exact hne (ha.apart _ _ _ hkeys hblock)
  constructor
  · intro keys b h
    rw [blockAt_fetch] at h
    by_cases hkeys : keys.block = (deepKeys key).block
    · rw [if_pos hkeys] at h
      obtain rfl := Option.some.inj h
      exact getD_lt ha
    · rw [if_neg hkeys] at h
      exact lt_of_lt_of_le (ha.made keys b h) hnews
  · intro keys keys' b h h'
    rw [blockAt_fetch] at h h'
    by_cases hkeys : keys.block = (deepKeys key).block
    · rw [if_pos hkeys] at h
      by_cases hkeys' : keys'.block = (deepKeys key).block
      · rw [hkeys, hkeys']
      · rw [if_neg hkeys'] at h'
        exact (hother keys' b hkeys' h' (Option.some.inj h).symm).elim
    · rw [if_neg hkeys] at h
      by_cases hkeys' : keys'.block = (deepKeys key).block
      · rw [if_pos hkeys'] at h'
        exact (hother keys b hkeys h (Option.some.inj h').symm).elim
      · rw [if_neg hkeys'] at h'
        exact ha.apart keys keys' b h h'

end Fon9.LevelArray
