import Fon9.LevelArray.Map

/-! Runs of `Fetch` and `Get`, and the enumeration behind them. `++key` wraps behind the
last key: where the last block is allocated, the enumeration does not end. -/

namespace Fon9.LevelArray

open Lib LevelRec List Option

variable {kDeepStart n : ℕ}

/-! ### The order of the keys -/

/-- The key with these bytes from `kDeepStart` on and no others. -/
def keyOf (keys : Keys n) : Key kDeepStart n := withDeepKeys .zero keys

theorem val_keyOf (keys : Keys n) : (keyOf keys : Key kDeepStart n).val = keys.value := by
  rw [keyOf, val_withDeepKeys]
  show 0 / _ * _ + keys.value = _
  rw [Nat.zero_div, zero_mul, zero_add]

theorem deepKeys_keyOf (keys : Keys n) : deepKeys (keyOf keys : Key kDeepStart n) = keys := by
  have hval : (keyOf keys : Key kDeepStart n).val = keys.value := val_keyOf keys
  have hlt := keys.value_lt
  rw [← hval] at hlt
  refine Keys.value_inj ?_
  rw [value_deepKeys_of_lt hlt, hval]

variable {a : LevelArray kDeepStart n}

theorem get_iff_has {key : Key kDeepStart n} {e : Elem} :
    a.get key = some e ↔ key.val < 256 ^ (n + 1) ∧ Has a.head (e, deepKeys key) := by
  rw [get_eq_some, Has, LevelRec.get_eq, map_eq_some_iff]
  refine and_congr_right fun _ => ?_
  constructor
  · rintro ⟨hblock, hplace⟩
    exact ⟨e.1, hblock, Prod.ext rfl hplace⟩
  · rintro ⟨b, hb, heq⟩
    exact ⟨hb.trans (congrArg (fun e : Elem => some e.1) heq), congrArg Prod.snd heq⟩

/-- What is first by its bytes is first by its key. -/
theorem isFirst_keyOf {bound : ℕ} {o : Option (Elem × Keys n)}
    (h : IsFirst KeyLe (fun p => Has a.head p ∧ bound ≤ p.2.value) o) :
    IsFirst (fun p q => p.1 < q.1) (fun q => a.get q.1 = some q.2 ∧ bound ≤ q.1.val)
      (o.map fun r => ((keyOf r.2 : Key kDeepStart n), r.1)) := by
  have hof : ∀ q : Key kDeepStart n × Elem, a.get q.1 = some q.2 ∧ bound ≤ q.1.val →
      Has a.head (q.2, deepKeys q.1) ∧ bound ≤ (deepKeys q.1).value := by
    rintro q ⟨hget, hbound⟩
    obtain ⟨hlt, hhas⟩ := get_iff_has.mp hget
    rw [value_deepKeys_of_lt hlt]
    exact ⟨hhas, hbound⟩
  cases o with
  | none => exact fun q hq => h _ (hof q hq)
  | some r =>
    obtain ⟨⟨hhas, hbound⟩, hleast⟩ := h
    have hget : a.get (keyOf r.2) = some r.1 := by
      rw [get_iff_has, deepKeys_keyOf, val_keyOf]
      exact ⟨r.2.value_lt, hhas⟩
    refine ⟨⟨hget, ?_⟩, fun q hq hne => ?_⟩
    · rw [val_keyOf]
      exact hbound
    have hlt := (get_iff_has.mp hq.1).1
    have hkey : q.1 ≠ keyOf r.2 := by
      intro heq
      have hq' : a.get q.1 = some q.2 := hq.1
      rw [heq, hget] at hq'
      exact hne (Prod.ext heq (Option.some.inj hq').symm)
    have hle : KeyLe r (q.2, deepKeys q.1) := by
      refine hleast _ (hof q hq) fun heq => hkey ?_
      rw [← heq]
      refine Fin.ext ?_
      rw [val_keyOf, value_deepKeys_of_lt hlt]
    have hval : (keyOf r.2 : Key kDeepStart n).val = r.2.value := val_keyOf r.2
    rw [KeyLe, value_deepKeys_of_lt hlt, ← hval] at hle
    exact lt_of_le_of_ne hle fun heq => hkey heq.symm

/-- What a call shows. -/
def visit (r : Option Elem × Key kDeepStart n) : Option (Key kDeepStart n × Elem) := r.1.map (r.2, ·)

theorem visit_getFirst (a : LevelArray kDeepStart n) :
    visit a.getFirst = a.head.getFirst.map fun r => (keyOf r.2, r.1) := by
  have hnull : a.head = null → a.head.getFirst = none := fun h => by rw [h, getFirst_null]
  rw [LevelArray.getFirst, ite_isNull hnull]
  cases a.head.getFirst <;> rfl

theorem visit_getNext (a : LevelArray kDeepStart n) (key : Key kDeepStart n) :
    visit (a.getNext key) =
      (a.head.getNext (deepKeys key.succ)).map fun r => (withDeepKeys key.succ r.2, r.1) := by
  have hnull : a.head = null → a.head.getNext (deepKeys key.succ) = none := fun h => by rw [h, getNext_null]
  rw [LevelArray.getNext, ite_isNull hnull]
  cases a.head.getNext (deepKeys key.succ) <;> rfl

theorem getFirst_first : IsFirst (fun p q => p.1 < q.1) (fun q => a.get q.1 = some q.2) (visit a.getFirst) := by
  rw [visit_getFirst]
  have h := (getFirst_isFirst a.head).congr fun p => (and_iff_left (Nat.zero_le p.2.value)).symm
  exact (isFirst_keyOf h).congr fun q => and_iff_left (Nat.zero_le _)

/-- Before the last key, `GetNext` finds the first key behind. -/
theorem getNext_first {key : Key kDeepStart n} (h : key.val + 1 < 256 ^ (n + 1)) :
    IsFirst (fun p q => p.1 < q.1) (fun q => a.get q.1 = some q.2 ∧ key < q.1) (visit (a.getNext key)) := by
  have hle : 256 ^ (n + 1) ≤ 256 ^ (kDeepStart + (n + 1)) := Nat.pow_le_pow_right (by decide) (Nat.le_add_left _ _)
  have hsucc : key.succ.val = key.val + 1 := Nat.mod_eq_of_lt (lt_of_lt_of_le h hle)
  have hlt : key.succ.val < 256 ^ (n + 1) := by rw [hsucc]; exact h
  have hdeep : ∀ keys : Keys n, withDeepKeys key.succ keys = keyOf keys := by
    intro keys
    refine Fin.ext ?_
    rw [val_keyOf, val_withDeepKeys, Nat.div_eq_of_lt hlt, zero_mul, zero_add]
  have hnext := isFirst_keyOf (a := a) (getNext_isFirst a.head (deepKeys key.succ))
  rw [visit_getNext]
  simp only [hdeep]
  rw [value_deepKeys_of_lt hlt, hsucc] at hnext
  exact hnext

/-! ### Runs -/

/-- The keys that `Fetch` asserts. -/
abbrev DeepKey (kDeepStart n : ℕ) := { key : Key kDeepStart n // checkKeyDeep kDeepStart (putBigEndian key) = true }

inductive Operation (DeepKey Key : Type)
  | fetch (key : DeepKey)
  | get (key : Key)

abbrev Op (kDeepStart n : ℕ) := Operation (DeepKey kDeepStart n) (Key kDeepStart n)

def Operation.key : Op kDeepStart n → Key kDeepStart n
  | fetch key => key
  | get key => key

/-- The element returned, and the array behind. -/
def Operation.apply (a : LevelArray kDeepStart n) : Op kDeepStart n → Option Elem × LevelArray kDeepStart n
  | fetch key => (some (a.fetch key).1, (a.fetch key).2)
  | get key => (a.get key, a)

variable (ops : List (Op kDeepStart n))

/-- The array behind operations on a new one. -/
def run : LevelArray kDeepStart n :=
  ops.foldl (fun a op => (op.apply a).2) {}

theorem run_concat (op : Op kDeepStart n) : run (ops ++ [op]) = (op.apply (run ops)).2 := by
  rw [run, foldl_append]
  rfl

/-- A key of the block has been fetched. -/
def Fetched (block : ℕ) : Prop :=
  ∃ key, .fetch key ∈ ops ∧ key.val.val / 256 = block

variable {ops : List (Op kDeepStart n)}

theorem fetched_concat_get {key : Key kDeepStart n} {block : ℕ} :
    Fetched (ops ++ [.get key]) block ↔ Fetched ops block := by
  simp [Fetched]

theorem fetched_concat_fetch {key : DeepKey kDeepStart n} {block : ℕ} :
    Fetched (ops ++ [.fetch key]) block ↔ Fetched ops block ∨ key.val.val / 256 = block := by
  constructor
  · rintro ⟨key', hmem, hblock⟩
    rcases mem_append.mp hmem with hmem | hmem
    · exact .inl ⟨key', hmem, hblock⟩
    · obtain rfl := Operation.fetch.inj (mem_singleton.mp hmem)
      exact .inr hblock
  · rintro (⟨key', hmem, hblock⟩ | hblock)
    · exact ⟨key', mem_append_left _ hmem, hblock⟩
    · exact ⟨key, mem_append_right _ (mem_singleton_self _), hblock⟩

/-- Behind a run the blocks are those of the keys fetched. -/
theorem run_wf (ops : List (Op kDeepStart n)) :
    (run ops).Wf ∧ ∀ keys : Keys n, ((run ops).head.blockAt keys).isSome ↔ Fetched ops keys.block := by
  induction ops using reverseRecOn with
  | nil =>
    refine ⟨Wf.new, fun keys => ?_⟩
    have hnull : (run ([] : List (Op kDeepStart n))).head.blockAt keys = none := blockAt_null keys
    rw [hnull]
    constructor
    · exact fun h => nomatch h
    · rintro ⟨_, hmem, _⟩
      exact nomatch hmem
  | append_singleton ops op ih =>
    obtain ⟨hwf, hblocks⟩ := ih
    rw [run_concat]
    cases op with
    | get key =>
      refine ⟨hwf, fun keys => ?_⟩
      rw [fetched_concat_get]
      exact hblocks keys
    | fetch key =>
      refine ⟨hwf.fetch, fun keys => ?_⟩
      show (((run ops).fetch key).2.head.blockAt keys).isSome ↔ _
      rw [fetched_concat_fetch, blockAt_fetch, block_deepKeys ((checkKeyDeep_iff key.val).mp key.2),
        eq_comm (a := key.val.val / 256)]
      by_cases hblock : keys.block = key.val.val / 256
      · rw [if_pos hblock]
        exact ⟨fun _ => .inr hblock, fun _ => rfl⟩
      · rw [if_neg hblock, hblocks keys, or_iff_left hblock]

theorem get_isSome_iff {key : Key kDeepStart n} :
    ((run ops).get key).isSome ↔ Fetched ops (key / 256) := by
  have hblocks := (run_wf ops).2 (deepKeys key)
  constructor
  · intro h
    obtain ⟨e, he⟩ := isSome_iff_exists.mp h
    obtain ⟨hlt, hblock, -⟩ := get_eq_some.mp he
    rw [← block_deepKeys hlt]
    exact hblocks.mp (by rw [hblock]; rfl)
  · intro h
    have hlt : key.val < 256 ^ (n + 1) := by
      obtain ⟨key', -, hblock⟩ := h
      have hlt' := (checkKeyDeep_iff key'.val).mp key'.2
      rw [pow_succ] at hlt' ⊢
      omega
    rw [← block_deepKeys hlt, ← hblocks, isSome_iff_exists] at h
    obtain ⟨b, hb⟩ := h
    have hget : (run ops).get key = some (b, (deepKeys key).place) := get_eq_some.mpr ⟨hlt, hb, rfl⟩
    rw [hget]
    rfl

/-- An operation of a run returned an element. -/
def Returned (ops : List (Op kDeepStart n)) (op : Op kDeepStart n) (e : Elem) : Prop :=
  ∃ prior, prior ++ [op] <+: ops ∧ (op.apply (run prior)).1 = some e

/-- Each operation returns the element of its key, the `Get`s from when a key of its block
has been fetched on. -/
structure RefinesMap (ops : List (Op kDeepStart n)) : Prop where
  found : ∀ prior op, prior ++ [op] <+: ops →
    ((op.apply (run prior)).1.isSome ↔ Fetched (prior ++ [op]) (op.key / 256))
  same : ∀ op op' e e', Returned ops op e → Returned ops op' e' → (e = e' ↔ op.key = op'.key)

theorem get_apply_of_get {key : Key kDeepStart n} {e : Elem} (h : a.get key = some e) (op : Op kDeepStart n) :
    (op.apply a).2.get key = some e := by
  cases op with
  | fetch key' => exact get_fetch_of_get h
  | get key' => exact h

/-- What an operation returned is found from then on. -/
theorem get_of_returned {op : Op kDeepStart n} {e : Elem} (h : Returned ops op e) :
    (run ops).get op.key = some e := by
  obtain ⟨prior, ⟨rest, rfl⟩, he⟩ := h
  induction rest using reverseRecOn with
  | nil =>
    rw [append_nil, run_concat]
    cases op with
    | fetch key =>
      obtain rfl := Option.some.inj he
      exact get_fetch ((checkKeyDeep_iff key.val).mp key.2)
    | get key => exact he
  | append_singleton rest op' ih =>
    rw [← append_assoc, run_concat]
    exact get_apply_of_get ih op'

theorem refinesMap (ops : List (Op kDeepStart n)) : RefinesMap ops := by
  constructor
  · intro prior op _
    cases op with
    | fetch key => exact ⟨fun _ => fetched_concat_fetch.mpr (.inr rfl), fun _ => rfl⟩
    | get key =>
      rw [fetched_concat_get]
      exact get_isSome_iff
  · intro op op' e e' h h'
    have he := get_of_returned h
    have he' := get_of_returned h'
    constructor
    · rintro rfl
      exact (run_wf ops).1.key_inj he he'
    · intro hkey
      rw [hkey, he'] at he
      exact (Option.some.inj he).symm

/-! ### Enumeration -/

/-- The keys visited by `GetFirst` and the first `GetNext`s, with their elements. -/
def visits (a : LevelArray kDeepStart n) (fuel : ℕ) : List (Key kDeepStart n × Elem) :=
  walk (fun p => visit (a.getNext p.1)) fuel (visit a.getFirst)

/-- The enumeration ends. It visits the keys of all blocks in ascending order. -/
def Enumerates (ops : List (Op kDeepStart n)) : Prop :=
  ∃ fuel, ((run ops).visits fuel).length < fuel ∧
    ((run ops).visits fuel).Pairwise (fun p q => p.1 < q.1) ∧
    (∀ key, key ∈ ((run ops).visits fuel).map Prod.fst ↔ Fetched ops (key / 256)) ∧
    ∀ p ∈ (run ops).visits fuel, (run ops).get p.1 = some p.2

/-- Where the last block is not allocated, the enumeration is as it should be. -/
theorem enumerates (h : ¬ Fetched ops (256 ^ n - 1)) : Enumerates ops := by
  classical
  let S : Finset (Key kDeepStart n × Elem) :=
    Finset.univ.biUnion fun key => (((run ops).get key).map (key, ·)).toFinset
  have hS : ∀ p, p ∈ S ↔ (run ops).get p.1 = some p.2 := by
    intro p
    rw [Finset.mem_biUnion]
    constructor
    · rintro ⟨key, -, hp⟩
      obtain ⟨e, he, rfl⟩ := map_eq_some_iff.mp (mem_toFinset.mp hp)
      exact he
    · intro hp
      refine ⟨p.1, Finset.mem_univ _, mem_toFinset.mpr ?_⟩
      rw [hp]
      rfl
  -- no key of the array is the last one
  have hlast : ∀ p ∈ S, p.1.val + 1 < 256 ^ (n + 1) := by
    intro p hp
    rw [hS] at hp
    have hlt := (get_eq_some.mp hp).1
    have hfetched : Fetched ops (p.1.val / 256) := get_isSome_iff.mp (by rw [hp]; rfl)
    have hne : p.1.val / 256 ≠ 256 ^ n - 1 := fun heq => h (heq ▸ hfetched)
    rw [pow_succ] at hlt ⊢
    omega
  have hnext : ∀ p ∈ S, IsFirst (fun p q => p.1 < q.1) (fun q => q ∈ S ∧ p.1 < q.1) (visit ((run ops).getNext p.1)) :=
    fun p hp => (getNext_first (hlast p hp)).congr fun q => and_congr_left fun _ => (hS q).symm
  have hfirst : IsFirst (fun p q => p.1 < q.1) (· ∈ S) (visit (run ops).getFirst) :=
    getFirst_first.congr fun q => (hS q).symm
  have htrans : ∀ p q r : Key kDeepStart n × Elem, p.1 < q.1 → q.1 < r.1 → p.1 < r.1 := fun _ _ _ => lt_trans
  obtain ⟨hasc, hmem⟩ := walk_ordered htrans (fun p => lt_irrefl p.1) hnext
    (Finset.Subset.refl S) (fun _ _ q hq _ => hq) hfirst (Nat.le_succ S.card)
  refine ⟨S.card + 1, ?_, hasc, fun key => ?_, fun p hp => (hS p).mp ((hmem p).mp hp)⟩
  · have hnodup : ((run ops).visits (S.card + 1)).Nodup := hasc.imp fun hlt heq => by
      rw [heq] at hlt
      exact lt_irrefl _ hlt
    have hsub : ((run ops).visits (S.card + 1)).toFinset ⊆ S := fun p hp => (hmem p).mp (mem_toFinset.mp hp)
    have hcard := Finset.card_le_card hsub
    rw [toFinset_card_of_nodup hnodup] at hcard
    exact Nat.lt_succ_of_le hcard
  · rw [← get_isSome_iff, List.mem_map]
    constructor
    · rintro ⟨p, hp, rfl⟩
      rw [(hS p).mp ((hmem p).mp hp)]
      rfl
    · intro hsome
      obtain ⟨e, he⟩ := isSome_iff_exists.mp hsome
      exact ⟨(key, e), (hmem _).mpr ((hS _).mpr he), rfl⟩

/-- Where it is allocated, `GetFirst` and every `GetNext` find an element. -/
theorem length_visits (h : Fetched ops (256 ^ n - 1)) (fuel : ℕ) :
    ((run ops).visits fuel).length = fuel := by
  have hle : 256 ^ (n + 1) ≤ 256 ^ (kDeepStart + (n + 1)) := Nat.pow_le_pow_right (by decide) (Nat.le_add_left _ _)
  have hpos : 0 < 256 ^ n := Nat.pow_pos (by decide)
  -- the last key has an element, and no key is behind it
  let last : Key kDeepStart n := ⟨256 ^ (n + 1) - 1, by omega⟩
  have hblock : last.val / 256 = 256 ^ n - 1 := by
    show (256 ^ (n + 1) - 1) / 256 = _
    rw [pow_succ]
    omega
  obtain ⟨e, he⟩ := isSome_iff_exists.mp (get_isSome_iff.mpr (hblock ▸ h : Fetched ops (last.val / 256)))
  have hhas := (get_iff_has.mp he).2
  have hnext : ∀ key, ∃ p, visit ((run ops).getNext key) = some p := by
    intro key
    have hfirst := getNext_isFirst (run ops).head (deepKeys key.succ)
    rw [visit_getNext]
    cases hr : (run ops).head.getNext (deepKeys key.succ) with
    | none =>
      rw [hr] at hfirst
      refine (hfirst (e, deepKeys last) ⟨hhas, ?_⟩).elim
      have hlt := (deepKeys key.succ).value_lt
      rw [value_deepKeys_of_lt (get_iff_has.mp he).1]
      exact Nat.le_sub_one_of_lt hlt
    | some r => exact ⟨_, rfl⟩
  cases hr : visit (run ops).getFirst with
  | none =>
    have hfirst := getFirst_first (a := run ops)
    rw [hr] at hfirst
    exact (hfirst (last, e) he).elim
  | some p =>
    rw [visits, hr]
    refine length_walk (P := fun _ => True) (fun q _ => ?_) trivial fuel
    obtain ⟨q', hq'⟩ := hnext q.1
    exact ⟨q', hq', trivial⟩

theorem not_enumerates (h : Fetched ops (256 ^ n - 1)) : ¬ Enumerates ops := by
  rintro ⟨fuel, hlt, -⟩
  rw [length_visits h] at hlt
  exact lt_irrefl _ hlt

/-- The array is a map whose enumeration visits the keys of all blocks in ascending order
and ends, unless a key of the last block has been fetched. -/
theorem map_and_enumeration_iff (ops : List (Op kDeepStart n)) :
    RefinesMap ops ∧ Enumerates ops ↔ ¬ Fetched ops (256 ^ n - 1) := by
  constructor
  · rintro ⟨-, henum⟩ h
    exact not_enumerates h henum
  · intro h
    exact ⟨refinesMap ops, enumerates h⟩

/-- With keys of two bytes, `0xffff` fetched. -/
theorem lastBlock_not_enumerated : ∃ ops : List (Op 0 1), ¬ (RefinesMap ops ∧ Enumerates ops) := by
  refine ⟨[.fetch ⟨⟨0xffff, by decide⟩, rfl⟩], ?_⟩
  rintro ⟨-, henum⟩
  exact not_enumerates ⟨_, List.mem_singleton_self _, by decide⟩ henum

end Fon9.LevelArray
