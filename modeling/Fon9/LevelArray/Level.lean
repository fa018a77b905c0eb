import Fon9.Lib.Loop
import Fon9.Lib.Numeral

/-! `LevelArray`. The last bytes of a key, the most significant first, lead through the
levels of blocks; the last byte is the place in a block of elements. -/

namespace Fon9.LevelArray

open Lib

/-- The address of an element: the number of its `ValueBlock`, in the order of the
`new`s, and its place there. -/
abbrev Elem := ℕ × UInt8

/-- `LevelRec` with `n` levels below: `NextLevel_` is a `ValueBlock` at the last level and
a `LevelBlock` above it. -/
inductive LevelRec : ℕ → Type
  | null {n : ℕ} : LevelRec n
  | valueBlock (block : ℕ) : LevelRec 0
  | levelBlock {n : ℕ} (block : UInt8 → LevelRec n) : LevelRec (n + 1)

/-- The bytes of a key from a level on. -/
abbrev Keys (n : ℕ) := List.Vector UInt8 (n + 1)

namespace LevelRec

def isNull {n : ℕ} : LevelRec n → Bool
  | null => true
  | _ => false

/-- The `LevelBlock`, a new one where there was none. -/
def levels {n : ℕ} : LevelRec (n + 1) → UInt8 → LevelRec n
  | null => fun _ => null
  | levelBlock block => block

/-- `Fetch`, with the count of the `ValueBlock`s made. -/
def fetch : {n : ℕ} → LevelRec n → Keys n → ℕ → Elem × LevelRec n × ℕ
  | 0, null, keys, news => ((news, keys.head), valueBlock news, news + 1)
  | 0, valueBlock block, keys, news => ((block, keys.head), valueBlock block, news)
  | _ + 1, rec, keys, news =>
    let r := (rec.levels keys.head).fetch keys.tail news
    (r.1, levelBlock (Function.update rec.levels keys.head r.2.1), r.2.2)

/-- `Get`. -/
def get : {n : ℕ} → LevelRec n → Keys n → Option Elem
  | _, null, _ => none
  | 0, valueBlock block, keys => some (block, keys.head)
  | _ + 1, levelBlock block, keys => (block keys.head).get keys.tail

/-- The loop over the blocks from `L` on. -/
def scan {n : ℕ} (block : UInt8 → LevelRec n) (getFirst : LevelRec n → Option (Elem × Keys n)) (L : ℕ) :
    Option (Elem × Keys (n + 1)) :=
  (List.range' L (256 - L)).findSome? fun L =>
    let blk := block (UInt8.ofNat L)
    if blk.isNull then none else (getFirst blk).map fun r => (r.1, UInt8.ofNat L ::ᵥ r.2)

/-- `GetFirst`: the element and its key. -/
def getFirst : {n : ℕ} → LevelRec n → Option (Elem × Keys n)
  | _, null => none
  | 0, valueBlock block => some ((block, 0), 0 ::ᵥ .nil)
  | _ + 1, levelBlock block => scan block (fun blk => blk.getFirst) 0

/-- `GetNext`: the element and its key. -/
def getNext : {n : ℕ} → LevelRec n → Keys n → Option (Elem × Keys n)
  | _, null, _ => none
  | 0, valueBlock block, keys => some ((block, keys.head), keys)
  | _ + 1, levelBlock block, keys =>
    let L := keys.head
    let blk := block L
    match if blk.isNull then none else blk.getNext keys.tail with
    | some r => some (r.1, L ::ᵥ r.2)
    | none => scan block (fun blk => blk.getFirst) (L.toNat + 1)

end LevelRec

end Fon9.LevelArray

namespace Fon9

open Lib LevelArray

/-- `LevelArray` of keys of `kDeepStart + (n + 1)` bytes, `DeepN` being `n + 1`. -/
structure LevelArray (kDeepStart n : ℕ) where
  head : LevelRec n := .null
  /-- The `ValueBlock`s made. -/
  news : ℕ := 0

namespace LevelArray

variable {kDeepStart n : ℕ}

/-- `KeyT`. -/
abbrev Key (kDeepStart n : ℕ) := Fin (256 ^ (kDeepStart + (n + 1)))

variable (key : Key kDeepStart n)

/-- `PutBigEndian(&key, key)`. -/
def putBigEndian : List UInt8 := BigEndian.bytes (kDeepStart + (n + 1)) key

/-- `CheckKeyDeep` at `lv` levels before `kDeepStart`. -/
def checkKeyDeep : ℕ → List UInt8 → Bool
  | 0, _ => true
  | _, [] => true
  | lv + 1, key :: keys => key == 0 && checkKeyDeep lv keys

/-- The bytes from `kDeepStart` on. -/
def deepKeys : Keys n :=
  ⟨(putBigEndian key).drop kDeepStart, by
    rw [List.length_drop, putBigEndian, BigEndian.length_bytes, Nat.add_sub_cancel_left]⟩

/-- The key with other bytes from `kDeepStart` on. -/
def withDeepKeys (keys : Keys n) : Key kDeepStart n :=
  ⟨BigEndian.value ((putBigEndian key).take kDeepStart ++ keys.toList), by
    refine lt_of_lt_of_eq (BigEndian.value_lt _) ?_
    rw [List.length_append, List.length_take, putBigEndian, BigEndian.length_bytes, keys.toList_length,
      Nat.min_eq_left (Nat.le_add_right _ _)]⟩

variable (a : LevelArray kDeepStart n) (key : Key kDeepStart n)

/-- `Fetch`; what it asserts of the key is left to the caller. -/
def fetch : Elem × LevelArray kDeepStart n :=
  let r := a.head.fetch (deepKeys key) a.news
  (r.1, ⟨r.2.1, r.2.2⟩)

def get : Option Elem :=
  if checkKeyDeep kDeepStart (putBigEndian key) then a.head.get (deepKeys key) else none

/-- `KeyT{}`. -/
def Key.zero : Key kDeepStart n := ⟨0, Nat.pow_pos (by decide)⟩

/-- `++key`. -/
def Key.succ : Key kDeepStart n :=
  ⟨(key + 1) % 256 ^ (kDeepStart + (n + 1)), Nat.mod_lt _ (Nat.pow_pos (by decide))⟩

/-- `GetFirst`: the element and `key` behind the call. -/
def getFirst : Option Elem × Key kDeepStart n :=
  match if a.head.isNull then none else a.head.getFirst with
  | some r => (some r.1, withDeepKeys .zero r.2)
  | none => (none, .zero)

/-- `GetNext`: the element and `key` behind the call. -/
def getNext : Option Elem × Key kDeepStart n :=
  let key := key.succ
  match if a.head.isNull then none else a.head.getNext (deepKeys key) with
  | some r => (some r.1, withDeepKeys key r.2)
  | none => (none, key)

end LevelArray

end Fon9

/-! What `Fetch` adds to the levels, and that `GetFirst` and `GetNext` find the first
elements in the order of the keys. -/

namespace Fon9.LevelArray

open Lib Nat UInt8 UInt8

variable {n : ℕ}

/-- The number that the bytes of a key stand for. -/
def Keys.value (keys : Keys n) : ℕ := BigEndian.value keys.toList

variable {keys keys' : Keys n}

namespace Keys

theorem value_cons (b : UInt8) (keys : Keys n) :
    value (n := n + 1) (b ::ᵥ keys) = b.toNat * 256 ^ (n + 1) + keys.value := by
  rw [value, value, List.Vector.toList_cons, BigEndian.value_cons, List.Vector.toList_length]

theorem value_lt (keys : Keys n) : keys.value < 256 ^ (n + 1) := by
  have h := BigEndian.value_lt keys.toList
  rwa [List.Vector.toList_length] at h

theorem value_inj (h : keys.value = keys'.value) : keys = keys' := by
  refine List.Vector.toList_injective (BigEndian.value_inj ?_ h)
  rw [List.Vector.toList_length, List.Vector.toList_length]

theorem eq_cons (keys : Keys n) : keys = keys.head ::ᵥ keys.tail := (List.Vector.cons_head_tail keys).symm

theorem value_single (b : UInt8) : value (n := 0) (b ::ᵥ .nil) = b.toNat := Nat.zero_add _

/-- The keys with one `ValueBlock`. -/
def block (keys : Keys n) : ℕ := keys.value / 256

theorem block_zero (keys : Keys 0) : keys.block = 0 := div_eq_of_lt (value_lt keys)

theorem block_lt (keys : Keys n) : keys.block < 256 ^ n := by
  have h := keys.value_lt
  rw [pow_succ] at h
  exact Nat.div_lt_of_lt_mul (by omega)

theorem block_cons (b : UInt8) (keys : Keys n) :
    block (n := n + 1) (b ::ᵥ keys) = b.toNat * 256 ^ n + keys.block := by
  rw [block, value_cons, block, pow_succ, ← mul_assoc, add_comm, add_mul_div_right _ _ (by decide),
    add_comm]

theorem block_cons_inj {b b' : UInt8} :
    block (n := n + 1) (b ::ᵥ keys) = block (n := n + 1) (b' ::ᵥ keys') ↔ b = b' ∧ keys.block = keys'.block := by
  rw [block_cons, block_cons]
  constructor
  · intro h
    have hlt := keys.block_lt
    have hlt' := keys'.block_lt
    have hdiv := congrArg (· / 256 ^ n) h
    have hmod := congrArg (· % 256 ^ n) h
    have hpos : 0 < 256 ^ n := Nat.pow_pos (by decide)
    simp only [add_comm (_ * _), add_mul_div_right _ _ hpos, div_eq_of_lt hlt,
      div_eq_of_lt hlt', zero_add] at hdiv
    simp only [mul_add_mod_self_right, mod_eq_of_lt hlt, mod_eq_of_lt hlt'] at hmod
    exact ⟨UInt8.toNat_inj.mp hdiv, hmod⟩
  · rintro ⟨rfl, h⟩
    rw [h]

/-- The place in the `ValueBlock`. -/
def place (keys : Keys n) : UInt8 := UInt8.ofNat keys.value

theorem place_cons (b : UInt8) (keys : Keys n) : place (n := n + 1) (b ::ᵥ keys) = keys.place := by
  have hpow : b.toNat * 256 ^ (n + 1) = b.toNat * 256 ^ n * 256 := by rw [pow_succ, mul_assoc]
  refine UInt8.toNat_inj.mp ?_
  rw [place, place, toNat_ofNat', toNat_ofNat', value_cons, hpow]
  omega

theorem place_zero (keys : Keys 0) : keys.place = keys.head := by
  have htail : (keys.tail : List.Vector UInt8 0) = .nil := List.Vector.eq_nil keys.tail
  rw [place, eq_cons keys, htail, value_single, UInt8.ofNat_toNat, List.Vector.head_cons]

theorem eq_of_block_of_place (hblock : keys.block = keys'.block) (hplace : keys.place = keys'.place)
    : keys = keys' := by
  have hmod := congrArg UInt8.toNat hplace
  rw [place, place, toNat_ofNat', toNat_ofNat'] at hmod
  rw [block, block] at hblock
  exact value_inj (by omega)

end Keys

namespace LevelRec

/-- The `ValueBlock` that a key leads to. -/
def blockAt : {n : ℕ} → LevelRec n → Keys n → Option ℕ
  | _, null, _ => none
  | 0, valueBlock block, _ => some block
  | _ + 1, levelBlock block, keys => (block keys.head).blockAt keys.tail

theorem blockAt_succ (rec : LevelRec (n + 1)) (keys : Keys (n + 1)) :
    rec.blockAt keys = (rec.levels keys.head).blockAt keys.tail := by
  cases rec with
  | null => cases n <;> rfl
  | levelBlock block => rfl

variable (rec : LevelRec n)

/-- `Get` finds the place in the `ValueBlock` of the key. -/
theorem get_eq (keys : Keys n) :
    rec.get keys = (rec.blockAt keys).map fun block => (block, keys.place) := by
  induction n with
  | zero =>
    cases rec with
    | null => rfl
    | valueBlock block => rw [Keys.place_zero]; rfl
  | succ n ih =>
    cases rec with
    | null => rfl
    | levelBlock block =>
      rw [get, blockAt, ih, Keys.eq_cons keys, Keys.place_cons, List.Vector.head_cons, List.Vector.tail_cons]

/-- The keys of one block lead to one `ValueBlock`. -/
theorem blockAt_congr (h : keys.block = keys'.block) :
    rec.blockAt keys = rec.blockAt keys' := by
  induction n with
  | zero => cases rec <;> rfl
  | succ n ih =>
    cases rec with
    | null => rfl
    | levelBlock block =>
      rw [Keys.eq_cons keys, Keys.eq_cons keys', Keys.block_cons_inj] at h
      rw [blockAt, blockAt, h.1]
      exact ih _ h.2

/-- `Fetch` makes the `ValueBlock` of the key where there is none, and no other. -/
theorem blockAt_fetch (keys keys' : Keys n) (news : ℕ) :
    (rec.fetch keys news).2.1.blockAt keys' =
      if keys'.block = keys.block then some ((rec.blockAt keys).getD news) else rec.blockAt keys' := by
  induction n with
  | zero =>
    rw [Keys.block_zero, Keys.block_zero, if_pos rfl]
    cases rec <;> rfl
  | succ n ih =>
    have hstep : (rec.fetch keys news).2.1.blockAt keys' =
        (Function.update rec.levels keys.head
          ((rec.levels keys.head).fetch keys.tail news).2.1 keys'.head).blockAt keys'.tail := rfl
    have hblock : keys'.block = keys.block ↔
        keys'.head = keys.head ∧ Keys.block (n := n) keys'.tail = Keys.block (n := n) keys.tail := by
      rw [Keys.eq_cons keys, Keys.eq_cons keys', Keys.block_cons_inj]
      rfl
    rw [hstep, blockAt_succ rec keys, blockAt_succ rec keys']
    by_cases hhead : keys'.head = keys.head
    · rw [hhead, Function.update_self, ih]
      simp only [hblock, hhead, true_and]
    · rw [Function.update_of_ne hhead, if_neg fun h => hhead (hblock.mp h).1]

theorem fetch_elem (keys : Keys n) (news : ℕ) :
    (rec.fetch keys news).1 = ((rec.blockAt keys).getD news, keys.place) := by
  induction n generalizing news with
  | zero =>
    rw [Keys.place_zero]
    cases rec <;> rfl
  | succ n ih =>
    have hplace : keys.place = Keys.place (n := n) keys.tail := by
      rw [Keys.eq_cons keys, Keys.place_cons]
      rfl
    rw [fetch, ih, blockAt_succ, hplace]

theorem fetch_news (keys : Keys n) (news : ℕ) :
    (rec.fetch keys news).2.2 = if (rec.blockAt keys).isSome then news else news + 1 := by
  induction n generalizing news with
  | zero => cases rec <;> rfl
  | succ n ih => rw [fetch, ih, blockAt_succ]

/-- A key with its element. -/
def Has (p : Elem × Keys n) : Prop := rec.get p.2 = some p.1

/-- In the order of the keys. -/
def KeyLe (p q : Elem × Keys n) : Prop := p.2.value ≤ q.2.value

variable {block : UInt8 → LevelRec n}

theorem keyLe_of_head_lt {p q : Elem × Keys (n + 1)} (h : p.2.head.toNat < q.2.head.toNat) : KeyLe p q := by
  have hp := Keys.value_lt (n := n) p.2.tail
  have hmul : (p.2.head.toNat + 1) * 256 ^ (n + 1) ≤ q.2.head.toNat * 256 ^ (n + 1) :=
    Nat.mul_le_mul_right _ h
  rw [Nat.add_one_mul] at hmul
  rw [KeyLe, Keys.eq_cons p.2, Keys.eq_cons q.2, Keys.value_cons, Keys.value_cons]
  omega

theorem keyLe_of_head_eq {p q : Elem × Keys (n + 1)} (h : p.2.head = q.2.head)
    (htail : KeyLe (n := n) (p.1, p.2.tail) (q.1, q.2.tail)) : KeyLe p q := by
  rw [KeyLe, Keys.eq_cons p.2, Keys.eq_cons q.2, Keys.value_cons, Keys.value_cons, h]
  exact Nat.add_le_add_left htail _

theorem value_le_iff {keys keys' : Keys (n + 1)} :
    keys.value ≤ keys'.value ↔ keys'.head = keys.head ∧ Keys.value (n := n) keys.tail ≤ Keys.value (n := n) keys'.tail ∨
      keys.head.toNat < keys'.head.toNat := by
  constructor
  · intro h
    rcases Nat.lt_trichotomy keys'.head.toNat keys.head.toNat with hlt | heq | hlt
    · have hlt' := Keys.value_lt (n := n) keys'.tail
      have hmul : (keys'.head.toNat + 1) * 256 ^ (n + 1) ≤ keys.head.toNat * 256 ^ (n + 1) :=
        Nat.mul_le_mul_right _ hlt
      rw [Nat.add_one_mul] at hmul
      rw [Keys.eq_cons keys, Keys.eq_cons keys', Keys.value_cons, Keys.value_cons] at h
      omega
    · have hhead := UInt8.toNat_inj.mp heq
      rw [Keys.eq_cons keys, Keys.eq_cons keys', Keys.value_cons, Keys.value_cons, hhead] at h
      exact .inl ⟨hhead, Nat.le_of_add_le_add_left h⟩
    · exact .inr hlt
  · rintro (⟨hhead, htail⟩ | hlt)
    · exact keyLe_of_head_eq (p := ((0, 0), keys)) (q := ((0, 0), keys')) hhead.symm htail
    · exact keyLe_of_head_lt (p := ((0, 0), keys)) (q := ((0, 0), keys')) hlt

/-- What is first below one block is first of all keys through that block. -/
theorem IsFirst.below {L : UInt8} {P : Keys n → Prop} {o : Option (Elem × Keys n)}
    (h : IsFirst KeyLe (fun p => Has (block L) p ∧ P p.2) o) :
    IsFirst KeyLe (fun p => Has (levelBlock block) p ∧ p.2.head = L ∧ P p.2.tail)
      (o.map fun r => (r.1, L ::ᵥ r.2)) := by
  cases o with
  | none =>
    rintro p ⟨hp, rfl, hP⟩
    exact h (p.1, p.2.tail) ⟨hp, hP⟩
  | some r =>
    obtain ⟨⟨hr, hrP⟩, hleast⟩ := h
    refine ⟨⟨hr, rfl, hrP⟩, ?_⟩
    rintro p ⟨hp, rfl, hP⟩ hne
    refine keyLe_of_head_eq rfl (hleast (p.1, p.2.tail) ⟨hp, hP⟩ fun heq => hne ?_)
    rw [← heq]
    exact Prod.ext rfl (Keys.eq_cons p.2)

/-- First of all with a smaller byte, otherwise what is first behind it. -/
theorem IsFirst.orElse {L : ℕ} {P Q : Elem × Keys (n + 1) → Prop}
    {o o' : Option (Elem × Keys (n + 1))} (h : IsFirst KeyLe P o) (hP : ∀ p, P p → p.2.head.toNat = L)
    (h' : IsFirst KeyLe Q o') (hQ : ∀ p, Q p → L < p.2.head.toNat) :
    IsFirst KeyLe (fun p => P p ∨ Q p) (o.or o') := by
  cases o with
  | none =>
    refine h'.congr fun p => ?_
    exact ⟨.inr, fun hp => hp.resolve_left (h p)⟩
  | some r =>
    refine ⟨.inl h.1, fun p hp hne => ?_⟩
    rcases hp with hp | hp
    · exact h.2 p hp hne
    · exact keyLe_of_head_lt (lt_of_eq_of_lt (hP r h.1) (hQ p hp))

theorem getFirst_null : (null : LevelRec n).getFirst = none := by cases n <;> rfl

theorem getNext_null (keys : Keys n) : (null : LevelRec n).getNext keys = none := by cases n <;> rfl

theorem ite_isNull {α : Type*} {rec : LevelRec n} {o : Option α} (h : rec = null → o = none) :
    (if rec.isNull then none else o) = o := by
  cases rec with
  | null => exact (h rfl).symm
  | valueBlock block => rfl
  | levelBlock block => rfl

/-- The loop over the blocks finds the first key from `L` on. -/
theorem scan_isFirst {L : ℕ} (hfirst : ∀ L, IsFirst KeyLe (Has (block L)) (block L).getFirst) :
    IsFirst KeyLe (fun p => Has (levelBlock block) p ∧ L ≤ p.2.head.toNat)
      (scan block (fun blk => blk.getFirst) L) := by
  rw [scan]
  generalize hm : 256 - L = m
  induction m generalizing L with
  | zero =>
    rintro p ⟨-, hL⟩
    have hlt := p.2.head.toNat_lt
    omega
  | succ m ih =>
    have hL : (ofNat L).toNat = L := by
      rw [toNat_ofNat']
      omega
    have hnull : block (ofNat L) = null →
        (block (ofNat L)).getFirst.map (fun r => (r.1, ofNat L ::ᵥ r.2)) = none := by
      intro h
      rw [h, getFirst_null]
      rfl
    have hturn := IsFirst.below (L := ofNat L) (P := fun _ => True)
      ((hfirst (ofNat L)).congr fun p => (and_iff_left (b := True) trivial).symm)
    have hrest := ih (L := L + 1) (by omega)
    rw [List.range'_succ, List.findSome?_cons, ite_isNull hnull]
    have hboth := IsFirst.orElse hturn (L := L) (fun p hp => by rw [hp.2.1, hL]) hrest fun p hp => hp.2
    refine (hboth.congr fun p => ?_).of_eq (by cases (block (ofNat L)).getFirst <;> rfl)
    constructor
    · rintro (⟨hp, hhead, -⟩ | ⟨hp, hlt⟩)
      · rw [hhead, hL]
        exact ⟨hp, le_refl _⟩
      · exact ⟨hp, le_of_succ_le hlt⟩
    · rintro ⟨hp, hle⟩
      rcases Nat.eq_or_lt_of_le hle with heq | hlt
      · refine .inl ⟨hp, ?_, trivial⟩
        rw [heq, UInt8.ofNat_toNat]
      · exact .inr ⟨hp, hlt⟩

/-- `GetFirst` finds the first key. -/
theorem getFirst_isFirst : IsFirst KeyLe (Has rec) rec.getFirst := by
  induction n with
  | zero =>
    cases rec with
    | null => exact fun p h => nomatch h
    | valueBlock block =>
      refine ⟨rfl, fun p _ _ => ?_⟩
      show Keys.value (n := 0) (0 ::ᵥ .nil) ≤ _
      rw [Keys.value_single]
      exact Nat.zero_le _
  | succ n ih =>
    cases rec with
    | null => exact fun p h => nomatch h
    | levelBlock block =>
      refine (scan_isFirst (L := 0) fun L => ih (block L)).congr fun p => ?_
      exact and_iff_left (Nat.zero_le _)

/-- `GetNext` finds the first key from the given one on. -/
theorem getNext_isFirst (keys : Keys n) :
    IsFirst KeyLe (fun p => Has rec p ∧ keys.value ≤ p.2.value) (rec.getNext keys) := by
  induction n with
  | zero =>
    cases rec with
    | null => exact fun p h => nomatch h.1
    | valueBlock block => exact ⟨⟨rfl, le_refl _⟩, fun p hp _ => hp.2⟩
  | succ n ih =>
    cases rec with
    | null => exact fun p h => nomatch h.1
    | levelBlock block =>
      have hnull : block keys.head = null → (block keys.head).getNext keys.tail = none := by
        intro h
        rw [h, getNext_null]
      have hturn := IsFirst.below (P := fun ks => Keys.value (n := n) keys.tail ≤ ks.value)
        (ih (block keys.head) keys.tail)
      have hrest := scan_isFirst (L := keys.head.toNat + 1) fun L => getFirst_isFirst (block L)
      have hboth := IsFirst.orElse hturn (L := keys.head.toNat) (fun p hp => by rw [hp.2.1]) hrest fun p hp => hp.2
      rw [getNext]
      rw [ite_isNull hnull]
      refine (hboth.congr fun p => ?_).of_eq (by cases (block keys.head).getNext keys.tail <;> rfl)
      rw [value_le_iff, ← and_or_left]
      rfl

end LevelRec

end Fon9.LevelArray
