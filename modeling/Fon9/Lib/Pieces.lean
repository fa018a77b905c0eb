import Mathlib.Data.List.DropRight

/-! A list cut into pieces of one size, or into pieces that end with a delimiter, and what is
left behind the last of them. A list is trimmed where neither its first element nor its last one is a blank. -/

namespace Fon9.Lib

open List

variable {s : List α}

section OfSize

variable {α : Type*} {n : ℕ}

/-- The consecutive pieces of `n` elements. -/
def pieces (n : ℕ) (s : List α) : List (List α) := (List.range (s.length / n)).map fun i => (s.drop (i * n)).take n

/-- What is left behind the pieces. -/
def remainder (n : ℕ) (s : List α) : List α := s.drop (s.length / n * n)

theorem length_remainder (n : ℕ) (s : List α) : (remainder n s).length = s.length % n := by
  rw [remainder, length_drop, Nat.mod_eq_sub_div_mul]

theorem pieces_of_lt (h : s.length < n) : pieces n s = [] := by
  rw [pieces, Nat.div_eq_of_lt h, range_zero, map_nil]

theorem remainder_of_lt (h : s.length < n) : remainder n s = s := by
  rw [remainder, Nat.div_eq_of_lt h, Nat.zero_mul, drop_zero]

theorem length_div_of_le (hn : 0 < n) (h : n ≤ s.length) : s.length / n = (s.drop n).length / n + 1 := by
  rw [length_drop, Nat.div_eq_sub_div hn h]

theorem pieces_of_le (hn : 0 < n) (h : n ≤ s.length) : pieces n s = s.take n :: pieces n (s.drop n) := by
  rw [pieces, length_div_of_le hn h, range_succ_eq_map, map_cons, map_map, Nat.zero_mul, drop_zero]
  congr 1
  rw [pieces]
  apply map_congr_left
  intro i hi
  rw [Function.comp_apply, drop_drop, Nat.succ_mul, Nat.add_comm]

theorem remainder_of_le (hn : 0 < n) (h : n ≤ s.length) : remainder n s = remainder n (s.drop n) := by
  rw [remainder, remainder, length_div_of_le hn h, drop_drop, Nat.succ_mul, Nat.add_comm]

/-- The rest of the first part is cut on with the second one. -/
theorem pieces_append (hn : 0 < n) (s t : List α) :
    pieces n (s ++ t) = pieces n s ++ pieces n (remainder n s ++ t) ∧
      remainder n (s ++ t) = remainder n (remainder n s ++ t) := by
  induction hlen : s.length using Nat.strong_induction_on generalizing s with
  | h m ih =>
    by_cases hlt : s.length < n
    · rw [pieces_of_lt hlt, remainder_of_lt hlt, nil_append]
      exact ⟨rfl, rfl⟩
    · have hle : n ≤ s.length := not_lt.mp hlt
      have hle' : n ≤ (s ++ t).length := by
        rw [length_append]
        omega
      obtain ⟨hpieces, hremainder⟩ := ih (s.drop n).length (by rw [length_drop]; omega) (s.drop n) rfl
      rw [pieces_of_le hn hle', remainder_of_le hn hle', pieces_of_le hn hle, remainder_of_le hn hle,
        take_append_of_le_length hle, drop_append_of_le_length hle, hpieces, hremainder]
      exact ⟨rfl, rfl⟩

end OfSize

section Lines

variable {α : Type*} [DecidableEq α] {d : α} {s : List α}

/-- The pieces of `s` up to each `d`, with the `d`. -/
def lines (d : α) (s : List α) : List (List α) := (s.splitOn d).dropLast.map (· ++ [d])

/-- What is left behind the last `d`. -/
def lineTail (d : α) (s : List α) : List α := (s.splitOn d).getLast (List.splitOn_ne_nil d s)

theorem lines_of_notMem (h : d ∉ s) : lines d s = [] := by
  rw [lines, splitOn_eq_singleton h]
  rfl

theorem lineTail_of_notMem (h : d ∉ s) : lineTail d s = s := by
  simp only [lineTail, splitOn_eq_singleton h]
  rfl

theorem lines_append_cons (h : d ∉ s) (t : List α) : lines d (s ++ d :: t) = (s ++ [d]) :: lines d t := by
  rw [lines, splitOn_append_cons_self_of_not_mem h, dropLast_cons_of_ne_nil (splitOn_ne_nil d t),
    map_cons, lines]

theorem lineTail_append_cons (h : d ∉ s) (t : List α) : lineTail d (s ++ d :: t) = lineTail d t := by
  simp only [lineTail, splitOn_append_cons_self_of_not_mem h]
  exact getLast_cons (splitOn_ne_nil d t)

/-- There is one way to take off the first line. -/
theorem line_unique {s' t t' : List α} (h : d ∉ s) (h' : d ∉ s') (heq : s ++ d :: t = s' ++ d :: t') :
    s = s' ∧ t = t' := by
  have hsplit := congrArg (splitOn d) heq
  rw [splitOn_append_cons_self_of_not_mem h, splitOn_append_cons_self_of_not_mem h'] at hsplit
  obtain rfl := (List.cons.inj hsplit).1
  exact ⟨rfl, (List.cons.inj (append_cancel_left heq)).2⟩

/-- What holds without a delimiter, and with a first line in front, holds of every list. -/
theorem lines_induction {P : List α → Prop} (d : α) (tail : ∀ s, d ∉ s → P s)
    (line : ∀ front rest, d ∉ front → P rest → P (front ++ d :: rest)) (s : List α) : P s := by
  by_cases hd : d ∈ s
  · obtain ⟨front, rest, hs, hfront⟩ := eq_append_cons_of_mem hd
    have hrest : rest.length < s.length := by
      rw [hs, length_append, length_cons]
      omega
    rw [hs]
    exact line front rest hfront (lines_induction d tail line rest)
  · exact tail s hd
termination_by s.length

/-- A list that goes on is cut on behind its last `d`. -/
theorem lines_append (d : α) (s t : List α) :
    lines d (s ++ t) = lines d s ++ lines d (lineTail d s ++ t) ∧
      lineTail d (s ++ t) = lineTail d (lineTail d s ++ t) := by
  induction s using lines_induction d with
  | tail s hs =>
    rw [lines_of_notMem hs, lineTail_of_notMem hs]
    exact ⟨rfl, rfl⟩
  | line front rest hfront ih =>
    rw [append_assoc, cons_append, lines_append_cons hfront, lines_append_cons hfront,
      lineTail_append_cons hfront, lineTail_append_cons hfront, ih.1, ih.2]
    exact ⟨rfl, rfl⟩

theorem notMem_lineTail (d : α) (s : List α) : d ∉ lineTail d s := by
  induction s using lines_induction d with
  | tail s hs =>
    rw [lineTail_of_notMem hs]
    exact hs
  | line front rest hfront ih =>
    rw [lineTail_append_cons hfront]
    exact ih

/-- What is behind the last `d` depends on the part that has it. -/
theorem lineTail_append_of_mem {t : List α} (h : d ∈ t) (s : List α) : lineTail d (s ++ t) = lineTail d t := by
  obtain ⟨front, rest, rfl, hfront⟩ := eq_append_cons_of_mem h
  rw [(lines_append d s _).2, ← append_assoc, lineTail_append_cons hfront]
  refine lineTail_append_cons ?_ rest
  rw [mem_append, not_or]
  exact ⟨notMem_lineTail d s, hfront⟩

theorem exists_eq_lineTail (h : d ∈ s) : ∃ front, s = front ++ d :: lineTail d s := by
  induction s using lines_induction d with
  | tail s hs => exact absurd h hs
  | line front rest hfront ih =>
    rw [lineTail_append_cons hfront]
    by_cases hrest : d ∈ rest
    · obtain ⟨mid, hmid⟩ := ih hrest
      refine ⟨front ++ d :: mid, ?_⟩
      rw [append_assoc, cons_append, ← hmid]
    · exact ⟨front, by rw [lineTail_of_notMem hrest]⟩

end Lines

section Trim

variable {α : Type*} {p : α → Bool} {s t : List α} {a : α}

/-- Neither the first element nor the last one is a blank. -/
structure Trimmed (p : α → Bool) (s : List α) : Prop where
  head : ∀ a ∈ s.head?, p a = false
  last : ∀ a ∈ s.getLast?, p a = false

theorem Trimmed.dropWhile_eq (h : Trimmed p s) : s.dropWhile p = s := by
  cases s with
  | nil => rfl
  | cons a s => rw [dropWhile_cons_of_neg (by simp [h.head a rfl])]

theorem Trimmed.dropWhile_append (h : Trimmed p s) (hne : s ≠ []) (t : List α) : (s ++ t).dropWhile p = s ++ t := by
  cases s with
  | nil => exact absurd rfl hne
  | cons a s => rw [cons_append, dropWhile_cons_of_neg (by simp [h.head a rfl])]

theorem Trimmed.rdropWhile_eq (h : Trimmed p s) : s.rdropWhile p = s := by
  rw [rdropWhile_eq_self_iff]
  intro hne
  simp [h.last _ (getLast?_eq_some_getLast hne)]

theorem trimmed_of_forall (h : ∀ a ∈ s, p a = false) : Trimmed p s :=
  ⟨fun a ha => h a (mem_of_head? ha), fun a ha => h a (mem_of_getLast? ha)⟩

theorem head_dropWhile (ha : a ∈ (s.dropWhile p).head?) : p a = false := by
  have hhead := head?_dropWhile_not p s
  rw [Option.mem_def.mp ha] at hhead
  exact hhead

/-- Blanks are taken off both ends. -/
theorem trimmed_rdropWhile (h : ∀ a ∈ s.head?, p a = false) : Trimmed p (s.rdropWhile p) := by
  constructor
  · intro a ha
    have hne : s.rdropWhile p ≠ [] := by
      rintro hnil
      rw [hnil] at ha
      cases ha
    obtain ⟨u, hu⟩ := rdropWhile_prefix (l := s) p
    rw [← hu, head?_append_of_ne_nil _ hne] at h
    exact h a ha
  · intro a ha
    have hne : s.rdropWhile p ≠ [] := by
      rintro hnil
      rw [hnil] at ha
      cases ha
    rw [getLast?_eq_some_getLast hne] at ha
    have hlast := rdropWhile_last_not p s hne
    rw [Option.some.inj ha] at hlast
    exact Bool.eq_false_iff.mpr hlast

/-- The last element of what is left behind the blanks is the last element. -/
theorem Trimmed.last_suffix (h : Trimmed p t) (hst : s <:+ t) : ∀ a ∈ s.getLast?, p a = false := by
  intro a ha
  obtain ⟨u, rfl⟩ := hst
  refine h.last a ?_
  rw [Option.mem_def, getLast?_append, Option.mem_def.mp ha]
  rfl

/-- Two trimmed parts with something between them that is no blank. -/
theorem Trimmed.join (hs : Trimmed p s) (hne : s ≠ []) (ha : p a = false) (ht : Trimmed p t) :
    Trimmed p (s ++ a :: t) := by
  constructor
  · rw [head?_append_of_ne_nil _ hne]
    exact hs.head
  · intro b hb
    rw [getLast?_append_cons, getLast?_cons] at hb
    cases hlast : t.getLast? with
    | none =>
      rw [hlast] at hb
      cases hb
      exact ha
    | some c =>
      rw [hlast] at hb
      cases hb
      exact ht.last c hlast

end Trim

end Fon9.Lib
