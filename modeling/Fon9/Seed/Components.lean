import Fon9.Lib.Dots
import Fon9.Seed.Acl

/-! The components of a path: what stands between the slashes that are not quoted. A path that is
put together from components that come from one text is split into the same components again. -/

namespace Fon9.Seed

open Lib List Option StrBrArg Dots Nat

/-! ### Splitting -/

variable {brArg : List StrBrPair} {d q : UInt8} {s x r r' : Bytes} {n k : ℕ}

/-- The mark is where it is, whatever follows. -/
theorem strSkipQuotationEnd_append {e : Bool} (h : strSkipQuotationEnd q e x = some n) (r : Bytes) :
    strSkipQuotationEnd q e (x ++ r) = some n := by
  induction x generalizing e n with
  | nil => cases h
  | cons c x ih =>
    rw [strSkipQuotationEnd] at h
    rw [cons_append, strSkipQuotationEnd]
    split at h
    · next hc =>
      rw [if_pos hc]
      exact h
    · next hc =>
      obtain ⟨m, hm, rfl⟩ := map_eq_some_iff.mp h
      rw [if_neg hc, ih hm]
      rfl

/-- A mark that is not in the first text is behind it. -/
theorem strSkipQuotationEnd_behind {e : Bool} (h : strSkipQuotationEnd q e (x ++ r) = some n)
    (hx : strSkipQuotationEnd q e x = none) : x.length ≤ n := by
  induction x generalizing e n with
  | nil => exact Nat.zero_le _
  | cons c x ih =>
    rw [cons_append, strSkipQuotationEnd] at h
    rw [strSkipQuotationEnd] at hx
    split at h
    · next hc =>
      rw [if_pos hc] at hx
      cases hx
    · next hc =>
      rw [if_neg hc, map_eq_none_iff] at hx
      obtain ⟨m, hm, rfl⟩ := map_eq_some_iff.mp h
      exact succ_le_succ (ih hm hx)

/-- There is no mark in two texts with a slash between them when there is none in either. -/
theorem strSkipQuotationEnd_slash (hq : q ≠ ch '/') (e : Bool) (x r : Bytes) :
    strSkipQuotationEnd q e (x ++ ch '/' :: r) = none ↔
      strSkipQuotationEnd q e x = none ∧ strSkipQuotationEnd q false r = none := by
  induction x generalizing e with
  | nil =>
    have hne : ¬ (ch '/' = q ∧ e = false) := fun h => hq h.1.symm
    have hesc : (ch '/' != q && ch '/' == ch '\\') = false := by
      rw [show (ch '/' == ch '\\') = false from rfl, Bool.and_false]
    have hslash : strSkipQuotationEnd q e (ch '/' :: r) = (strSkipQuotationEnd q false r).map (· + 1) := by
      rw [strSkipQuotationEnd.eq_2, if_neg hne, hesc]
    rw [nil_append, hslash, map_eq_none_iff]
    constructor
    · exact fun h => ⟨rfl, h⟩
    · exact fun h => h.2
  | cons c x ih =>
    rw [cons_append, strSkipQuotationEnd, strSkipQuotationEnd]
    split
    · constructor
      · exact nofun
      · exact fun h => h.1
    · rw [map_eq_none_iff, map_eq_none_iff]
      exact ih _

/-- The marks that open a quotation. -/
def isQuotation (c : UInt8) : Bool := c == ch '\'' || c == ch '"' || c == ch '`'

/-- How many bytes are passed over behind a byte. -/
def quotationSkip (c : UInt8) (s : Bytes) : ℕ :=
  if c = ch '\\' then 1
  else if isQuotation c then (strSkipQuotationEnd c false s).elim 0 (· + 1)
  else 0

theorem isQuotation_ne (h : isQuotation q = true) : q ≠ ch '/' := by
  rintro rfl
  exact absurd h (by decide)

theorem find_quotation (c : UInt8) : StrBrArg.find quotation_ c =
    if isQuotation c then some ⟨c, c, false⟩ else none := by
  rw [StrBrArg.find, quotation_, isQuotation, find?_cons, find?_cons, find?_cons, find?_nil]
  by_cases h1 : c = ch '\''
  · subst h1
    rfl
  · by_cases h2 : c = ch '"'
    · subst h2
      rfl
    · by_cases h3 : c = ch '`'
      · subst h3
        rfl
      · simp only [beq_eq_false_iff_ne.mpr h1, beq_eq_false_iff_ne.mpr h2, beq_eq_false_iff_ne.mpr h3,
          beq_eq_false_iff_ne.mpr (Ne.symm h1), beq_eq_false_iff_ne.mpr (Ne.symm h2),
          beq_eq_false_iff_ne.mpr (Ne.symm h3), Bool.or_self, Bool.false_eq_true, if_false]

theorem sbrFindSplit_cons (c : UInt8) (s : Bytes) (d : UInt8) :
    sbrFindSplit quotation_ (c :: s) d 0 =
      if c = d then some 0 else (sbrFindSplit quotation_ s d (quotationSkip c s)).map (· + 1) := by
  rw [sbrFindSplit, quotationSkip, find_quotation]
  cases isQuotation c with
  | false => rfl
  | true =>
    simp only [if_true, Bool.false_eq_true, if_false]
    cases strSkipQuotationEnd c false s with
    | none => rfl
    | some n => rfl

theorem sbrFindSplit_get (h : sbrFindSplit brArg s d k = some n) : s[n]? = some d := by
  induction s generalizing k n with
  | nil =>
    rw [sbrFindSplit] at h
    cases h
  | cons c s ih =>
    cases k with
    | succ k =>
      rw [sbrFindSplit] at h
      obtain ⟨m, hm, rfl⟩ := map_eq_some_iff.mp h
      exact ih hm
    | zero =>
      rw [sbrFindSplit] at h
      split at h
      · next hc =>
        cases h
        exact congrArg some hc
      · obtain ⟨m, hm, rfl⟩ := map_eq_some_iff.mp h
        exact ih hm

theorem sbrFindSplit_ge (h : sbrFindSplit brArg s d k = some n) : k ≤ n := by
  induction s generalizing k n with
  | nil =>
    rw [sbrFindSplit] at h
    cases h
  | cons c s ih =>
    cases k with
    | zero => exact Nat.zero_le _
    | succ k =>
      rw [sbrFindSplit] at h
      obtain ⟨m, hm, rfl⟩ := map_eq_some_iff.mp h
      exact succ_le_succ (ih hm)

/-- What is passed over before a slash does not depend on what is behind it. -/
theorem quotationSkip_item {c : UInt8}
    (h : quotationSkip c (x ++ ch '/' :: r) ≤ x.length)
    (hr : ∀ q, q ≠ ch '/' → strSkipQuotationEnd q false r = none → strSkipQuotationEnd q false r' = none) :
    quotationSkip c (x ++ ch '/' :: r') = quotationSkip c (x ++ ch '/' :: r) ∧
      quotationSkip c x = quotationSkip c (x ++ ch '/' :: r) := by
  rw [quotationSkip] at h ⊢
  rw [quotationSkip, quotationSkip]
  split
  · exact ⟨rfl, rfl⟩
  · next hesc =>
    rw [if_neg hesc] at h
    split
    · next hc =>
      rw [if_pos hc] at h
      have hslash := isQuotation_ne hc
      cases hskip : strSkipQuotationEnd c false x with
      | some pspl =>
        rw [strSkipQuotationEnd_append hskip, strSkipQuotationEnd_append hskip]
        exact ⟨rfl, rfl⟩
      | none =>
        cases hall : strSkipQuotationEnd c false (x ++ ch '/' :: r) with
        | some m =>
          -- the quotation would reach behind the slash
          have hle := strSkipQuotationEnd_behind hall hskip
          rw [hall] at h
          exact absurd h (not_le.mpr (lt_succ_of_le hle))
        | none =>
          have hrest := ((strSkipQuotationEnd_slash hslash false x r).mp hall).2
          rw [(strSkipQuotationEnd_slash hslash false x r').mpr ⟨hskip, hr c hslash hrest⟩]
          exact ⟨rfl, rfl⟩
    · exact ⟨rfl, rfl⟩

/-- The slash stays where it is when what follows closes no more quotation marks, and there is none
when nothing follows. -/
theorem sbrFindSplit_item (h : sbrFindSplit quotation_ (x ++ ch '/' :: r) (ch '/') k = some x.length)
    (hr : ∀ q, q ≠ ch '/' → strSkipQuotationEnd q false r = none → strSkipQuotationEnd q false r' = none) :
    sbrFindSplit quotation_ (x ++ ch '/' :: r') (ch '/') k = some x.length ∧
      sbrFindSplit quotation_ x (ch '/') k = none := by
  induction x generalizing k with
  | nil =>
    cases k with
    | succ k => exact absurd (sbrFindSplit_ge h) (not_succ_le_zero _)
    | zero =>
      rw [nil_append, sbrFindSplit_cons, if_pos rfl]
      exact ⟨rfl, rfl⟩
  | cons c x ih =>
    cases k with
    | succ k =>
      rw [cons_append, sbrFindSplit.eq_2] at h ⊢
      obtain ⟨m, hm, hlen⟩ := map_eq_some_iff.mp h
      cases hlen
      obtain ⟨hnext, hnone⟩ := ih hm
      rw [hnext, sbrFindSplit.eq_2, hnone]
      exact ⟨rfl, rfl⟩
    | zero =>
      rw [cons_append, sbrFindSplit_cons] at h ⊢
      rw [sbrFindSplit_cons]
      split at h
      · cases h
      · next hc =>
        obtain ⟨m, hm, hlen⟩ := map_eq_some_iff.mp h
        cases hlen
        obtain ⟨hskip, hskip'⟩ := quotationSkip_item (sbrFindSplit_ge hm) hr
        obtain ⟨hnext, hnone⟩ := ih hm
        rw [if_neg hc, if_neg hc, hskip, hskip', hnext, hnone]
        exact ⟨rfl, rfl⟩

/-! ### Segments -/

/-- Texts with a slash in front of each. -/
def slashed (segs : List Bytes) : Bytes := segs.flatMap fun seg => ch '/' :: seg

/-- The text that is split into the segments. -/
def joined : List Bytes → Bytes
  | [] => []
  | seg :: segs => seg ++ slashed segs

/-- What is between the slashes of a text. -/
def segmentsLoop : ℕ → Bytes → List Bytes
  | 0, _ => []
  | fuel + 1, s =>
    match sbrFindSplit StrBrArg.quotation_ s (ch '/') 0 with
    | some pDelim => s.take pDelim :: segmentsLoop fuel (s.drop (pDelim + 1))
    | none => [s]

def segments (s : Bytes) : List Bytes := segmentsLoop (s.length + 1) s

theorem segmentsLoop_fuel {fuel fuel' : ℕ} (h : s.length < fuel) (h' : s.length < fuel') :
    segmentsLoop fuel s = segmentsLoop fuel' s := by
  induction fuel generalizing s fuel' with
  | zero => exact absurd h (Nat.not_lt_zero _)
  | succ fuel ih =>
    obtain ⟨fuel', rfl⟩ : ∃ k, fuel' = k + 1 := ⟨fuel' - 1, by omega⟩
    rw [segmentsLoop, segmentsLoop]
    cases hsplit : sbrFindSplit quotation_ s (ch '/') 0 with
    | none => rfl
    | some pDelim =>
      have hlt : (s.drop (pDelim + 1)).length < s.length := by
        obtain ⟨hlen, -⟩ := List.getElem?_eq_some_iff.mp (sbrFindSplit_get hsplit)
        rw [length_drop]
        omega
      dsimp only
      rw [ih (by omega) (by omega : (s.drop (pDelim + 1)).length < fuel')]

theorem segments_some (h : sbrFindSplit quotation_ s (ch '/') 0 = some n) :
    segments s = s.take n :: segments (s.drop (n + 1)) := by
  obtain ⟨hlen, -⟩ := List.getElem?_eq_some_iff.mp (sbrFindSplit_get h)
  have hlt : (s.drop (n + 1)).length < s.length := by
    rw [length_drop]
    omega
  rw [segments, segmentsLoop, h]
  dsimp only
  rw [segments, segmentsLoop_fuel hlt (lt_succ_self _)]

theorem segments_none (h : sbrFindSplit quotation_ s (ch '/') 0 = none) : segments s = [s] := by
  rw [segments, segmentsLoop, h]

theorem segments_append (h : sbrFindSplit quotation_ (x ++ ch '/' :: r) (ch '/') 0 = some x.length) :
    segments (x ++ ch '/' :: r) = x :: segments r := by
  rw [segments_some h, take_left, drop_append, drop_of_length_le (le_succ _), nil_append,
    Nat.add_sub_cancel_left]
  rfl

/-- The segments are found again in their text, each behind the one before. -/
def WellSplit : List Bytes → Prop
  | [] => True
  | seg :: segs => sbrFindSplit StrBrArg.quotation_ (seg ++ slashed segs) (ch '/') 0 =
      (if segs = [] then none else some seg.length) ∧ WellSplit segs

variable {segs : List Bytes} {items : List Bytes}

theorem slashed_joined (h : segs ≠ []) : slashed segs = ch '/' :: joined segs := by
  cases segs with
  | nil => exact absurd rfl h
  | cons seg segs => rfl

theorem segments_joined {seg : Bytes} (h : WellSplit (seg :: segs)) :
    segments (joined (seg :: segs)) = seg :: segs := by
  induction segs generalizing seg with
  | nil =>
    have hsplit := h.1
    rw [if_pos rfl] at hsplit
    rw [joined, segments_none hsplit]
    exact congrArg (fun s => [s]) (append_nil seg)
  | cons next segs ih =>
    have hsplit := h.1
    rw [if_neg (cons_ne_nil _ _), slashed_joined (cons_ne_nil _ _)] at hsplit
    rw [joined, slashed_joined (cons_ne_nil _ _), segments_append hsplit, ih h.2]

theorem segments_wellSplit (s : Bytes) : WellSplit (segments s) ∧ joined (segments s) = s ∧ segments s ≠ [] := by
  induction hlen : s.length using Nat.strong_induction_on generalizing s with
  | _ len ih =>
    cases hsplit : sbrFindSplit quotation_ s (ch '/') 0 with
    | none =>
      rw [segments_none hsplit]
      refine ⟨⟨?_, trivial⟩, append_nil s, cons_ne_nil _ _⟩
      rw [if_pos rfl]
      exact (congrArg (fun s => sbrFindSplit quotation_ s (ch '/') 0) (append_nil s)).trans hsplit
    | some n =>
      obtain ⟨hn, hget⟩ := List.getElem?_eq_some_iff.mp (sbrFindSplit_get hsplit)
      have hdrop : s.drop n = ch '/' :: s.drop (n + 1) := by rw [drop_eq_getElem_cons hn, hget]
      obtain ⟨hwell, hjoin, hne⟩ := ih (s.drop (n + 1)).length (by rw [length_drop]; omega) _ rfl
      rw [segments_some hsplit]
      have hall : s.take n ++ slashed (segments (s.drop (n + 1))) = s := by
        rw [slashed_joined hne, hjoin, ← hdrop, take_append_drop]
      refine ⟨⟨?_, hwell⟩, hall, cons_ne_nil _ _⟩
      rw [hall, if_neg hne, hsplit, length_take, Nat.min_eq_left hn.le]

theorem joined_lacks {seg : Bytes} (hq : q ≠ ch '/') :
    strSkipQuotationEnd q false (joined (seg :: segs)) = none ↔
      ∀ s ∈ seg :: segs, strSkipQuotationEnd q false s = none := by
  induction segs generalizing seg with
  | nil =>
    rw [joined, forall_mem_singleton]
    exact iff_of_eq (congrArg (fun s => strSkipQuotationEnd q false s = none) (append_nil seg))
  | cons next segs ih =>
    rw [joined, slashed_joined (cons_ne_nil _ _), strSkipQuotationEnd_slash hq, ih]
    exact (forall_mem_cons (p := fun s => strSkipQuotationEnd q false s = none)).symm

theorem wellSplit_sublist {segs segs' : List Bytes} (h : segs'.Sublist segs) (hwell : WellSplit segs) :
    WellSplit segs' := by
  induction h with
  | slnil => trivial
  | cons seg h ih => exact ih hwell.2
  | @cons_cons segs' segs seg h ih =>
    refine ⟨?_, ih hwell.2⟩
    have hsplit := hwell.1
    cases segs with
    | nil =>
      obtain rfl := sublist_nil.mp h
      exact hsplit
    | cons next segs =>
      rw [if_neg (cons_ne_nil _ _), slashed_joined (cons_ne_nil _ _)] at hsplit
      cases segs' with
      | nil =>
        have hnone := (sbrFindSplit_item hsplit fun q _ h => h).2
        rw [if_pos rfl]
        exact (congrArg (fun s => sbrFindSplit quotation_ s (ch '/') 0) (append_nil seg)).trans hnone
      | cons next' segs' =>
        rw [if_neg (cons_ne_nil _ _), slashed_joined (cons_ne_nil _ _)]
        refine (sbrFindSplit_item hsplit fun q hq hlacks => ?_).1
        rw [joined_lacks hq] at hlacks ⊢
        exact fun s hs => hlacks s (h.subset hs)

/-! ### Components -/

/-- What is passed over. -/
def isHere (seg : Bytes) : Prop := seg = [] ∨ seg = [ch '.']

/-- What takes back the component before. -/
def isUp (seg : Bytes) : Prop := seg = [ch '.', ch '.']

instance : DecidablePred isHere := fun seg => inferInstanceAs (Decidable (seg = [] ∨ seg = [ch '.']))

instance : DecidablePred isUp := fun seg => inferInstanceAs (Decidable (seg = [ch '.', ch '.']))

theorem isUp_up : ¬ isHere [ch '.', ch '.'] ∧ isUp [ch '.', ch '.'] := by decide

variable (plist : List Bytes)

/-- The components behind those that are there; none if there are too many "..". -/
def components (s : Bytes) : Option (List Bytes) := Dots.walk isHere isUp plist (segments s)

theorem sbrFindSplit_slash (s : Bytes) :
    sbrFindSplit quotation_ (ch '/' :: s) (ch '/') 0 = some 0 := by
  rw [sbrFindSplit_cons, if_pos rfl]

theorem sbrFindSplit_dot (s : Bytes) : sbrFindSplit quotation_ (ch '.' :: s) (ch '/') 0 =
    (sbrFindSplit quotation_ s (ch '/') 0).map (· + 1) := by
  rw [sbrFindSplit_cons, if_neg (by decide)]
  rfl

theorem components_slash (s : Bytes) : components plist (ch '/' :: s) = components plist s := by
  have hseg : segments (ch '/' :: s) = [] :: segments s := @segments_append [] s (sbrFindSplit_slash s)
  rw [components, hseg, walk_here (.inl rfl)]
  rfl

theorem components_here (s : Bytes) :
    components plist (ch '.' :: ch '/' :: s) = components plist s := by
  have hseg : segments (ch '.' :: ch '/' :: s) = [ch '.'] :: segments s := by
    refine @segments_append [ch '.'] s ?_
    rw [singleton_append, sbrFindSplit_dot, sbrFindSplit_slash]
    rfl
  rw [components, hseg, walk_here (.inr rfl)]
  rfl

theorem segments_up (s : Bytes) :
    segments (ch '.' :: ch '.' :: ch '/' :: s) = [ch '.', ch '.'] :: segments s := by
  refine @segments_append [ch '.', ch '.'] s ?_
  rw [cons_append, singleton_append, sbrFindSplit_dot, sbrFindSplit_dot, sbrFindSplit_slash]
  rfl

theorem components_up {plist : List Bytes} (h : plist ≠ []) (s : Bytes) :
    components plist (ch '.' :: ch '.' :: ch '/' :: s) = components plist.dropLast s := by
  rw [components, segments_up, walk_up isUp_up h]
  rfl

/-- The item that is fetched. -/
def item (s : Bytes) : Bytes × Bytes := sbrFetchNoTrim s (ch '/') StrBrArg.quotation_

theorem item_length (h : s ≠ []) : (item s).2.length < s.length := by
  have hpos := length_pos_iff.mpr h
  rw [item, sbrFetchNoTrim]
  split
  · rw [length_drop]
    omega
  · exact hpos

theorem components_item (h : Dots.IsName isHere isUp (item s).1) (plist : List Bytes) :
    components plist s = components (plist ++ [(item s).1]) (item s).2 := by
  rw [item, sbrFetchNoTrim] at h ⊢
  cases hsplit : sbrFindSplit quotation_ s (ch '/') 0 with
  | none =>
    rw [hsplit] at h
    rw [components, segments_none hsplit, walk_name h]
    rfl
  | some n =>
    rw [hsplit] at h
    rw [components, segments_some hsplit, walk_name h]
    rfl

/-- What is fetched behind slashes and dots is a name. -/
theorem item_isName (hne : s ≠ []) (hslash : s.head? ≠ some (ch '/')) (hdot : s ≠ [ch '.'])
    (hhere : s.take 2 ≠ [ch '.', ch '/']) (hup : ¬ (s = [ch '.', ch '.'] ∨ s.take 3 = [ch '.', ch '.', ch '/'])) :
    Dots.IsName isHere isUp (item s).1 := by
  rw [not_or] at hup
  rw [item, sbrFetchNoTrim]
  cases hsplit : sbrFindSplit quotation_ s (ch '/') 0 with
  | none =>
    refine ⟨?_, hup.1⟩
    rintro (h | h)
    · exact hne h
    · exact hdot h
  | some n =>
    obtain ⟨hn, hget⟩ := List.getElem?_eq_some_iff.mp (sbrFindSplit_get hsplit)
    have htake : s.take (n + 1) = s.take n ++ [ch '/'] := by rw [take_succ_eq_append_getElem hn, hget]
    have hlen : (s.take n).length = n := by rw [length_take, Nat.min_eq_left hn.le]
    dsimp only
    refine ⟨?_, ?_⟩
    · rintro (h | h)
      · obtain rfl : n = 0 := by rw [← hlen, h]; rfl
        exact hslash (head?_eq_getElem?.trans (sbrFindSplit_get hsplit))
      · obtain rfl : n = 1 := by rw [← hlen, h]; rfl
        rw [htake, h] at hhere
        exact hhere rfl
    · intro h
      obtain rfl : n = 2 := by rw [← hlen, h]; rfl
      rw [htake, h] at hup
      exact hup.2 rfl

/-- A path is taken to its components, or some of it is left over. -/
def Splits : Option (List Bytes) → List Bytes × Bytes → Prop
  | some items, r => r = (items, [])
  | none, r => r.2 ≠ []

/-- The list of a path has its components. -/
theorem splitPathLoop_components {fuel : ℕ} (h : s.length < fuel) :
    Splits (components plist s) (splitPathLoop fuel plist s) := by
  induction fuel generalizing s plist with
  | zero => exact absurd h (Nat.not_lt_zero _)
  | succ fuel ih =>
    rw [splitPathLoop]
    split
    · next hslash =>
      obtain ⟨t, rfl⟩ := head?_eq_some_iff.mp hslash
      rw [components_slash]
      exact ih plist (lt_of_succ_lt_succ h)
    · next hslash =>
      split
      · next hdot =>
        subst hdot
        exact rfl
      · next hdot =>
        split
        · next hhere =>
          obtain ⟨t, rfl⟩ : [ch '.', ch '/'] <+: s := hhere ▸ take_prefix 2 s
          rw [cons_append, singleton_append, components_here]
          rw [length_append] at h
          have hlen : 2 + t.length < fuel + 1 := h
          exact ih plist (by
            show t.length < fuel
            omega)
        · next hhere =>
          split
          · next hup =>
            rcases hup with rfl | hup
            · cases plist with
              | nil => exact cons_ne_nil _ _
              | cons name plist =>
                rw [if_neg (cons_ne_nil _ _)]
                exact ih (name :: plist).dropLast (lt_of_succ_lt_succ (lt_of_succ_lt h))
            · obtain ⟨t, rfl⟩ : [ch '.', ch '.', ch '/'] <+: s := hup ▸ take_prefix 3 s
              cases plist with
              | nil =>
                have hnone : components [] ([ch '.', ch '.', ch '/'] ++ t) = none := by
                  rw [components]
                  exact (congrArg _ (segments_up t)).trans rfl
                rw [hnone, if_pos rfl]
                exact cons_ne_nil _ _
              | cons name plist =>
                have hstep : components (name :: plist) ([ch '.', ch '.', ch '/'] ++ t) =
                    components (name :: plist).dropLast t := components_up (cons_ne_nil _ _) t
                rw [length_append] at h
                have hlen : ([ch '.', ch '.', ch '/'] ++ t).length ≠ 2 := by
                  rw [length_append]
                  show 3 + t.length ≠ 2
                  omega
                rw [if_neg (cons_ne_nil _ _), if_neg hlen, hstep]
                exact ih _ (by
                  show t.length < fuel
                  have h : 3 + t.length < fuel + 1 := h
                  omega)
          · next hup =>
            by_cases hne : s = []
            · subst hne
              exact rfl
            · have hname := item_isName hne hslash hdot hhere hup
              rw [components_item hname]
              have hnot : ¬ (sbrFetchNoTrim s (ch '/') quotation_).1 = [] := fun h => hname.1 (.inl h)
              dsimp only
              rw [if_neg hnot]
              exact ih _ (lt_of_lt_of_le (item_length hne) (le_of_lt_succ h))

/-! ### Components put together again -/

theorem mergePathList_joined : mergePathList plist = joined plist := by
  cases plist with
  | nil => rfl
  | cons item plist =>
    rw [mergePathList, joined]
    induction plist generalizing item with
    | nil => exact (append_nil item).symm
    | cons next plist ih =>
      rw [foldl_cons, ih, append_assoc, append_assoc]
      rfl

theorem components_names (h : components [] s = some items) :
    ∀ item ∈ items, Dots.IsName isHere isUp item := walk_names h

/-- Components of one text are found again in what they are put together to. -/
theorem segments_mergePathList (h : components [] s = some items) (hne : items ≠ []) :
    segments (mergePathList items) = items := by
  have hsub : items.Sublist (segments s) := walk_sublist h
  have hwell := wellSplit_sublist hsub (segments_wellSplit s).1
  rw [mergePathList_joined]
  cases items with
  | nil => exact absurd rfl hne
  | cons item items => exact segments_joined hwell

/-- Components are found again in the text that is put together from them. -/
theorem components_mergePathList (h : components [] s = some items) :
    components [] (mergePathList items) = some items := by
  by_cases hne : items = []
  · subst hne
    rfl
  · rw [components, segments_mergePathList h hne]
    exact walk_of_names (components_names h) []

end Fon9.Seed
