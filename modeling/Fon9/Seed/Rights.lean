import Fon9.Seed.Components

/-! The rights of a path and where it leads. Both depend on the components of the path and on
nothing else, and the rights tell different components apart. -/

namespace Fon9.Seed

open Lib List AclPathParser SeedFairy Nat

/-! ### Normalized paths -/

variable (isVisitors : Bool)

def headText : Bytes := if isVisitors then [ch '/', ch '.', ch '.'] else [ch '/']

def beginText : Bytes :=
  if isVisitors then [ch '/', ch '.', ch '.', ch '/'] else [ch '/']

/-- The text of components. -/
def partText (items : List Bytes) : Bytes :=
  if items = [] then headText isVisitors else beginText isVisitors ++ mergePathList items

/-- The parser that has normalized a path. -/
def parserOf (items : List Bytes) : AclPathParser where
  path := partText isVisitors items
  indexEndPos := if items = [] then []
    else (headText isVisitors).length :: AclPathParser.indexEnds (beginText isVisitors).length items

/-- The root of a path, and the path behind it. -/
def place (s : Bytes) : Bool × Bytes :=
  match isVisitorsTree s with
  | some rest => (true, rest)
  | none => (false, s)

variable {s s' : Bytes} {items items' : List Bytes} {isVisitors isVisitors' : Bool}

theorem normalizePath_place (s : Bytes) : normalizePath s =
    if (splitPathList (place s).2).2 ≠ [] then .error (splitPathList (place s).2).2
    else .ok (parserOf (place s).1 (splitPathList (place s).2).1) := by
  rw [normalizePath, place]
  cases isVisitorsTree s with
  | some rest =>
    dsimp only
    split
    · rfl
    · split
      · next hempty =>
        rw [parserOf, partText, hempty]
        rfl
      · next hempty =>
        rw [parserOf, partText, if_neg hempty, if_neg hempty]
        rfl
  | none =>
    dsimp only
    split
    · rfl
    · split
      · next hempty =>
        rw [parserOf, partText, hempty]
        rfl
      · next hempty =>
        rw [parserOf, partText, if_neg hempty, if_neg hempty]
        rfl

theorem normalizePath_components (s : Bytes) :
    match components [] (place s).2 with
    | some items => normalizePath s = .ok (parserOf (place s).1 items)
    | none => ∃ pos, normalizePath s = .error pos := by
  have hsplit := splitPathLoop_components [] (lt_succ_self (place s).2.length)
  rw [normalizePath_place]
  cases hitems : components [] (place s).2 with
  | some items =>
    rw [hitems] at hsplit
    have hlist : splitPathList (place s).2 = (items, []) := hsplit
    dsimp only
    rw [hlist]
    exact if_neg fun h => h rfl
  | none =>
    rw [hitems] at hsplit
    exact ⟨_, if_pos hsplit⟩

/-! ### The text tells the components -/

theorem components_of_prefix {plist : List Bytes} (h : components [] s = some items) (hpart : plist <+: items) :
    WellSplit plist ∧ ∀ item ∈ plist, Dots.IsName isHere isUp item := by
  have hsub : items.Sublist (segments s) := Dots.walk_sublist h
  exact ⟨wellSplit_sublist (hpart.sublist.trans hsub) (segments_wellSplit s).1,
    fun item hmem => components_names h item (hpart.subset hmem)⟩

/-- The segments of a normalized path. -/
theorem segments_partText (h : components [] s = some items) :
    segments ((partText isVisitors items).drop 1) =
      if isVisitors then [ch '.', ch '.'] :: items else if items = [] then [[]] else items := by
  rw [partText]
  by_cases hne : items = []
  · subst hne
    cases isVisitors with
    | true => rfl
    | false => rfl
  · have hseg := segments_mergePathList h hne
    rw [if_neg hne]
    cases isVisitors with
    | true =>
      rw [if_pos rfl]
      exact (segments_up _).trans (congrArg _ hseg)
    | false =>
      rw [if_neg Bool.false_ne_true, if_neg hne]
      exact hseg

/-- Components of two texts are the same when their normalized paths are. -/
theorem partText_injective (h : components [] s = some items) (h' : components [] s' = some items')
    (heq : partText isVisitors items = partText isVisitors' items') : isVisitors = isVisitors' ∧ items = items' := by
  have hseg := @segments_partText s items isVisitors h
  rw [heq, @segments_partText s' items' isVisitors' h'] at hseg
  have hup : ∀ {items : List Bytes} {s : Bytes}, components [] s = some items → ∀ rest,
      items ≠ [ch '.', ch '.'] :: rest := by
    rintro items s h rest rfl
    exact (components_names h _ mem_cons_self).2 rfl
  have hnil : ∀ {items : List Bytes} {s : Bytes}, components [] s = some items → items ≠ [[]] := by
    rintro items s h rfl
    exact (components_names h _ mem_cons_self).1 (.inl rfl)
  cases isVisitors with
  | true =>
    rw [if_pos rfl] at hseg
    cases isVisitors' with
    | true =>
      rw [if_pos rfl] at hseg
      injection hseg with _ hseg
      exact ⟨rfl, hseg.symm⟩
    | false =>
      rw [if_neg Bool.false_ne_true] at hseg
      split at hseg
      · cases hseg
      · exact absurd hseg (hup h' _)
  | false =>
    rw [if_neg Bool.false_ne_true] at hseg
    cases isVisitors' with
    | true =>
      rw [if_pos rfl] at hseg
      split at hseg
      · cases hseg
      · exact absurd hseg.symm (hup h _)
    | false =>
      rw [if_neg Bool.false_ne_true] at hseg
      refine ⟨rfl, ?_⟩
      split at hseg
      · next hempty' =>
        split at hseg
        · next hempty => exact hempty.trans hempty'.symm
        · exact absurd hseg.symm (hnil h)
      · split at hseg
        · exact absurd hseg (hnil h')
        · exact hseg.symm

theorem isVisitorsTree_partText (h : components [] s = some items) : isVisitorsTree (partText false items) = none := by
  have hseg := @segments_partText s items false h
  rw [if_neg Bool.false_ne_true] at hseg
  have hnot : ∀ segs, segments ((partText false items).drop 1) ≠ [ch '.', ch '.'] :: segs := by
    intro segs heq
    rw [hseg] at heq
    split at heq
    · cases heq
    · exact (components_names h [ch '.', ch '.'] (heq ▸ mem_cons_self)).2 rfl
  rw [isVisitorsTree, if_neg]
  rintro ⟨hhead, hrest⟩
  obtain ⟨r, hr⟩ : [ch '/', ch '.', ch '.'] <+: partText false items := hhead ▸ take_prefix 3 _
  rw [← hr] at hrest hnot
  rcases hrest with hlen | hnext
  · have hnil : r = [] := by
      rw [length_append] at hlen
      exact length_eq_zero_iff.mp (Nat.add_left_cancel (hlen : 3 + r.length = 3 + 0))
    subst hnil
    exact hnot [] rfl
  · cases r with
    | nil => cases hnext
    | cons c m =>
      obtain rfl : c = ch '/' := Option.some.inj hnext
      exact hnot (segments m) (segments_up m)

/-! ### The longest part that is in the list -/

/-- The rights of the longest part of a path that is in the access list. -/
def longestAccess (acl : AccessList) (isVisitors : Bool) (items : List Bytes) : Option AccessControl :=
  (List.range (items.length + 1)).reverse.findSome? fun k => acl.find (partText isVisitors (items.take k))

theorem joined_take {k : ℕ} (hk : 0 < k) (items : List Bytes) :
    joined items = joined (items.take k) ++ slashed (items.drop k) := by
  obtain ⟨k, rfl⟩ : ∃ j, k = j + 1 := ⟨k - 1, by omega⟩
  cases items with
  | nil => rfl
  | cons item items =>
    rw [take_succ_cons, drop_succ_cons, joined, joined, append_assoc]
    congr 1
    rw [slashed, slashed, slashed, ← flatMap_append, take_append_drop]

theorem indexEnds_getD {k : ℕ} (pos : ℕ) {items : List Bytes} (hk : k + 1 < items.length) :
    (indexEnds pos items).getD k 0 = pos + (joined (items.take (k + 1))).length := by
  induction items generalizing pos k with
  | nil => exact absurd hk (Nat.not_lt_zero _)
  | cons item items ih =>
    cases items with
    | nil => exact absurd hk (by rw [length_singleton]; omega)
    | cons next items =>
      rw [indexEnds, take_succ_cons, joined]
      cases k with
      | zero =>
        rw [getD_cons_zero, take_zero]
        exact congrArg (pos + ·) (congrArg length (append_nil item)).symm
      | succ k =>
        rw [getD_cons_succ, ih _ (lt_of_succ_lt_succ hk), length_append,
          slashed_joined (by rw [take_succ_cons]; exact cons_ne_nil _ _), length_cons]
        omega

/-- Where the parts of the path end. -/
theorem path_take {k : ℕ} (hk : k < items.length) :
    (parserOf isVisitors items).path.take ((parserOf isVisitors items).indexEndPos.getD k 0) =
      partText isVisitors (items.take k) := by
  have hne : items ≠ [] := by
    rintro rfl
    exact absurd hk (Nat.not_lt_zero _)
  rw [parserOf, partText, if_neg hne, if_neg hne]
  cases k with
  | zero =>
    cases isVisitors with
    | true => rfl
    | false => rfl
  | succ k =>
    have htake : items.take (k + 1) ≠ [] := by
      rw [Ne, take_eq_nil_iff]
      exact not_or_intro (succ_ne_zero k) hne
    rw [getD_cons_succ, indexEnds_getD _ hk, take_length_add_append, partText, if_neg htake,
      mergePathList_joined, mergePathList_joined, joined_take (succ_pos k) items, take_left]

/-- The rights are those of the longest part in the list. -/
theorem getAccess_longest (acl : AccessList) (isVisitors : Bool) (items : List Bytes) :
    (parserOf isVisitors items).getAccess acl = longestAccess acl isVisitors items := by
  have hloop : ∀ k ≤ items.length, (parserOf isVisitors items).getAccessLoop acl k (partText isVisitors (items.take k)) =
      (List.range (k + 1)).reverse.findSome? fun k => acl.find (partText isVisitors (items.take k)) := by
    intro k hk
    induction k with
    | zero =>
      rw [getAccessLoop, range_succ, reverse_concat, List.findSome?_cons]
      cases acl.find (partText isVisitors (items.take 0)) with
      | some ac => rfl
      | none => rfl
    | succ k ih =>
      rw [getAccessLoop, range_succ, reverse_concat, List.findSome?_cons, path_take hk,
        ih (le_of_succ_le hk)]
      cases acl.find (partText isVisitors (items.take (k + 1))) with
      | some ac => rfl
      | none => rfl
  have hlen : (parserOf isVisitors items).indexEndPos.length = items.length := by
    rw [parserOf]
    dsimp only
    split
    · next hempty => rw [hempty]; rfl
    · next hne =>
      have hends : ∀ (plist : List Bytes) (pos : ℕ) (item : Bytes),
          (indexEnds pos (item :: plist)).length = plist.length := by
        intro plist
        induction plist with
        | nil => exact fun pos item => rfl
        | cons next plist ih => exact fun pos item => congrArg Nat.succ (ih _ next)
      cases items with
      | nil => exact absurd rfl hne
      | cons item items => exact congrArg Nat.succ (hends items _ item)
  have hall := hloop items.length le_rfl
  rw [take_length] at hall
  rw [getAccess, hlen]
  exact hall

/-! ### Following components -/

section Follow

variable {Tree TreeOp PodOp : Type} (forest : Forest Tree TreeOp PodOp)

/-- A step for each component. -/
def Forest.follow : Tree → List Bytes → Except OpResult (Forest.Found TreeOp PodOp)
  | tree, [] => (forest.onTreeOp tree).map .tree
  | tree, item :: items => do
    let r ← forest.takeStep tree item
    if items = [] then return .seed r.1 r.2.1 r.2.2
    else
      match forest.getSapling r.2.1 r.2.2 with
      | some tree => follow tree items
      | none => .error .not_found_sapling

theorem item_head {item : Bytes} (hwell : WellSplit (item :: items)) (hname : Dots.IsName isHere isUp item) :
    ∀ rest, removePathHead (item ++ rest) = item ++ rest := by
  intro rest
  cases item with
  | nil => exact absurd (.inl rfl) hname.1
  | cons c item =>
    have hc : c ≠ ch '/' := by
      rintro rfl
      have hsplit := hwell.1
      rw [cons_append, sbrFindSplit_slash] at hsplit
      split at hsplit
      · cases hsplit
      · cases hsplit
    rw [cons_append, removePathHead, dropWhile_cons_of_neg]
    rw [beq_iff_eq]
    exact hc

theorem joined_ne_nil {item : Bytes} (hname : Dots.IsName isHere isUp item) : joined (item :: items) ≠ [] := by
  intro h
  exact hname.1 (.inl (append_eq_nil_iff.mp h).1)

/-- The searcher takes the components one after the other. -/
theorem searchLoop_follow {fuel : ℕ} (tree : Tree) (hwell : WellSplit items)
    (hnames : ∀ item ∈ items, Dots.IsName isHere isUp item) (hfuel : (joined items).length < fuel) :
    forest.searchLoop fuel tree (joined items) = forest.follow tree items := by
  induction items generalizing tree fuel with
  | nil =>
    obtain ⟨fuel, rfl⟩ : ∃ k, fuel = k + 1 := ⟨fuel - 1, by omega⟩
    rfl
  | cons item items ih =>
    obtain ⟨fuel, rfl⟩ : ∃ k, fuel = k + 1 := ⟨fuel - 1, by omega⟩
    have hname := hnames item mem_cons_self
    have hnames' := fun item' hmem => hnames item' (mem_cons_of_mem item hmem)
    have hfetch : sbrFetchNoTrim (joined (item :: items)) (ch '/') StrBrArg.quotation_ = (item, joined items) := by
      have hsplit := hwell.1
      rw [sbrFetchNoTrim, joined, hsplit]
      cases items with
      | nil => exact congrArg (fun s => (s, ([] : Bytes))) (append_nil item)
      | cons next items =>
        rw [if_neg (cons_ne_nil _ _), slashed_joined (cons_ne_nil _ _)]
        dsimp only
        rw [take_left, drop_append, drop_of_length_le (le_succ _), nil_append,
          Nat.add_sub_cancel_left]
        rfl
    have hhead : removePathHead (joined items) = joined items := by
      cases items with
      | nil => rfl
      | cons next items => exact item_head hwell.2 (hnames' next mem_cons_self) _
    rw [Forest.searchLoop, if_neg (joined_ne_nil hname), Forest.follow]
    dsimp only
    rw [hfetch]
    dsimp only
    rw [hhead]
    cases forest.takeStep tree item with
    | error e => rfl
    | ok r =>
      obtain ⟨op, pod, tab⟩ := r
      simp only [bind, Except.bind]
      cases items with
      | nil => rfl
      | cons next items =>
        rw [if_neg (joined_ne_nil (hnames' next mem_cons_self)), if_neg (cons_ne_nil _ _)]
        cases forest.getSapling pod tab with
        | none => rfl
        | some tree =>
          refine ih tree hwell.2 hnames' ?_
          have hlen : (joined (item :: next :: items)).length = item.length + ((joined (next :: items)).length + 1) := by
            rw [joined, slashed_joined (cons_ne_nil _ _), length_append, length_cons]
          omega

/-- The tree that a root stands for. -/
def rootOf (isVisitors : Bool) : SeedFairy.Root := if isVisitors then .visitorsTree else .root

theorem startSeedSearch_follow (roots : SeedFairy.Root → Tree) (h : components [] s = some items) :
    forest.startSeedSearch (roots (rootPath (partText isVisitors items)).1)
      (rootPath (partText isVisitors items)).2 = forest.follow (roots (rootOf isVisitors)) items := by
  obtain ⟨hwell, hnames⟩ := components_of_prefix h (prefix_refl items)
  have hhead : removePathHead (joined items) = joined items := by
    cases items with
    | nil => rfl
    | cons item items => exact item_head hwell (hnames item mem_cons_self) _
  have hslash : removePathHead (ch '/' :: joined items) = joined items := by
    rw [removePathHead, dropWhile_cons_of_pos (by decide)]
    exact hhead
  by_cases hne : items = []
  · subst hne
    cases isVisitors with
    | true => rfl
    | false => rfl
  · cases isVisitors with
    | true =>
      have hroot : rootPath (partText true items) = (.visitorsTree, ch '/' :: joined items) := by
        rw [rootPath, partText, if_neg hne, mergePathList_joined]
        have hvisitors : isVisitorsTree (beginText true ++ joined items) = some (ch '/' :: joined items) :=
          if_pos ⟨rfl, .inr rfl⟩
        rw [hvisitors]
      rw [hroot, Forest.startSeedSearch, hslash]
      exact searchLoop_follow forest _ hwell hnames (by dsimp only; rw [length_cons]; omega)
    | false =>
      have hroot : rootPath (partText false items) = (.root, ch '/' :: joined items) := by
        have hvisitors := @isVisitorsTree_partText s items h
        rw [rootPath, hvisitors, partText, if_neg hne, mergePathList_joined]
        rfl
      rw [hroot, Forest.startSeedSearch, hslash]
      exact searchLoop_follow forest _ hwell hnames (by dsimp only; rw [length_cons]; omega)

end Follow

end Fon9.Seed
