import Fon9.Lib.Pieces
import Fon9.Seed.Rights

/-! File names: a name is put together from its components, which may have slashes between quotation
marks or behind a backslash. What opens the file takes every slash for one between two parts. -/

namespace Fon9.Seed

open Lib List Dots

variable {s : Bytes} {items : List Bytes}

/-- `FilePath::NormalizeFileName`: the name, and what is left over where there is an error. -/
def normalizeFileName (fname : Bytes) : Bytes × Bytes :=
  let plist := splitPathList fname
  (mergePathList plist.1, plist.2)

/-- "index.html" -/
def indexName : Bytes := [ch 'i', ch 'n', ch 'd', ch 'e', ch 'x', ch '.', ch 'h', ch 't', ch 'm', ch 'l']

/-- `HttpHandlerStatic::OnHttpHandlerNotFound`: the name, behind the directory, of the file that is opened for a target. -/
def staticFileName (target : Bytes) : Option Bytes :=
  let r := normalizeFileName (strFetchNoTrim target (ch '?')).1
  if r.2 ≠ [] then none else some (if r.1 = [] then indexName else r.1)

/-- The parts of a file name, for the file system. -/
def fileParts (fname : Bytes) : List Bytes := fname.splitOn (ch '/')

theorem fileParts_joined (hne : items ≠ []) : fileParts (joined items) = items.flatMap fileParts := by
  induction items with
  | nil => exact absurd rfl hne
  | cons item items ih =>
    rw [flatMap_cons]
    cases items with
    | nil =>
      rw [joined, flatMap_nil, append_nil]
      exact congrArg fileParts (append_nil item)
    | cons next items =>
      rw [joined, slashed_joined (cons_ne_nil _ _), ← ih (cons_ne_nil _ _)]
      exact splitOn_append_cons_self item _

theorem normalizeFileName_some (h : components [] s = some items) : normalizeFileName s = (mergePathList items, []) := by
  have hsplit := splitPathLoop_components [] (Nat.lt_succ_self s.length)
  rw [h] at hsplit
  have hlist : splitPathList s = (items, []) := hsplit
  rw [normalizeFileName, hlist]

theorem normalizeFileName_none (h : components [] s = none) : (normalizeFileName s).2 ≠ [] := by
  have hsplit := splitPathLoop_components [] (Nat.lt_succ_self s.length)
  rw [h] at hsplit
  exact hsplit

/-- A component is fetched where no slash is. -/
theorem joined_head {item : Bytes} (hwell : WellSplit (item :: items)) (hname : Dots.IsName isHere isUp item) :
    (joined (item :: items)).head? ≠ some (ch '/') := by
  intro hhead
  obtain ⟨rest, hrest⟩ := head?_eq_some_iff.mp hhead
  have hsame : removePathHead (joined (item :: items)) = joined (item :: items) := item_head hwell hname _
  rw [hrest, removePathHead, dropWhile_cons_of_pos (by decide)] at hsame
  have hlen := congrArg length hsame
  have hle := (dropWhile_suffix (l := rest) fun c => c == ch '/').length_le
  rw [length_cons] at hlen
  omega

/-- A normalized file name: its parts are names wherever it is opened, it is normalized again to
itself, and it has the components of the text; there is none exactly where the text leads above the
start. -/
structure Normalizes (s : Bytes) : Prop where
  parts : ∀ r, normalizeFileName s = (r, []) → r ≠ [] → ∀ part ∈ fileParts r, Dots.IsName isHere isUp part
  inside : ∀ r, normalizeFileName s = (r, []) → ∀ root : List Bytes,
    ∃ names, Dots.walk isHere isUp root (fileParts r) = some (root ++ names)
  head : ∀ r, normalizeFileName s = (r, []) → r.head? ≠ some (ch '/')
  again : ∀ r, normalizeFileName s = (r, []) → normalizeFileName r = (r, [])
  resolved : ∀ r, normalizeFileName s = (r, []) →
    ∃ items, Dots.walk isHere isUp [] (segments s) = some items ∧ r = mergePathList items
  fails : (normalizeFileName s).2 ≠ [] ↔ ∃ pre, pre <+: segments s ∧
    (pre.countP fun seg => ¬ isHere seg ∧ ¬ isUp seg) < pre.countP fun seg => ¬ isHere seg ∧ isUp seg

theorem normalizeFileName_fails (s : Bytes) : (normalizeFileName s).2 ≠ [] ↔ ∃ pre, pre <+: segments s ∧
    (pre.countP fun seg => ¬ isHere seg ∧ ¬ isUp seg) < pre.countP fun seg => ¬ isHere seg ∧ isUp seg := by
  have habove := @Dots.walk_eq_none_iff _ isHere isUp _ _ (segments s) []
  simp only [length_nil, zero_add] at habove
  rw [← habove]
  cases hitems : components [] s with
  | none => exact iff_of_true (normalizeFileName_none hitems) hitems
  | some items =>
    rw [normalizeFileName_some hitems]
    refine iff_of_false (fun h => h rfl) fun h => ?_
    cases hitems.symm.trans h

/-- The parts of a name are names exactly when those of each component are. -/
theorem normalizes_iff (s : Bytes) : Normalizes s ↔ ∀ items, components [] s = some items →
    ∀ item ∈ items, ∀ part ∈ fileParts item, Dots.IsName isHere isUp part := by
  constructor
  · intro h items hitems item hitem part hpart
    have hne : items ≠ [] := List.ne_nil_of_mem hitem
    have hnames := components_names hitems
    have hjoined : mergePathList items ≠ [] := by
      rw [mergePathList_joined]
      cases items with
      | nil => exact absurd rfl hne
      | cons first items => exact joined_ne_nil (hnames first List.mem_cons_self)
    refine h.parts _ (normalizeFileName_some hitems) hjoined part ?_
    rw [mergePathList_joined, fileParts_joined hne]
    exact List.mem_flatMap.mpr ⟨item, hitem, hpart⟩
  · intro hparts
    have hsome : ∀ r, normalizeFileName s = (r, []) →
        ∃ items, components [] s = some items ∧ r = mergePathList items := by
      intro r hr
      cases hitems : components [] s with
      | none => exact absurd (congrArg Prod.snd hr) (normalizeFileName_none hitems)
      | some items => exact ⟨items, rfl, (congrArg Prod.fst (hr.symm.trans (normalizeFileName_some hitems)))⟩
    have hall : ∀ r, normalizeFileName s = (r, []) → r ≠ [] → ∀ part ∈ fileParts r, Dots.IsName isHere isUp part := by
      intro r hr hne part hpart
      obtain ⟨items, hitems, rfl⟩ := hsome r hr
      have hitemsNe : items ≠ [] := by
        rintro rfl
        exact hne rfl
      rw [mergePathList_joined, fileParts_joined hitemsNe] at hpart
      obtain ⟨item, hitem, hpart⟩ := List.mem_flatMap.mp hpart
      exact hparts items hitems item hitem part hpart
    refine ⟨hall, ?_, ?_, ?_, hsome, normalizeFileName_fails s⟩
    · intro r hr root
      by_cases hne : r = []
      · exact ⟨[], by rw [hne, List.append_nil]; rfl⟩
      · exact ⟨fileParts r, Dots.walk_of_names (hall r hr hne) root⟩
    · intro r hr
      obtain ⟨items, hitems, rfl⟩ := hsome r hr
      rw [mergePathList_joined]
      cases items with
      | nil => simp [joined]
      | cons item items =>
        obtain ⟨hwell, hnames⟩ := components_of_prefix hitems (List.prefix_refl _)
        exact joined_head hwell (hnames item List.mem_cons_self)
    · intro r hr
      obtain ⟨items, hitems, rfl⟩ := hsome r hr
      exact normalizeFileName_some (components_mergePathList hitems)

/-- "'a/../../x'" is one component, and leads out of the directory. -/
theorem not_normalizes : ¬ ∀ s : Bytes, Normalizes s := by
  intro h
  have hup := (h [ch '\'', ch 'a', ch '/', ch '.', ch '.', ch '/', ch '.', ch '.', ch '/', ch 'x', ch '\'']).parts _
    rfl (by decide) [ch '.', ch '.'] (by decide)
  exact hup.2 rfl

/-! ### The file of a target -/

/-- No quotation mark and no backslash. -/
def Plain (s : Bytes) : Prop := ∀ c ∈ s, c ≠ ch '\\' ∧ isQuotation c = false

theorem quotationSkip_plain {c : UInt8} (h : c ≠ ch '\\' ∧ isQuotation c = false) (s : Bytes) : quotationSkip c s = 0 := by
  rw [quotationSkip, if_neg h.1, h.2, if_neg Bool.false_ne_true]

theorem sbrFindSplit_plain (hplain : Plain s) (hslash : ch '/' ∉ s) (r : Bytes) :
    sbrFindSplit StrBrArg.quotation_ (s ++ ch '/' :: r) (ch '/') 0 = some s.length ∧
      sbrFindSplit StrBrArg.quotation_ s (ch '/') 0 = none := by
  induction s with
  | nil => exact ⟨sbrFindSplit_slash r, rfl⟩
  | cons c s ih =>
    obtain ⟨hc, hs⟩ := forall_mem_cons.mp hplain
    obtain ⟨hne, hslash⟩ := not_or.mp (mem_cons.not.mp hslash)
    obtain ⟨hsome, hnone⟩ := ih hs hslash
    rw [cons_append, sbrFindSplit_cons, sbrFindSplit_cons, if_neg (Ne.symm hne), if_neg (Ne.symm hne),
      quotationSkip_plain hc, quotationSkip_plain hc, hsome, hnone]
    exact ⟨rfl, rfl⟩

/-- Without quotations the file system finds the same slashes. -/
theorem segments_plain (h : Plain s) : segments s = fileParts s := by
  induction s using lines_induction (ch '/') with
  | tail s hs => rw [segments_none (sbrFindSplit_plain h hs []).2, fileParts, splitOn_eq_singleton hs]
  | line front rest hfront ih =>
    obtain ⟨hplain, hrest⟩ := forall_mem_append.mp h
    rw [segments_append (sbrFindSplit_plain hplain hfront rest).1, ih (forall_mem_cons.mp hrest).2, fileParts, fileParts,
      splitOn_append_cons_self_of_not_mem hfront]

theorem notMem_fileParts {part : Bytes} (h : part ∈ fileParts s) : ch '/' ∉ part := by
  induction s using lines_induction (ch '/') with
  | tail s hs =>
    rw [fileParts, splitOn_eq_singleton hs] at h
    rwa [mem_singleton.mp h]
  | line front rest hfront ih =>
    rw [fileParts, splitOn_append_cons_self_of_not_mem hfront] at h
    obtain rfl | h := mem_cons.mp h
    · exact hfront
    · exact ih h

/-- The file of a target without quotations is where the target leads to, and never outside of the directory;
none is opened exactly where the target leads above it. -/
theorem staticFileName_resolves (target : Bytes) (h : Plain (strFetchNoTrim target (ch '?')).1) (root : List Bytes) :
    match walk isHere isUp [] (fileParts (strFetchNoTrim target (ch '?')).1) with
    | none => staticFileName target = none
    | some names => ∃ fname, staticFileName target = some fname ∧
        walk isHere isUp root (fileParts fname) = some (root ++ if names = [] then [indexName] else names) := by
  have hcomponents : components [] (strFetchNoTrim target (ch '?')).1 =
      walk isHere isUp [] (fileParts (strFetchNoTrim target (ch '?')).1) := by
    rw [components, segments_plain h]
  rw [staticFileName]
  generalize (strFetchNoTrim target (ch '?')).1 = path at hcomponents
  cases hwalk : walk isHere isUp [] (fileParts path) with
  | none => exact if_pos (normalizeFileName_none (hcomponents.trans hwalk))
  | some names =>
    have hitems := hcomponents.trans hwalk
    refine ⟨_, (congrArg (fun r => if r.2 ≠ [] then _ else some (if r.1 = [] then indexName else r.1))
      (normalizeFileName_some hitems)).trans (if_neg fun h => h rfl), ?_⟩
    dsimp only
    cases names with
    | nil => exact walk_of_names (forall_mem_singleton.mpr ⟨by decide, by decide⟩) root
    | cons name names =>
      have hnames := components_names hitems
      have hparts : fileParts (joined (name :: names)) = name :: names := by
        rw [fileParts_joined (cons_ne_nil _ _)]
        refine (flatMap_congr fun item hitem => ?_).trans (flatMap_singleton' (name :: names))
        exact splitOn_eq_singleton (notMem_fileParts ((walk_sublist hwalk).subset hitem))
      rw [mergePathList_joined, if_neg (joined_ne_nil (hnames name mem_cons_self)), hparts, if_neg (cons_ne_nil _ _)]
      exact walk_of_names hnames root

/-- "/a/../b?../.." -/
theorem staticFileName_resolves_up : ∃ fname,
    staticFileName [ch '/', ch 'a', ch '/', ch '.', ch '.', ch '/', ch 'b', ch '?', ch '\'', ch '/'] = some fname ∧
      walk isHere isUp [[ch 'w']] (fileParts fname) = some [[ch 'w'], [ch 'b']] :=
  staticFileName_resolves [ch '/', ch 'a', ch '/', ch '.', ch '.', ch '/', ch 'b', ch '?', ch '\'', ch '/'] (by simp [Plain, strFetchNoTrim, ch, isQuotation])
    [[ch 'w']]

end Fon9.Seed
