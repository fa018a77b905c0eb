import Fon9.Lib.Pieces
import Fon9.Seed.Spelling

/-! The right that a command needs: it is chosen by what is behind the last slash of the text as it
is given, while the command runs where the components of the path lead. -/

namespace Fon9.Seed

open Lib List AclPathParser SeedFairy

def AccessRight.exec : AccessRight := 0x04
def AccessRight.apply : AccessRight := 0x80

/-- "edit" -/
def kTabTree_KeyEdit : Bytes := [ch 'e', ch 'd', ch 'i', ch 't']

/-- "apply" -/
def kTabTree_KeyApply : Bytes := [ch 'a', ch 'p', ch 'p', ch 'l', ch 'y']

def keyRight (key : Bytes) : AccessRight :=
  if key = kTabTree_KeyEdit then .write
  else if key = kTabTree_KeyApply then .apply
  else .exec

/-- `CheckCommandRight`, behind the last slash. -/
def tailRight (seed : Bytes) : AccessRight :=
  if seed.head? = some (ch '^') then
    let seed := seed.drop 1
    if ch ':' ∈ seed then keyRight (strFetchNoTrim seed (ch ':')).1 else .exec
  else .exec

def checkCommandRight (seed : Bytes) : AccessRight :=
  if ch '/' ∈ seed then tailRight (lineTail (ch '/') seed) else .exec

/-- What `TicketRunnerCommand` needs; without a command line the path is only changed. -/
def commandNeeds (seed cmdln : Bytes) : AccessRight := if cmdln = [] then .none else checkCommandRight seed

/-- The right of a step that the searcher takes: "^edit:tabName", "^apply:tabName", or another one. -/
def stepRight (item : Bytes) : AccessRight :=
  match parseStep item with
  | (true, .text keyText, _) => keyRight keyText
  | _ => .exec

variable {s seed : Bytes} {items : List Bytes} {isVisitors : Bool} {fairy : SeedFairy}

theorem stepRight_eq (item : Bytes) : stepRight item = tailRight item := by
  cases item with
  | nil => rfl
  | cons c item =>
    rw [stepRight, parseStep, tailRight, head?_cons]
    by_cases hc : c = ch '^'
    · subst hc
      have hmem : ch ':' ∈ ch '^' :: item ↔ ch ':' ∈ item := by
        rw [mem_cons]
        exact or_iff_right (by decide)
      have hfetch : (strFetchNoTrim (ch '^' :: item) (ch ':')).1 = ch '^' :: (strFetchNoTrim item (ch ':')).1 := by
        rw [strFetchNoTrim, if_neg (by decide)]
      rw [if_pos rfl, if_pos rfl, drop_one, tail_cons]
      by_cases hcolon : ch ':' ∈ item
      · rw [if_pos (hmem.mpr hcolon), if_pos hcolon]
        dsimp only
        rw [hfetch]
        rfl
      · rw [if_neg (mt hmem.mp hcolon), if_neg hcolon]
    · have hne : some c ≠ some (ch '^') := fun h => hc (Option.some.inj h)
      rw [if_neg hne, if_neg hne]

/-! ### What is behind the last slash -/

/-- What is behind the last slash of a path is behind the last slash of its last segment. -/
theorem lineTail_joined {segs : List Bytes} (h : segs ≠ []) :
    lineTail (ch '/') (joined segs) = lineTail (ch '/') (segs.getLast h) := by
  induction segs with
  | nil => exact absurd rfl h
  | cons seg segs ih =>
    cases segs with
    | nil =>
      rw [joined]
      exact congrArg (lineTail (ch '/')) (append_nil seg)
    | cons next segs =>
      have hcut : lineTail (ch '/') (ch '/' :: joined (next :: segs)) = lineTail (ch '/') (joined (next :: segs)) :=
        @lineTail_append_cons _ _ (ch '/') [] not_mem_nil _
      rw [joined, slashed_joined (cons_ne_nil _ _), lineTail_append_of_mem mem_cons_self, hcut,
        ih (cons_ne_nil _ _), getLast_cons (cons_ne_nil _ _)]

theorem tailRight_here : tailRight (lineTail (ch '/') []) = .exec ∧ tailRight (lineTail (ch '/') [ch '.']) = .exec ∧
    tailRight (lineTail (ch '/') [ch '.', ch '.']) = .exec := by
  decide

/-- The last segment is the last component, or it needs no more than `Exec`. -/
theorem tailRight_components (h : components [] s = some items) :
    tailRight (lineTail (ch '/') s) = .exec ∨
      ∃ item, items.getLast? = some item ∧ tailRight (lineTail (ch '/') s) = tailRight (lineTail (ch '/') item) := by
  obtain ⟨-, hjoin, hne⟩ := segments_wellSplit s
  have htail : lineTail (ch '/') s = lineTail (ch '/') ((segments s).getLast hne) := by
    rw [← lineTail_joined hne, hjoin]
  rw [components, ← dropLast_append_getLast hne, Dots.walk_append, Option.bind_eq_some_iff] at h
  obtain ⟨names, -, hlast⟩ := h
  rw [htail]
  generalize (segments s).getLast hne = seg at hlast
  rw [Dots.walk] at hlast
  split at hlast
  · next hhere =>
    rcases hhere with rfl | rfl
    · exact .inl tailRight_here.1
    · exact .inl tailRight_here.2.1
  · split at hlast
    · next hup =>
      obtain rfl : seg = [ch '.', ch '.'] := hup
      exact .inl tailRight_here.2.2
    · cases hlast
      exact .inr ⟨seg, getLast?_concat, rfl⟩

/-- Behind the root of the visitors there is nothing, or a slash. -/
theorem place_true {rest : Bytes} (h : isVisitorsTree s = some rest) :
    s = [ch '/', ch '.', ch '.'] ++ rest ∧ (rest = [] ∨ ch '/' ∈ rest) := by
  rw [isVisitorsTree] at h
  split at h
  · next hcond =>
    obtain ⟨hhead, hrest⟩ := hcond
    obtain ⟨r, rfl⟩ : [ch '/', ch '.', ch '.'] <+: s := hhead ▸ take_prefix 3 s
    obtain rfl := Option.some.inj h
    refine ⟨rfl, ?_⟩
    cases r with
    | nil => exact .inl rfl
    | cons c r =>
      rcases hrest with hlen | hnext
      · simp at hlen
      · have hc : c = ch '/' := by simpa using hnext
        exact .inr (hc ▸ mem_cons_self)
  · cases h

theorem tailRight_place (s : Bytes) :
    tailRight (lineTail (ch '/') s) = tailRight (lineTail (ch '/') (place s).2) := by
  rw [place]
  cases hroot : isVisitorsTree s with
  | none => rfl
  | some rest =>
    obtain ⟨rfl, hrest⟩ := place_true hroot
    rcases hrest with rfl | hrest
    · decide
    · dsimp only
      rw [lineTail_append_of_mem hrest]

theorem lineTail_seedText (h : ch '/' ∈ seed) (fairy : SeedFairy) :
    lineTail (ch '/') (fairy.seedText seed) = lineTail (ch '/') seed := by
  rw [seedText]
  split
  · rfl
  · split
    · next hhome =>
      obtain ⟨rest, rfl⟩ := head?_eq_some_iff.mp hhome
      have hrest : ch '/' ∈ rest := by
        rcases mem_cons.mp h with heq | hrest
        · exact absurd heq (by decide)
        · exact hrest
      rw [drop_one, tail_cons, lineTail_append_of_mem hrest]
      exact (lineTail_append_of_mem hrest [ch '~']).symm
    · rw [lineTail_append_of_mem h]

/-- The fairy takes the path to the components. -/
def Resolves (fairy : SeedFairy) (seed : Bytes) (isVisitors : Bool) (items : List Bytes) : Prop :=
  AclPathParser.normalizePath (fairy.seedText seed) = .ok (parserOf isVisitors items)

theorem Resolves.components (h : Resolves fairy seed isVisitors items) (hitems : Seed.components [] s = some items) :
    Seed.components [] (place (fairy.seedText seed)).2 = some items := by
  have hnormal := normalizePath_components (fairy.seedText seed)
  cases hcomp : Seed.components [] (place (fairy.seedText seed)).2 with
  | none =>
    rw [hcomp] at hnormal
    obtain ⟨pos, hpos⟩ := hnormal
    cases hpos.symm.trans h
  | some items' =>
    rw [hcomp] at hnormal
    have heq : parserOf (place (fairy.seedText seed)).1 items' = parserOf isVisitors items :=
      Except.ok.inj (hnormal.symm.trans h)
    rw [(partText_injective hcomp hitems (congrArg path heq)).2]

/-- A path needs no more than `Exec`, or what is behind the last slash of its last component says. -/
theorem checkCommandRight_cases (h : Resolves fairy seed isVisitors items) (hitems : components [] s = some items) :
    checkCommandRight seed = .exec ∨
      ∃ item, items.getLast? = some item ∧ checkCommandRight seed = tailRight (lineTail (ch '/') item) := by
  rw [checkCommandRight]
  split
  · next hslash =>
    rw [← lineTail_seedText hslash fairy, tailRight_place]
    exact tailRight_components (h.components hitems)
  · exact .inl rfl

/-! ### Two spellings of a path -/

theorem place_partText (h : components [] s = some items) (hne : items ≠ []) (isVisitors : Bool) :
    place (partText isVisitors items) = (isVisitors, ch '/' :: mergePathList items) := by
  rw [place]
  cases isVisitors with
  | true =>
    have hroot : isVisitorsTree (partText true items) = some (ch '/' :: mergePathList items) := by
      rw [partText, if_neg hne]
      exact if_pos ⟨rfl, .inr rfl⟩
    rw [hroot]
  | false =>
    rw [isVisitorsTree_partText h, partText, if_neg hne]
    rfl

theorem normalizePath_partText (h : components [] s = some items) (hne : items ≠ []) (isVisitors : Bool) :
    normalizePath (partText isVisitors items) = .ok (parserOf isVisitors items) := by
  have hnormal := normalizePath_components (partText isVisitors items)
  rw [place_partText h hne, components_slash, components_mergePathList h] at hnormal
  exact hnormal

theorem mem_partText (hne : items ≠ []) : ch '/' ∈ partText isVisitors items := by
  rw [partText, if_neg hne]
  refine mem_append_left _ ?_
  cases isVisitors with
  | true => decide
  | false => decide

theorem lineTail_partText {item : Bytes} (hlast : items.getLast? = some item) :
    lineTail (ch '/') (partText isVisitors items) = lineTail (ch '/') item := by
  have hne : items ≠ [] := by
    rintro rfl
    cases hlast
  have hitem : items.getLast hne = item := Option.some.inj ((getLast?_eq_some_getLast hne).symm.trans hlast)
  have hbegin : ∃ front, beginText isVisitors = front ++ [ch '/'] := by
    cases isVisitors with
    | true => exact ⟨[ch '/', ch '.', ch '.'], rfl⟩
    | false => exact ⟨[], rfl⟩
  obtain ⟨front, hfront⟩ := hbegin
  have hcut : lineTail (ch '/') (ch '/' :: joined items) = lineTail (ch '/') (joined items) :=
    @lineTail_append_cons _ _ (ch '/') [] not_mem_nil _
  rw [partText, if_neg hne, mergePathList_joined, hfront, append_assoc, singleton_append,
    lineTail_append_of_mem mem_cons_self, hcut, lineTail_joined hne, hitem]

/-- The path as it is, from the root. -/
theorem resolves_partText (h : components [] s = some items) (hne : items ≠ []) (fairy : SeedFairy) :
    Resolves fairy (partText isVisitors items) isVisitors items := by
  have hhead : (partText isVisitors items).head? = some (ch '/') := by
    rw [partText, if_neg hne]
    cases isVisitors with
    | true => rfl
    | false => rfl
  rw [Resolves, seedText, if_pos hhead]
  exact normalizePath_partText h hne isVisitors

theorem checkCommandRight_partText {item : Bytes} (hlast : items.getLast? = some item) :
    checkCommandRight (partText isVisitors items) = tailRight (lineTail (ch '/') item) := by
  have hne : items ≠ [] := by
    rintro rfl
    cases hlast
  rw [checkCommandRight, if_pos (mem_partText hne), lineTail_partText hlast]

/-- What is behind the last slash, from the path before it. -/
theorem resolves_lineTail {item : Bytes} (h : components [] s = some items) (hlast : items.getLast? = some item)
    (hright : tailRight (lineTail (ch '/') item) ≠ .exec) :
    ∃ fairy : SeedFairy, Resolves fairy (lineTail (ch '/') item) isVisitors items := by
  have hne : items ≠ [] := by
    rintro rfl
    cases hlast
  obtain ⟨front, hfront⟩ := exists_eq_lineTail (@mem_partText items isVisitors hne)
  rw [lineTail_partText hlast] at hfront
  have hhead : (lineTail (ch '/') item).head? = some (ch '^') := by
    by_contra hnot
    rw [tailRight, if_neg hnot] at hright
    exact hright rfl
  refine ⟨⟨[], [], front⟩, ?_⟩
  have htext : seedText ⟨[], [], front⟩ (lineTail (ch '/') item) = partText isVisitors items := by
    rw [seedText, hhead, if_neg (by decide), if_neg (by decide), hfront, append_assoc, singleton_append]
  rw [Resolves, htext]
  exact normalizePath_partText h hne isVisitors

/-- All texts that a fairy takes to the path need the same right, and the one of its last step. -/
def OneRight (isVisitors : Bool) (items : List Bytes) : Prop :=
  ∀ (fairy : SeedFairy) (seed cmdln : Bytes), cmdln ≠ [] → Resolves fairy seed isVisitors items →
    (∀ seed', Resolves fairy seed' isVisitors items → commandNeeds seed' cmdln = commandNeeds seed cmdln) ∧
    ∀ item, items.getLast? = some item → stepRight item ≠ .exec → commandNeeds seed cmdln = stepRight item

theorem oneRight_iff (s : Bytes) (items : List Bytes) (isVisitors : Bool) (h : components [] s = some items) :
    OneRight isVisitors items ↔
      ∀ item, items.getLast? = some item → stepRight item = .exec ∧ stepRight (lineTail (ch '/') item) = .exec := by
  constructor
  · intro hone item hlast
    have hne : items ≠ [] := by
      rintro rfl
      cases hlast
    have hcmdln : [ch 'x'] ≠ ([] : Bytes) := List.cons_ne_nil _ _
    have hbehind : stepRight (lineTail (ch '/') item) = .exec := by
      by_contra hright
      rw [stepRight_eq] at hright
      obtain ⟨fairy, hresolves⟩ := @resolves_lineTail s items isVisitors item h hlast hright
      have hsame := (hone fairy _ _ hcmdln hresolves).1 _ (resolves_partText h hne fairy)
      rw [commandNeeds, if_neg hcmdln, checkCommandRight_partText hlast, commandNeeds, if_neg hcmdln, checkCommandRight,
        if_neg (notMem_lineTail _ _)] at hsame
      exact hright hsame
    refine ⟨?_, hbehind⟩
    by_contra hright
    have hneeds := (hone ⟨[], [], []⟩ _ _ hcmdln (resolves_partText h hne _)).2 item hlast hright
    rw [commandNeeds, if_neg hcmdln, checkCommandRight_partText hlast, ← stepRight_eq, hbehind] at hneeds
    exact hright hneeds.symm
  · intro hlast fairy seed cmdln hcmdln hresolves
    have hexec : ∀ seed, Resolves fairy seed isVisitors items → commandNeeds seed cmdln = .exec := by
      intro seed hresolves
      rw [commandNeeds, if_neg hcmdln]
      rcases checkCommandRight_cases hresolves h with hexec | ⟨item, hitem, hright⟩
      · exact hexec
      · rw [hright, ← stepRight_eq]
        exact (hlast item hitem).2
    refine ⟨fun seed' hresolves' => ?_, fun item hitem hright => absurd (hlast item hitem).1 hright⟩
    rw [hexec seed' hresolves', hexec seed hresolves]

/-- "/a" -/
theorem oneRight_plain : OneRight false [[ch 'a']] := by
  refine (oneRight_iff [ch '/', ch 'a'] [[ch 'a']] false (by decide)).mpr ?_
  intro item hitem
  obtain rfl := Option.some.inj hitem
  decide

/-- "/^edit:T", and with a slash behind it. -/
theorem not_oneRight : ¬ ∀ (s : Bytes) (items : List Bytes) (isVisitors : Bool), components [] s = some items →
    OneRight isVisitors items := by
  intro h
  have hedit := h ([ch '/', ch '^'] ++ kTabTree_KeyEdit ++ [ch ':', ch 'T']) [ch '^' :: kTabTree_KeyEdit ++ [ch ':', ch 'T']] false
    (by decide)
  have hneeds := (hedit atRoot ([ch '/', ch '^'] ++ kTabTree_KeyEdit ++ [ch ':', ch 'T', ch '/']) [ch 'x'] (by decide)
    rfl).2 _ rfl (by decide)
  exact absurd hneeds (by decide)

end Fon9.Seed
