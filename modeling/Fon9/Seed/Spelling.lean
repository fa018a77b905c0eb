import Fon9.Seed.Rights

/-! Two spellings of a path that lead to the same seed have the same rights in every access list
exactly when they have the same components. -/

namespace Fon9.Seed

open Lib AclPathParser

variable {s s' : Bytes} {items items' : List Bytes} {isVisitors isVisitors' : Bool}

/-- The texts are at the same root and become the same when what is passed over and what is taken
back is left out. -/
def SameComponents (s s' : Bytes) : Prop :=
  (place s).1 = (place s').1 ∧ ∃ short, Dots.Shortens isHere isUp (segments (place s).2) short ∧
    Dots.Shortens isHere isUp (segments (place s').2) short

theorem sameComponents_iff (h : components [] (place s).2 = some items) (h' : components [] (place s').2 = some items') :
    SameComponents s s' ↔ parserOf (place s).1 items = parserOf (place s').1 items' := by
  rw [SameComponents, ← Dots.walk_eq_iff h h']
  constructor
  · rintro ⟨hroot, rfl⟩
    rw [hroot]
  · intro heq
    exact partText_injective h h' (congrArg path heq)

/-! ### Answers -/

/-- What a request for a path is told, with an access list. -/
def SeedFairy.answer (fairy : SeedFairy) (acl : AccessList) (seed : Bytes) (needs : AccessRight) :
    OpResult × AccessRight :=
  let r := { fairy with acl := acl }.normalizeSeedPath seed needs
  (r.opResult, r.reRights)

/-- The rights of an entry. -/
def rightsOf (ac : Option AccessControl) : AccessRight := (ac.map (·.rights)).getD .none

/-- What the rights are worth. -/
def grants (rights needs : AccessRight) : OpResult × AccessRight :=
  (if rights = .none ∨ (needs ≠ .none ∧ isEnumContains rights needs = false) then OpResult.access_denied else .no_error,
    rights)

theorem answer_eq {fairy : SeedFairy} {seed : Bytes} {p : AclPathParser}
    (h : normalizePath (fairy.seedText seed) = .ok p) (acl : AccessList) (needs : AccessRight) :
    fairy.answer acl seed needs = grants (rightsOf (p.getAccess acl)) needs := by
  have htext : { fairy with acl := acl }.seedText seed = fairy.seedText seed := rfl
  rw [SeedFairy.answer, SeedFairy.normalizeSeedPath, htext, h]
  cases hac : p.getAccess acl with
  | none =>
    dsimp only
    rw [hac]
    rfl
  | some ac =>
    dsimp only
    rw [hac]
    rfl

/-- The entry of the path itself comes first. -/
theorem getAccess_path {p : AclPathParser} {acl : AccessList} {ac : AccessControl} (h : acl.find p.path = some ac) :
    p.getAccess acl = some ac := by
  rw [getAccess]
  cases p.indexEndPos.length with
  | zero => exact h
  | succ index => rw [getAccessLoop, h]

/-- The list that tells two paths apart. -/
def apart (path path' : Bytes) : AccessList := [(path, ⟨.full, 0⟩), (path', ⟨.read, 0⟩)]

theorem apart_answers {fairy : SeedFairy} {seed seed' : Bytes} {p p' : AclPathParser}
    (h : normalizePath (fairy.seedText seed) = .ok p)
    (h' : normalizePath (fairy.seedText seed') = .ok p') (hne : p.path ≠ p'.path) :
    fairy.answer (apart p.path p'.path) seed .none ≠ fairy.answer (apart p.path p'.path) seed' .none := by
  have hfirst : (apart p.path p'.path).find p.path = some ⟨.full, 0⟩ := List.lookup_cons_self
  have hsecond : (apart p.path p'.path).find p'.path = some ⟨.read, 0⟩ := by
    rw [AccessList.find, apart, List.lookup_cons, beq_eq_false_iff_ne.mpr (Ne.symm hne)]
    exact List.lookup_cons_self
  rw [answer_eq h, answer_eq h', getAccess_path hfirst, getAccess_path hsecond]
  decide

section Resolve

variable {Tree TreeOp PodOp : Type} {forest : Forest Tree TreeOp PodOp} {roots : SeedFairy.Root → Tree}
  {fairy : SeedFairy} {seed seed' : Bytes} {found : Forest.Found TreeOp PodOp}

/-- A path that leads to something has been normalized, and its components lead there. -/
theorem resolve_components (h : forest.resolve roots fairy seed = .ok found) :
    ∃ items, components [] (place (fairy.seedText seed)).2 = some items ∧
      normalizePath (fairy.seedText seed) = .ok (parserOf (place (fairy.seedText seed)).1 items) ∧
      forest.follow (roots (rootOf (place (fairy.seedText seed)).1)) items = .ok found := by
  have hnormal := normalizePath_components (fairy.seedText seed)
  cases hitems : components [] (place (fairy.seedText seed)).2 with
  | none =>
    rw [hitems] at hnormal
    obtain ⟨pos, hpos⟩ := hnormal
    rw [Forest.resolve, hpos] at h
    cases h
  | some items =>
    rw [hitems] at hnormal
    dsimp only at hnormal
    refine ⟨items, rfl, hnormal, ?_⟩
    rw [Forest.resolve, hnormal] at h
    exact (startSeedSearch_follow forest roots hitems).symm.trans h

/-- The rights of two spellings are the same in every access list exactly when these have the same
components; they are those of the longest run of components, from the root, that is in the list. -/
theorem rights_agree_iff (forest : Forest Tree TreeOp PodOp) (roots : SeedFairy.Root → Tree) (fairy : SeedFairy)
    (seed seed' : Bytes) (found : Forest.Found TreeOp PodOp) (h : forest.resolve roots fairy seed = .ok found)
    (h' : forest.resolve roots fairy seed' = .ok found) :
    ((∀ acl needs, fairy.answer acl seed needs = fairy.answer acl seed' needs) ↔
      SameComponents (fairy.seedText seed) (fairy.seedText seed')) ∧
    ∃ items, components [] (place (fairy.seedText seed)).2 = some items ∧
      forest.follow (roots (rootOf (place (fairy.seedText seed)).1)) items = .ok found ∧
      ∀ acl needs, fairy.answer acl seed needs =
        grants (rightsOf (longestAccess acl (place (fairy.seedText seed)).1 items)) needs := by
  obtain ⟨items, hitems, hnormal, hfollow⟩ := resolve_components h
  obtain ⟨items', hitems', hnormal', -⟩ := resolve_components h'
  refine ⟨⟨fun hall => ?_, fun hsame acl needs => ?_⟩, items, hitems, hfollow, fun acl needs => ?_⟩
  · by_contra hnot
    rw [sameComponents_iff hitems hitems'] at hnot
    refine apart_answers hnormal hnormal' (fun heq => hnot ?_) (hall _ _)
    obtain ⟨hroot, rfl⟩ := partText_injective hitems hitems' heq
    rw [hroot]
  · rw [sameComponents_iff hitems hitems'] at hsame
    rw [answer_eq hnormal, answer_eq hnormal', hsame]
  · rw [answer_eq hnormal, getAccess_longest]

/-- A tree with one tab and the key "A". -/
def oneSeed : Forest Unit Unit Unit where
  onTreeOp := fun _ => .ok ()
  onTabTreeOp := fun _ => .error .not_supported_tree_op
  tabs := fun _ => [[ch 'T']]
  get := fun _ keyText => if keyText = .text [ch 'A'] then .ok () else .error .not_found_key
  getSapling := fun _ _ => none

def atRoot : SeedFairy := ⟨[], [ch '/'], [ch '/']⟩

theorem rights_agree_dot :
    atRoot.answer [([ch '/', ch 'A'], ⟨.write, 0⟩)] [ch '/', ch 'A'] .write =
      atRoot.answer [([ch '/', ch 'A'], ⟨.write, 0⟩)] [ch '.', ch '/', ch 'A'] .write := by
  have hagree := rights_agree_iff oneSeed (fun _ => ()) atRoot [ch '/', ch 'A'] [ch '.', ch '/', ch 'A'] (.seed () () 0)
    (by decide) (by decide)
  have hseg : segments (place (atRoot.seedText [ch '/', ch 'A'])).2 = [[], [ch 'A']] := by decide
  have hseg' : segments (place (atRoot.seedText [ch '.', ch '/', ch 'A'])).2 = [[], [], [ch '.'], [ch 'A']] := by decide
  have hskip : ∀ (seg : Bytes) (segs : List Bytes), isHere seg → Dots.Shortens isHere isUp segs [[ch 'A']] →
      Dots.Shortens isHere isUp (seg :: segs) [[ch 'A']] :=
    fun seg segs hhere h => @Dots.Shortens.here _ _ _ seg [] segs _ hhere h
  refine hagree.1.mpr ⟨by decide, [[ch 'A']], ?_, ?_⟩ _ _
  · rw [hseg]
    exact hskip _ _ (.inl rfl) (.refl _)
  · rw [hseg']
    exact hskip _ _ (.inl rfl) (hskip _ _ (.inl rfl) (hskip _ _ (.inr rfl) (.refl _)))

/-- A key in quotation marks has the rights of the tree, not those of the key. -/
theorem not_rights_agree : ¬ ∀ (acl : AccessList) (seed seed' : Bytes) (found : Forest.Found Unit Unit),
    oneSeed.resolve (fun _ => ()) atRoot seed = .ok found → oneSeed.resolve (fun _ => ()) atRoot seed' = .ok found →
    ∀ needs, atRoot.answer acl seed needs = atRoot.answer acl seed' needs := by
  intro h
  have hquoted := h [([ch '/'], ⟨.full, 0⟩), ([ch '/', ch 'A'], ⟨.none, 0⟩)] [ch '/', ch 'A']
    [ch '/', ch '\'', ch 'A', ch '\''] (.seed () () 0) (by decide) (by decide) .read
  exact absurd hquoted (by decide)

end Resolve

end Fon9.Seed
