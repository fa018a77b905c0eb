import Fon9.Base.StrTo

/-! Access rights of seeds: a path is normalized, and the rights are those of the longest part of
the normalized text that is in the access list. Text is split where brackets and quotation marks
are closed.

The searcher: a path is followed from a tree, a key and a tab at each step. What the trees hold is
not looked into. -/

namespace Fon9

/-- A bracket and the one that closes it; between quotation marks nothing nests. -/
structure StrBrPair where
  left : UInt8
  right : UInt8
  isAllowNest : Bool
  deriving DecidableEq, Repr

namespace StrBrArg

def quotation_ : List StrBrPair :=
  [⟨ch '\'', ch '\'', false⟩, ⟨ch '"', ch '"', false⟩, ⟨ch '`', ch '`', false⟩]

def default_ : List StrBrPair :=
  [⟨ch '{', ch '}', true⟩, ⟨ch '[', ch ']', true⟩, ⟨ch '(', ch ')', true⟩] ++ quotation_

def find (brArg : List StrBrPair) (chLeft : UInt8) : Option StrBrPair := List.find? (·.left == chLeft) brArg

end StrBrArg

/-- `StrSkipQuotationEnd`: where the quotation mark is that is not behind a `\`. -/
def strSkipQuotationEnd (chEndQ : UInt8) : Bool → Bytes → Option ℕ
  | _, [] => none
  | isEscaped, c :: s =>
    if c = chEndQ ∧ isEscaped = false then some 0
    else (strSkipQuotationEnd chEndQ (c != chEndQ && c == ch '\\') s).map (· + 1)

/-- `SbrFindSplit`: where the delimiter is. The number is how many bytes are passed over first: the
one behind a `\`, or what is between brackets that are closed. -/
def sbrFindSplit (brArg : List StrBrPair) : Bytes → UInt8 → ℕ → Option ℕ
  | [], _, _ => none
  | _ :: s, chDelim, skip + 1 => (sbrFindSplit brArg s chDelim skip).map (· + 1)
  | c :: s, chDelim, 0 =>
    if c = chDelim then some 0
    else
      let skip :=
        if c = ch '\\' then 1
        else
          match StrBrArg.find brArg c with
          | none => 0
          | some br =>
            match if br.isAllowNest then sbrFindSplit brArg s br.right 0 else strSkipQuotationEnd br.right false s with
            | some pspl => pspl + 1
            | none => 0
      (sbrFindSplit brArg s chDelim skip).map (· + 1)

/-- `SbrFetchNoTrim`: what is before the delimiter, and what is behind it. -/
def sbrFetchNoTrim (src : Bytes) (chDelim : UInt8) (brArg : List StrBrPair) : Bytes × Bytes :=
  match sbrFindSplit brArg src chDelim 0 with
  | some pDelim => (src.take pDelim, src.drop (pDelim + 1))
  | none => (src, [])

/-- `SbrFetchInsideNoTrim`: what is between brackets, and what is behind them. -/
def sbrFetchInsideNoTrim (src : Bytes) (brArg : List StrBrPair) : Option Bytes × Bytes :=
  match src with
  | [] => (none, src)
  | c :: s =>
    match StrBrArg.find brArg c with
    | none => (none, src)
    | some br =>
      match if br.isAllowNest then sbrFindSplit brArg s br.right 0 else strSkipQuotationEnd br.right false s with
      | some pBrEnd => (some (s.take pBrEnd), s.drop (pBrEnd + 1))
      | none => (some s, [])

end Fon9

namespace Fon9.Seed

/-! ### Paths -/

/-- `FilePath::SplitPathList`, one round of its loops: slashes and dots are taken off the front, or
an item is fetched. The round ends with what is left of the name, which is an error unless nothing is. -/
def splitPathLoop : ℕ → List Bytes → Bytes → List Bytes × Bytes
  | 0, plist, fname => (plist, fname)
  | fuel + 1, plist, fname =>
    let fetch := fun (fname : Bytes) =>
      let item := sbrFetchNoTrim fname (ch '/') StrBrArg.quotation_
      if item.1 = [] then (plist, item.2) else splitPathLoop fuel (plist ++ [item.1]) item.2
    if fname.head? = some (ch '/') then splitPathLoop fuel plist (fname.drop 1)
    else if fname = [ch '.'] then fetch []
    else if fname.take 2 = [ch '.', ch '/'] then splitPathLoop fuel plist (fname.drop 2)
    else if fname = [ch '.', ch '.'] ∨ fname.take 3 = [ch '.', ch '.', ch '/'] then
      if plist = [] then ([], fname)
      else splitPathLoop fuel plist.dropLast (fname.drop (if fname.length = 2 then 2 else 3))
    else fetch fname

def splitPathList (fname : Bytes) : List Bytes × Bytes := splitPathLoop (fname.length + 1) [] fname

/-- `FilePath::MergePathList`. -/
def mergePathList : List Bytes → Bytes
  | [] => []
  | item :: plist => plist.foldl (fun res i => res ++ [ch '/'] ++ i) item

/-- `FilePath::RemovePathHead`. -/
def removePathHead (path : Bytes) : Bytes := path.dropWhile (· == ch '/')

/-! ### Access lists -/

abbrev AccessRight := UInt8

def AccessRight.none : AccessRight := 0x00
def AccessRight.full : AccessRight := 0xff
def AccessRight.read : AccessRight := 0x01
def AccessRight.write : AccessRight := 0x02

/-- `IsEnumContains`. -/
def isEnumContains (rights needs : AccessRight) : Bool := rights &&& needs == needs

structure AccessControl where
  rights : AccessRight
  maxSubrCount : UInt32 := 0
  deriving DecidableEq, Repr

/-- `AccessList`: the paths are different. -/
abbrev AccessList := List (Bytes × AccessControl)

def AccessList.find (acl : AccessList) (path : Bytes) : Option AccessControl := acl.lookup path

inductive OpResult
  | no_error
  | access_denied
  | path_format_error
  | not_supported_tree_op
  | not_found_key
  | not_found_tab
  | not_found_sapling
  deriving DecidableEq, Repr

/-- `IsVisitorsTree`: what is behind "/..". -/
def isVisitorsTree (seedPath : Bytes) : Option Bytes :=
  if seedPath.take 3 = [ch '/', ch '.', ch '.'] ∧ (seedPath.length = 3 ∨ seedPath[3]? = some (ch '/')) then
    some (seedPath.drop 3)
  else none

/-- A normalized path, and where its parts end. -/
structure AclPathParser where
  path : Bytes
  indexEndPos : List ℕ
  deriving DecidableEq, Repr

namespace AclPathParser

/-- The ends behind the first, where `pos` is the beginning of the items. -/
def indexEnds (pos : ℕ) : List Bytes → List ℕ
  | [] => []
  | [_] => []
  | item :: next :: plist => (pos + item.length) :: indexEnds (pos + item.length + 1) (next :: plist)

/-- `NormalizePath`: the parser, or where the path is wrong. -/
def normalizePath (path : Bytes) : Except Bytes AclPathParser :=
  let head : Bytes × Bytes :=
    match isVisitorsTree path with
    | some rest => ([ch '/', ch '.', ch '.'], rest)
    | none => ([ch '/'], path)
  let plist := splitPathList head.2
  if plist.2 ≠ [] then .error plist.2
  else if plist.1 = [] then .ok ⟨head.1, []⟩
  else
    let pos := head.1.length
    let begin := if pos = 3 then head.1 ++ [ch '/'] else head.1
    .ok ⟨begin ++ mergePathList plist.1, pos :: indexEnds begin.length plist.1⟩

/-- The rounds of `GetAccess`, from the whole path to shorter ones. -/
def getAccessLoop (p : AclPathParser) (acl : AccessList) : ℕ → Bytes → Option AccessControl
  | 0, path => acl.find path
  | index + 1, path =>
    match acl.find path with
    | some ac => some ac
    | none => p.getAccessLoop acl index (p.path.take (p.indexEndPos.getD index 0))

def getAccess (p : AclPathParser) (acl : AccessList) : Option AccessControl :=
  p.getAccessLoop acl p.indexEndPos.length p.path

end AclPathParser

/-! ### The fairy -/

structure SeedFairy where
  acl : AccessList
  home : Bytes
  currPath : Bytes

namespace SeedFairy

variable (fairy : SeedFairy) (seed : Bytes)

/-- The text that is normalized. -/
def seedText : Bytes :=
  if seed.head? = some (ch '/') then seed
  else if seed.head? = some (ch '~') then fairy.home ++ [ch '/'] ++ seed.drop 1
  else fairy.currPath ++ [ch '/'] ++ seed

/-- What a request for a path comes to: `seed` is the normalized path, or where it is wrong. -/
structure SeedPath where
  opResult : OpResult
  seed : Bytes
  reRights : AccessRight
  deriving DecidableEq, Repr

/-- `NormalizeSeedPath`. -/
def normalizeSeedPath (needs : AccessRight) : SeedPath :=
  match AclPathParser.normalizePath (fairy.seedText seed) with
  | .error pos => ⟨.path_format_error, pos, .none⟩
  | .ok pathParser =>
    let rights := match pathParser.getAccess fairy.acl with
      | some ac => ac.rights
      | none => .none
    let res := if rights = .none ∨ (needs ≠ .none ∧ isEnumContains rights needs = false) then OpResult.access_denied
      else .no_error
    ⟨res, pathParser.path, rights⟩

/-- The two trees that a fairy knows. -/
inductive Root
  | root
  | visitorsTree
  deriving DecidableEq, Repr

/-- The tree of a normalized path, and the path in it. -/
def rootPath : Root × Bytes :=
  match isVisitorsTree seed with
  | some rest => (.visitorsTree, rest)
  | none => (.root, seed)

/-- `GetRootPath`. -/
def getRootPath (needs : AccessRight) : Except OpResult (Root × Bytes) :=
  let res := fairy.normalizeSeedPath seed needs
  if res.opResult = .no_error then .ok (rootPath res.seed) else .error res.opResult

end SeedFairy

end Fon9.Seed

namespace Fon9.Seed

/-- The text of a key; without any, the begin of the tree is meant. -/
inductive KeyText
  | textBegin
  | text (keyText : Bytes)
  deriving DecidableEq, Repr

/-- What the trees do when they are asked. -/
structure Forest (Tree TreeOp PodOp : Type) where
  onTreeOp : Tree → Except OpResult TreeOp
  onTabTreeOp : Tree → Except OpResult TreeOp
  /-- The names of the tabs of the layout. -/
  tabs : TreeOp → List Bytes
  get : TreeOp → KeyText → Except OpResult PodOp
  getSapling : PodOp → ℕ → Option Tree

/-- `ParseKeyTextAndTabName`. -/
def parseKeyTextAndTabName (tabName : Bytes) : KeyText × Bytes :=
  match sbrFetchInsideNoTrim tabName StrBrArg.quotation_ with
  | (some keyText, tabName) => (.text keyText, (strFetchNoTrim tabName (ch '^')).2)
  | (none, tabName) =>
    let keyText := strFetchNoTrim tabName (ch '^')
    (if keyText.1 = [] then .textBegin else .text keyText.1, keyText.2)

/-- A step of a path as `ContinueSeedSearch` takes it: whether it is for the tabs of the tree, the
key and the tab. -/
def parseStep (tabName : Bytes) : Bool × KeyText × Bytes :=
  if tabName.head? = some (ch '^') then
    if ch ':' ∈ tabName then
      let keyText := strFetchNoTrim tabName (ch ':')
      (true, .text (keyText.1.drop 1), keyText.2)
    else (false, .textBegin, tabName)
  else (false, parseKeyTextAndTabName tabName)

namespace Forest

variable {Tree TreeOp PodOp : Type} (forest : Forest Tree TreeOp PodOp)

/-- `GetTabByNameOrFirst`. -/
def getTabByNameOrFirst (op : TreeOp) (tabName : Bytes) : Option ℕ :=
  if tabName = [] then (if forest.tabs op = [] then none else some 0)
  else (forest.tabs op).findIdx? (· == tabName)

/-- What a searcher finds: a tree, or a seed of a tree. -/
inductive Found (TreeOp PodOp : Type)
  | tree (op : TreeOp)
  | seed (op : TreeOp) (pod : PodOp) (tab : ℕ)
  deriving DecidableEq

/-- The pod and the tab of a step (`ContinuePod`). -/
def takeStep (tree : Tree) (tabName : Bytes) : Except OpResult (TreeOp × PodOp × ℕ) := do
  let step := parseStep tabName
  let op ← if step.1 then forest.onTabTreeOp tree else forest.onTreeOp tree
  match forest.getTabByNameOrFirst op step.2.2 with
  | none => .error .not_found_tab
  | some tab =>
    let pod ← forest.get op step.2.1
    return (op, pod, tab)

/-- `ContinueSeedSearch`, with the last step of a ticket: the pod is what is looked for. -/
def searchLoop : ℕ → Tree → Bytes → Except OpResult (Found TreeOp PodOp)
  | 0, _, _ => .error .path_format_error
  | fuel + 1, tree, remainPath =>
    if remainPath = [] then (forest.onTreeOp tree).map .tree
    else do
      let tabName := sbrFetchNoTrim remainPath (ch '/') StrBrArg.quotation_
      let remainPath := removePathHead tabName.2
      let (op, pod, tab) ← forest.takeStep tree tabName.1
      if remainPath = [] then return .seed op pod tab
      else
        match forest.getSapling pod tab with
        | some tree => searchLoop fuel tree remainPath
        | none => .error .not_found_sapling

/-- `StartSeedSearch`. -/
def startSeedSearch (root : Tree) (path : Bytes) : Except OpResult (Found TreeOp PodOp) :=
  forest.searchLoop (path.length + 1) root (removePathHead path)

/-- A ticket for a path, with the rights of the fairy. -/
def ticket (roots : SeedFairy.Root → Tree) (fairy : SeedFairy) (seed : Bytes) (needs : AccessRight) :
    Except OpResult (Found TreeOp PodOp) := do
  let r ← fairy.getRootPath seed needs
  forest.startSeedSearch (roots r.1) r.2

/-- What a path leads to, whatever the rights. -/
def resolve (roots : SeedFairy.Root → Tree) (fairy : SeedFairy) (seed : Bytes) :
    Except OpResult (Found TreeOp PodOp) :=
  match AclPathParser.normalizePath (fairy.seedText seed) with
  | .error _ => .error .path_format_error
  | .ok pathParser =>
    let r := SeedFairy.rootPath pathParser.path
    forest.startSeedSearch (roots r.1) r.2

end Forest

end Fon9.Seed
