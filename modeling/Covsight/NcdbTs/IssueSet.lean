import Covsight.Lib.JsValue
import Covsight.Ncdb.Issues

-- The issues of a database in TypeScript. Tables for queries are built when a query needs them, and are
-- kept as far as they got if building one throws.

namespace TsIssues

open Issues (packEnums severityOf stateOf stateOpen stateInProgress)

-- What is packed into bits is told by the whole numbers that bit operations take.
structure IssueSpec where
  id         : JsString
  ext        : JsString := []
  severity   : Int := 2
  kind       : Int := 0
  state      : Int := 0
  resolution : Int := 0
  createdAt  : JsNumber := .zero
  updatedAt  : JsNumber := .zero
  syncedAt   : JsNumber := .zero

def IssueSpec.packed (spec : IssueSpec) : Nat :=
  packEnums spec.severity spec.kind spec.state spec.resolution

structure WaiverIssueLinkInfo where
  waiverId : JsString
  issueId  : JsString
  deriving DecidableEq

structure TestpointIssueLinkInfo where
  testpointName : JsString
  issueId       : JsString
  linkType      : JsNumber
  deriving DecidableEq

structure CoverageIssueLinkInfo where
  scopePath : JsString
  binName   : JsString
  issueId   : JsString
  linkType  : JsNumber
  deriving DecidableEq

-- One entry an issue in each of the columns. The first string is the empty one.
structure IssueTables where
  idIdxs  : List Nat := []
  extIdxs : List Nat := []
  enums   : List Nat := []
  created : List JsNumber := []
  updated : List JsNumber := []
  synced  : List JsNumber := []
  strings : List JsString := [[]]
  wl      : List (Nat × Nat) := []
  tl      : List (Nat × Nat × JsNumber) := []
  cl      : List (Nat × Nat × Nat × JsNumber) := []
  deriving DecidableEq

abbrev LinkIndices (ι : Type) :=
  Dict JsString (List Nat) × Dict JsString (List ι)

structure IssueIndices where
  byId          : Option (Dict JsString Nat) := none
  bySeverity    : Option (Dict Int (List Nat)) := none
  openIdxs      : Option (List Nat) := none
  -- The issues of a name, and the links of an issue. Both are built, and dropped, at once.
  waiverIndices : Option (LinkIndices WaiverIssueLinkInfo) := none
  tpIndices     : Option (LinkIndices TestpointIssueLinkInfo) := none
  coverageLinks : Option (List CoverageIssueLinkInfo) := none

structure IssueSet extends IssueTables where
  indices : IssueIndices := {}

-- Entries one after the other up to the first one that throws, and whether none does.
def readUpTo {α β : Type} (entry : α → Option β) : List α → List β × Bool
  | []      => ([], true)
  | x :: xs =>
    match entry x with
    | none   => ([], false)
    | some y => ((y :: (readUpTo entry xs).fst), (readUpTo entry xs).snd)

-- A list of values for each key.
def listed {κ α : Type} [DecidableEq κ] (entries : List (κ × α)) : Dict κ (List α) :=
  (∅ : Dict κ (List α)).upserts (fun old x => old.getD [] ++ [x]) entries

-- Links that name no issue are listed for the issue only.
def linkIndices {ι : Type} (byId : Dict JsString Nat) (links : List (JsString × JsString × ι)) : LinkIndices ι :=
  (listed (links.filterMap fun (name, issue, _) => (byId.get? issue).map (name, ·)),
    listed (links.map fun (_, issue, info) => (issue, info)))

namespace IssueTables

variable (t : IssueTables)

def string (i : Nat) : Option JsString :=
  t.strings[i]?

def idEntry : Nat × Nat → Option (JsString × Nat)
  | (n, i) => (t.string n).map (·, i)

def waiverLink : Nat × Nat → Option (JsString × JsString × WaiverIssueLinkInfo)
  | (waiverIdx, issueIdx) => do
    let waiver ← t.string waiverIdx
    let issue  ← t.string issueIdx
    return (waiver, issue, ⟨waiver, issue⟩)

def testpointLink : Nat × Nat × JsNumber → Option (JsString × JsString × TestpointIssueLinkInfo)
  | (tpIdx, issueIdx, linkType) => do
    let tp    ← t.string tpIdx
    let issue ← t.string issueIdx
    return (tp, issue, ⟨tp, issue, linkType⟩)

def coverageLink : Nat × Nat × Nat × JsNumber → Option CoverageIssueLinkInfo
  | (scopeIdx, binIdx, issueIdx, linkType) => do
    return ⟨← t.string scopeIdx, ← t.string binIdx, ← t.string issueIdx, linkType⟩

def bySeverity : Dict Int (List Nat) :=
  listed (t.enums.map fun enums => (severityOf enums : Int)).zipIdx

def openIdxs : List Nat :=
  ((t.enums.map fun enums => decide (stateOf enums = stateOpen ∨ stateOf enums = stateInProgress)).zipIdx.filter
    Prod.fst).map Prod.snd

end IssueTables

namespace IssueSet

-- A table for queries is built unless it is there.

def ensureById : Call IssueSet (Dict JsString Nat) := do
  match (← .get).indices.byId with
  | some byId => return byId
  | none      =>
    let s ← .get
    let (ids, complete) := readUpTo s.idEntry s.idIdxs.zipIdx
    .modify fun s => { s with indices.byId := some (.ofList ids) }
    .check fun _ => complete
    return .ofList ids

def ensureSeverityIndex : Call IssueSet (Dict Int (List Nat)) := do
  match (← .get).indices.bySeverity with
  | some bySeverity => return bySeverity
  | none            =>
    let bySeverity := (← .get).bySeverity
    .modify fun s => { s with indices.bySeverity := some bySeverity }
    return bySeverity

def ensureOpenIndex : Call IssueSet (List Nat) := do
  match (← .get).indices.openIdxs with
  | some openIdxs => return openIdxs
  | none          =>
    let openIdxs := (← .get).openIdxs
    .modify fun s => { s with indices.openIdxs := some openIdxs }
    return openIdxs

def ensureWaiverIndices : Call IssueSet (LinkIndices WaiverIssueLinkInfo) := do
  match (← .get).indices.waiverIndices with
  | some indices => return indices
  | none         =>
    let byId ← ensureById
    let s ← .get
    let (links, complete) := readUpTo s.waiverLink s.wl
    .modify fun s => { s with indices.waiverIndices := some (linkIndices byId links) }
    .check fun _ => complete
    return linkIndices byId links

def ensureTpIndices : Call IssueSet (LinkIndices TestpointIssueLinkInfo) := do
  match (← .get).indices.tpIndices with
  | some indices => return indices
  | none         =>
    let byId ← ensureById
    let s ← .get
    let (links, complete) := readUpTo s.testpointLink s.tl
    .modify fun s => { s with indices.tpIndices := some (linkIndices byId links) }
    .check fun _ => complete
    return linkIndices byId links

-- What is not complete is not kept here.
def ensureCoverageLinks : Call IssueSet (List CoverageIssueLinkInfo) := do
  match (← .get).indices.coverageLinks with
  | some links => return links
  | none       =>
    let links ← .read fun s => s.cl.mapM s.coverageLink
    .modify fun s => { s with indices.coverageLinks := some links }
    return links

-- Changes.

def internString (value : JsString) : Call IssueSet Nat := do
  let s ← .get
  .modify fun s => { s with strings := (intern s.strings value).snd }
  return (intern s.strings value).fst

def addIssue (spec : IssueSpec) : Call IssueSet Nat := do
  let byId ← ensureById
  .check fun _ => spec.id ∉ byId.keys
  let idx := (← .get).idIdxs.length
  let id  ← internString spec.id
  let ext ← internString spec.ext
  .modify fun s => { s with
    idIdxs             := s.idIdxs ++ [id]
    extIdxs            := s.extIdxs ++ [ext]
    enums              := s.enums ++ [spec.packed]
    created            := s.created ++ [spec.createdAt]
    updated            := s.updated ++ [spec.updatedAt]
    synced             := s.synced ++ [spec.syncedAt]
    indices.byId       := some (byId.set spec.id idx)
    indices.bySeverity := none
    indices.openIdxs   := none }
  return idx

-- An array grows to what is written behind its end. An entry that is missing in between counts as zero
-- wherever it is used.
def writeAt {α : Type} (zero : α) (xs : List α) (i : Nat) (x : α) : List α :=
  if i < xs.length then xs.set i x else xs ++ List.replicate (i - xs.length) zero ++ [x]

-- The handle may be one of another set.
def updateIssue (idx : Nat) (spec : IssueSpec) : Call IssueSet Unit := do
  let ext ← internString spec.ext
  .modify fun s => { s with
    extIdxs := writeAt 0 s.extIdxs idx ext
    enums   := writeAt 0 s.enums idx spec.packed
    created := writeAt .zero s.created idx spec.createdAt
    updated := writeAt .zero s.updated idx spec.updatedAt
    synced  := writeAt .zero s.synced idx spec.syncedAt
    indices := {} }

def addWaiverLink (waiverId issueId : JsString) : Call IssueSet Unit := do
  let waiver ← internString waiverId
  let issue  ← internString issueId
  .modify fun s => { s with wl := s.wl ++ [(waiver, issue)], indices.waiverIndices := none }

def addTestpointLink (tpName issueId : JsString) (linkType : JsNumber) : Call IssueSet Unit := do
  let tp    ← internString tpName
  let issue ← internString issueId
  .modify fun s => { s with tl := s.tl ++ [(tp, issue, linkType)], indices.tpIndices := none }

def addCoverageLink (scopePath binName issueId : JsString) (linkType : JsNumber) : Call IssueSet Unit := do
  let scope ← internString scopePath
  let bin   ← internString binName
  let issue ← internString issueId
  .modify fun s => { s with cl := s.cl ++ [(scope, bin, issue, linkType)], indices.coverageLinks := none }

-- Queries. An issue is told by its position.

def issues : Call IssueSet (List Nat) := do
  return List.range (← .get).idIdxs.length

def getIssue (issueId : JsString) : Call IssueSet (Option Nat) := do
  return (← ensureById).get? issueId

def openIssues : Call IssueSet (List Nat) :=
  ensureOpenIndex

def issuesBySeverity (severity : Int) : Call IssueSet (List Nat) := do
  return ((← ensureSeverityIndex).get? severity).getD []

def issuesForWaiver (waiverId : JsString) : Call IssueSet (List Nat) := do
  return ((← ensureWaiverIndices).fst.get? waiverId).getD []

def issuesForTestpoint (tpName : JsString) : Call IssueSet (List Nat) := do
  return ((← ensureTpIndices).fst.get? tpName).getD []

def handleId (idx : Nat) : Call IssueSet JsString :=
  .read fun s => s.idIdxs[idx]?.bind s.string

def waiversForIssue (idx : Nat) : Call IssueSet (List WaiverIssueLinkInfo) := do
  let indices ← ensureWaiverIndices
  return (indices.snd.get? (← handleId idx)).getD []

def testpointsForIssue (idx : Nat) : Call IssueSet (List TestpointIssueLinkInfo) := do
  let indices ← ensureTpIndices
  return (indices.snd.get? (← handleId idx)).getD []

def coverageLinks : Call IssueSet (List CoverageIssueLinkInfo) :=
  ensureCoverageLinks

end IssueSet

end TsIssues
