import Covsight.Lib.Call
import Covsight.Lib.Dict
import Covsight.Lib.Interning
import Covsight.Lib.Packing
import Covsight.Ncdb.StringTable

-- The issues of a database and what they are linked to. Strings are told by their numbers in a table,
-- and tables for queries are built when a query needs them.

namespace Issues

structure IssueSpec where
  id         : String
  ext        : String := ""
  severity   : Int := 2
  kind       : Int := 0
  state      : Int := 0
  resolution : Int := 0
  createdAt  : Int := 0
  updatedAt  : Int := 0
  syncedAt   : Int := 0

def stateOpen : Nat := 0
def stateInProgress : Nat := 1

def packEnums (severity kind state resolution : Int) : Nat :=
  (severity % 8).toNat <<< 13 ||| (kind % 4).toNat <<< 11 ||| (state % 8).toNat <<< 8 |||
    (resolution % 8).toNat <<< 5

def severityOf (enums : Nat) : Nat := enums >>> 13 &&& 0x7
def kindOf (enums : Nat) : Nat := enums >>> 11 &&& 0x3
def stateOf (enums : Nat) : Nat := enums >>> 8 &&& 0x7
def resolutionOf (enums : Nat) : Nat := enums >>> 5 &&& 0x7

def IssueSpec.packed (spec : IssueSpec) : Nat :=
  packEnums spec.severity spec.kind spec.state spec.resolution

structure WaiverIssueLinkInfo where
  waiverId : String
  issueId  : String
  deriving DecidableEq

structure TestpointIssueLinkInfo where
  testpointName : String
  issueId       : String
  linkType      : Int
  deriving DecidableEq

structure CoverageIssueLinkInfo where
  scopePath : String
  binName   : String
  issueId   : String
  linkType  : Int
  deriving DecidableEq

-- One entry a record in each of the columns. The first string is the empty one.
structure IssueTables where
  idIdxs  : List Nat := []
  extIdxs : List Nat := []
  enums   : List Nat := []
  created : List Int := []
  updated : List Int := []
  synced  : List Int := []
  strings : List String := [""]
  wl      : List (Nat × Nat) := []
  tl      : List (Nat × Nat × Int) := []
  cl      : List (Nat × Nat × Nat × Int) := []
  deriving DecidableEq

-- `none` is where a table has not been built since the last change.
structure IssueIndices where
  byId          : Option (Dict String Nat) := none
  bySeverity    : Option (Dict Int (List Nat)) := none
  openIdxs      : Option (List Nat) := none
  -- The issues of a waiver, and the links of an issue.
  waiverIndices : Option (Dict String (List Nat) × Dict String (List WaiverIssueLinkInfo)) := none
  tpIndices     : Option (Dict String (List Nat) × Dict String (List TestpointIssueLinkInfo)) := none
  coverageLinks : Option (List CoverageIssueLinkInfo) := none

structure IssueSet extends IssueTables where
  indices : IssueIndices := {}

-- What the tables for queries are built from.

namespace IssueTables

variable (t : IssueTables)

def string (i : Nat) : Option String :=
  t.strings[i]?

def ids : Option (List String) :=
  t.idIdxs.mapM t.string

-- The last of several issues of one id is the one that is found.
def byId : Option (Dict String Nat) :=
  t.ids.map fun ids => .ofList ids.zipIdx

-- A list of positions for each key.
def listPositions {κ : Type} [DecidableEq κ] (entries : List (κ × Nat)) : Dict κ (List Nat) :=
  (∅ : Dict κ (List Nat)).upserts (fun old i => old.getD [] ++ [i]) entries

def bySeverity : Dict Int (List Nat) :=
  listPositions (t.enums.map fun enums => (severityOf enums : Int)).zipIdx

def isOpen (enums : Nat) : Bool :=
  stateOf enums = stateOpen ∨ stateOf enums = stateInProgress

def openIdxs : List Nat :=
  ((t.enums.map isOpen).zipIdx.filter Prod.fst).map Prod.snd

-- Links that name no issue are listed for the issue only.
def linkIndices {ι : Type} (byId : Dict String Nat) (links : List (String × String × ι)) :
    Dict String (List Nat) × Dict String (List ι) :=
  (listPositions (links.filterMap fun (name, issue, _) => (byId.get? issue).map (name, ·)),
    (∅ : Dict String (List ι)).upserts (fun old info => old.getD [] ++ [info])
      (links.map fun (_, issue, info) => (issue, info)))

def waiverLinks : Option (List (String × String × WaiverIssueLinkInfo)) :=
  t.wl.mapM fun (waiverIdx, issueIdx) => do
    let waiver ← t.string waiverIdx
    let issue  ← t.string issueIdx
    return (waiver, issue, ⟨waiver, issue⟩)

def testpointLinks : Option (List (String × String × TestpointIssueLinkInfo)) :=
  t.tl.mapM fun (tpIdx, issueIdx, linkType) => do
    let tp    ← t.string tpIdx
    let issue ← t.string issueIdx
    return (tp, issue, ⟨tp, issue, linkType⟩)

def coverageLinks : Option (List CoverageIssueLinkInfo) :=
  t.cl.mapM fun (scopeIdx, binIdx, issueIdx, linkType) => do
    return ⟨← t.string scopeIdx, ← t.string binIdx, ← t.string issueIdx, linkType⟩

def waiverIndices : Option (Dict String (List Nat) × Dict String (List WaiverIssueLinkInfo)) :=
  t.byId.bind fun byId => t.waiverLinks.map (linkIndices byId)

def tpIndices : Option (Dict String (List Nat) × Dict String (List TestpointIssueLinkInfo)) :=
  t.byId.bind fun byId => t.testpointLinks.map (linkIndices byId)

end IssueTables

namespace IssueSet

variable {α : Type}

-- A table for queries is built unless it is there.
def ensureById : Call IssueSet (Dict String Nat) := do
  let byId ← .read fun s => s.indices.byId.or s.byId
  .modify fun s => { s with indices.byId := byId }
  return byId

def ensureSeverityIndex : Call IssueSet (Dict Int (List Nat)) := do
  let bySeverity ← .read fun s => s.indices.bySeverity.or s.bySeverity
  .modify fun s => { s with indices.bySeverity := bySeverity }
  return bySeverity

def ensureOpenIndex : Call IssueSet (List Nat) := do
  let openIdxs ← .read fun s => s.indices.openIdxs.or s.openIdxs
  .modify fun s => { s with indices.openIdxs := openIdxs }
  return openIdxs

def buildWaiverIndices :
    Call IssueSet (Dict String (List Nat) × Dict String (List WaiverIssueLinkInfo)) := do
  let byId ← ensureById
  let indices ← .read fun s => s.waiverLinks.map (IssueTables.linkIndices byId)
  .modify fun s => { s with indices.waiverIndices := indices }
  return indices

def ensureWaiverIndices :
    Call IssueSet (Dict String (List Nat) × Dict String (List WaiverIssueLinkInfo)) := do
  match (← .get).indices.waiverIndices with
  | some indices => return indices
  | none         => buildWaiverIndices

def buildTpIndices :
    Call IssueSet (Dict String (List Nat) × Dict String (List TestpointIssueLinkInfo)) := do
  let byId ← ensureById
  let indices ← .read fun s => s.testpointLinks.map (IssueTables.linkIndices byId)
  .modify fun s => { s with indices.tpIndices := indices }
  return indices

def ensureTpIndices :
    Call IssueSet (Dict String (List Nat) × Dict String (List TestpointIssueLinkInfo)) := do
  match (← .get).indices.tpIndices with
  | some indices => return indices
  | none         => buildTpIndices

def ensureCoverageLinks : Call IssueSet (List CoverageIssueLinkInfo) := do
  let links ← .read fun s => s.indices.coverageLinks.or s.toIssueTables.coverageLinks
  .modify fun s => { s with indices.coverageLinks := links }
  return links

-- Changes.

def addString (string : String) : Call IssueSet Nat := do
  let s ← .get
  .modify fun s => { s with strings := (intern s.strings string).snd }
  return (intern s.strings string).fst

-- Numbers of strings have 16 bits in the columns, and times have 32.
def checkU16 (n : Nat) : Call IssueSet Unit :=
  .check fun _ => n < 2 ^ 16

def checkU32 (n : Int) : Call IssueSet Unit :=
  .check fun _ => 0 ≤ n ∧ n < 2 ^ 32

def addIssue (spec : IssueSpec) : Call IssueSet Nat := do
  let byId ← ensureById
  .check fun _ => spec.id ∉ byId.keys
  let idx := (← .get).idIdxs.length
  let id ← addString spec.id
  checkU16 id
  .modify fun s => { s with idIdxs := s.idIdxs ++ [id] }
  let ext ← addString spec.ext
  checkU16 ext
  .modify fun s => { s with extIdxs := s.extIdxs ++ [ext], enums := s.enums ++ [spec.packed] }
  checkU32 spec.createdAt
  .modify fun s => { s with created := s.created ++ [spec.createdAt] }
  checkU32 spec.updatedAt
  .modify fun s => { s with updated := s.updated ++ [spec.updatedAt] }
  checkU32 spec.syncedAt
  .modify fun s => { s with synced := s.synced ++ [spec.syncedAt] }
  .modify fun s => { s with
    indices.byId       := some (byId.set spec.id idx)
    indices.bySeverity := none
    indices.openIdxs   := none }
  return idx

-- An entry that is not there cannot be written.
def updateIssue (idx : Nat) (spec : IssueSpec) : Call IssueSet Unit := do
  let ext ← addString spec.ext
  checkU16 ext
  .check fun s => idx < s.extIdxs.length
  .modify fun s => { s with extIdxs := s.extIdxs.set idx ext }
  .check fun s => idx < s.enums.length
  .modify fun s => { s with enums := s.enums.set idx spec.packed }
  checkU32 spec.createdAt
  .check fun s => idx < s.created.length
  .modify fun s => { s with created := s.created.set idx spec.createdAt }
  checkU32 spec.updatedAt
  .check fun s => idx < s.updated.length
  .modify fun s => { s with updated := s.updated.set idx spec.updatedAt }
  checkU32 spec.syncedAt
  .check fun s => idx < s.synced.length
  .modify fun s => { s with synced := s.synced.set idx spec.syncedAt, indices := {} }

def addWaiverLink (waiverId issueId : String) : Call IssueSet Unit := do
  let waiver ← addString waiverId
  let issue  ← addString issueId
  .modify fun s => { s with wl := s.wl ++ [(waiver, issue)], indices.waiverIndices := none }

def addTestpointLink (tpName issueId : String) (linkType : Int) : Call IssueSet Unit := do
  let tp    ← addString tpName
  let issue ← addString issueId
  .modify fun s => { s with tl := s.tl ++ [(tp, issue, linkType)], indices.tpIndices := none }

def addCoverageLink (scopePath binName issueId : String) (linkType : Int) : Call IssueSet Unit := do
  let scope ← addString scopePath
  let bin   ← addString binName
  let issue ← addString issueId
  .modify fun s => { s with
    cl := s.cl ++ [(scope, bin, issue, linkType)], indices.coverageLinks := none }

-- Queries. An issue is told by its position.

def issues : Call IssueSet (List Nat) := do
  return List.range (← .get).idIdxs.length

def getIssue (issueId : String) : Call IssueSet (Option Nat) := do
  return (← ensureById).get? issueId

def openIssues : Call IssueSet (List Nat) :=
  ensureOpenIndex

def issuesBySeverity (severity : Int) : Call IssueSet (List Nat) := do
  return ((← ensureSeverityIndex).get? severity).getD []

def issuesForWaiver (waiverId : String) : Call IssueSet (List Nat) := do
  return ((← ensureWaiverIndices).fst.get? waiverId).getD []

def issuesForTestpoint (tpName : String) : Call IssueSet (List Nat) := do
  return ((← ensureTpIndices).fst.get? tpName).getD []

def handleId (idx : Nat) : Call IssueSet String :=
  .read fun s => s.idIdxs[idx]?.bind s.string

def waiversForIssue (idx : Nat) : Call IssueSet (List WaiverIssueLinkInfo) := do
  let indices ← ensureWaiverIndices
  return (indices.snd.get? (← handleId idx)).getD []

def testpointsForIssue (idx : Nat) : Call IssueSet (List TestpointIssueLinkInfo) := do
  let indices ← ensureTpIndices
  return (indices.snd.get? (← handleId idx)).getD []

def coverageLinks : Call IssueSet (List CoverageIssueLinkInfo) :=
  ensureCoverageLinks

end IssueSet

end Issues

-- The bytes of a set of issues: a header, the strings, and the records of the issues and the links.

namespace Issues

def magic : Nat := 0x49535342
def version : Nat := 1

namespace IssueTables

def header (t : IssueTables) : Option (List UInt8) :=
  pack [(4, magic), (1, version), (4, 0), (4, t.idIdxs.length), (4, t.wl.length), (4, t.tl.length),
    (4, t.cl.length)]

def issueRecord (t : IssueTables) (i : Nat) : Option (List UInt8) := do
  let id      ← t.idIdxs[i]?
  let ext     ← t.extIdxs[i]?
  let enums   ← t.enums[i]?
  let created ← t.created[i]?
  let updated ← t.updated[i]?
  let synced  ← t.synced[i]?
  pack [(2, id), (2, ext), (2, enums), (4, created), (4, updated), (4, synced)]

def waiverRecord : Nat × Nat → Option (List UInt8)
  | (waiver, issue) => pack [(2, waiver), (2, issue)]

def testpointRecord : Nat × Nat × Int → Option (List UInt8)
  | (tp, issue, linkType) => pack [(2, tp), (2, issue), (1, linkType)]

def coverageRecord : Nat × Nat × Nat × Int → Option (List UInt8)
  | (scope, bin, issue, linkType) => pack [(2, scope), (2, bin), (2, issue), (1, linkType)]

def serialize (t : IssueTables) : Option (List UInt8) := do
  let header ← t.header
  let issues ← (List.range t.idIdxs.length).mapM t.issueRecord
  let wl ← t.wl.mapM waiverRecord
  let tl ← t.tl.mapM testpointRecord
  let cl ← t.cl.mapM coverageRecord
  return header ++ StringTable.serialize t.strings ++ issues.flatten ++ wl.flatten ++ tl.flatten ++ cl.flatten

-- An entry of each column.
structure IssueRow where
  id      : Nat
  ext     : Nat
  enums   : Nat
  created : Int
  updated : Int
  synced  : Int

def unpackIssue (bytes : List UInt8) : Option (IssueRow × List UInt8) := do
  let (id, bytes)      ← decodeFixed 2 bytes
  let (ext, bytes)     ← decodeFixed 2 bytes
  let (enums, bytes)   ← decodeFixed 2 bytes
  let (created, bytes) ← decodeFixed 4 bytes
  let (updated, bytes) ← decodeFixed 4 bytes
  let (synced, bytes)  ← decodeFixed 4 bytes
  return (⟨id, ext, enums, created, updated, synced⟩, bytes)

def unpackWaiverLink (bytes : List UInt8) : Option ((Nat × Nat) × List UInt8) := do
  let (waiver, bytes) ← decodeFixed 2 bytes
  let (issue, bytes)  ← decodeFixed 2 bytes
  return ((waiver, issue), bytes)

def unpackTestpointLink (bytes : List UInt8) : Option ((Nat × Nat × Int) × List UInt8) := do
  let (tp, bytes)       ← decodeFixed 2 bytes
  let (issue, bytes)    ← decodeFixed 2 bytes
  let (linkType, bytes) ← decodeFixed 1 bytes
  return ((tp, issue, linkType), bytes)

def unpackCoverageLink (bytes : List UInt8) : Option ((Nat × Nat × Nat × Int) × List UInt8) := do
  let (scope, bytes)    ← decodeFixed 2 bytes
  let (bin, bytes)      ← decodeFixed 2 bytes
  let (issue, bytes)    ← decodeFixed 2 bytes
  let (linkType, bytes) ← decodeFixed 1 bytes
  return ((scope, bin, issue, linkType), bytes)

-- The strings are read once for what they are and once for where they end.
def fromBytes (data : List UInt8) : Option IssueTables := do
  let (m, bytes)         ← decodeFixed 4 data
  let (v, bytes)         ← decodeFixed 1 bytes
  let (_, bytes)         ← decodeFixed 4 bytes
  let (numIssues, bytes) ← decodeFixed 4 bytes
  let (numWl, bytes)     ← decodeFixed 4 bytes
  let (numTl, bytes)     ← decodeFixed 4 bytes
  let (numCl, bytes)     ← decodeFixed 4 bytes
  guard (m = magic)
  guard (v = version)
  let strings ← StringTable.fromBytes bytes
  let bytes ← StringTable.skip bytes
  let (rows, bytes) ← decodeMany unpackIssue numIssues bytes
  let (wl, bytes)   ← decodeMany unpackWaiverLink numWl bytes
  let (tl, bytes)   ← decodeMany unpackTestpointLink numTl bytes
  let (cl, _)       ← decodeMany unpackCoverageLink numCl bytes
  return {
    idIdxs  := rows.map IssueRow.id
    extIdxs := rows.map IssueRow.ext
    enums   := rows.map IssueRow.enums
    created := rows.map IssueRow.created
    updated := rows.map IssueRow.updated
    synced  := rows.map IssueRow.synced
    strings, wl, tl, cl }

end IssueTables

end Issues
