import Covsight.Lib.Json
import Covsight.NcdbTs.Database

-- Reading and writing the archives of the TypeScript library.

-- A number is given by the position that it picks, if it is one.

structure CrossEntry where
  idx     : Option Nat
  crossed : Option (List JsString) := none

structure CrossMember where
  version : Option JsNumber
  entries : Option (List CrossEntry)

structure DesignUnitEntry where
  name : JsString
  idx  : Option Nat

structure DesignUnitsMember where
  version : Option JsNumber
  units   : Option (List DesignUnitEntry)

-- The members that the reader looks up. Empty texts of crosses and of design units count as missing
-- members.
structure TsArchive where
  manifest      : Option (List UInt16) := none
  strings       : Option (List String) := none
  scopeTree     : Option (List UInt8) := none
  counts        : Option (List UInt8) := none
  sources       : Option (List String) := none
  cross         : Option CrossMember := none
  issues        : Option IssuesMember := none
  issuesMeta    : Option IssuesMetaText := none
  issuesHistory : Option IssuesHistoryMember := none
  designUnits   : Option DesignUnitsMember := none
  history       : Option (List TsHistoryRecord) := none

inductive TsNcdbError
  | missingManifest
  | syntaxError
  | expectedFormat
  | missingMembers
  | badScopeTree
  | unsupportedCross
  | badIssues
  | badIssuesHistory
  | unsupportedDesignUnits
  deriving DecidableEq

def TsNcdbError.orThrow {α : Type} (e : TsNcdbError) : Option α → Except TsNcdbError α
  | some x => .ok x
  | none   => .error e

namespace TsCross

def version : JsNumber := .one

-- The last sibling of each name counts, and only coverpoints are crossed.
def pointOf (siblings : List (ScopeTypeT × JsString)) (name : JsString) : Option Nat :=
  ((siblings.zipIdx.reverse.find? (·.fst.snd = name)).filter (·.fst.fst = .coverpoint)).map Prod.snd

def readEntry (scopes : List WalkedScope) (crosses : Dict Nat CrossedPoints) (entry : CrossEntry) :
    Dict Nat CrossedPoints :=
  match entry.idx with
  | none   => crosses
  | some i =>
    match scopes[i]? with
    | none       => crosses
    | some scope =>
      if scope.type = .cross then
        crosses.set i ((entry.crossed.getD []).filterMap (pointOf scope.siblings))
      else
        crosses

def read (scopes : List WalkedScope) : Option CrossMember → Option (Dict Nat CrossedPoints)
  | none        => some ∅
  | some member =>
    if member.version = some version then
      some <| (member.entries.getD []).foldl (readEntry scopes) ∅
    else
      none

def crossedNames (scope : WalkedScope) (points : CrossedPoints) : List JsString :=
  points.filterMap fun p => scope.siblings[p]?.map Prod.snd

-- Crosses of nothing are left out.
def writeEntry (db : TsDatabase) (scope : WalkedScope) (i : Nat) : Option CrossEntry :=
  let crossed := crossedNames scope (db.crossedPoints i)
  if scope.type = .cross ∧ crossed ≠ [] then some ⟨some i, some crossed⟩ else none

def write (db : TsDatabase) : Option CrossMember :=
  let entries := (TsScope.dfsScopes db.children).zipIdx.filterMap fun (scope, i) =>
    writeEntry db scope i
  if entries.isEmpty then none else some ⟨some version, some entries⟩

end TsCross

namespace TsDesignUnits

def version : JsNumber := .one

-- The units of the tree with their positions.
def units (scopes : List WalkedScope) : List (JsString × Nat) :=
  scopes.zipIdx.filterMap fun (scope, i) => if scope.type.duAny then some (scope.name, i) else none

def treeIndex (scopes : List WalkedScope) : Dict JsString Nat :=
  (∅ : Dict JsString Nat).setAll (units scopes)

def readEntry (scopes : List WalkedScope) (unit : DesignUnitEntry) : Option (JsString × Nat) :=
  (unit.idx.filter (· < scopes.length)).map fun i => (unit.name, i)

def buildIndex (scopes : List WalkedScope) :
    Option DesignUnitsMember → Option (Dict JsString Nat)
  | none        => some (treeIndex scopes)
  | some member =>
    if member.version = some version then
      some <| (∅ : Dict JsString Nat).setAll ((member.units.getD []).filterMap (readEntry scopes))
    else
      none

def write (db : TsDatabase) : Option DesignUnitsMember :=
  let units := (units (TsScope.dfsScopes db.children)).map fun (name, i) =>
    DesignUnitEntry.mk name (some i)
  if units.isEmpty then none else some ⟨some version, some units⟩

end TsDesignUnits

namespace TsNcdbReader

-- A JSON text whose value has the right format.
def checkManifest (text : List UInt16) : Except TsNcdbError Unit := do
  let manifest ← TsNcdbError.syntaxError.orThrow (Json.parse text)
  match manifest.member? "format" with
  | some (.string s) => if s = Json.units "NCDB" then .ok () else .error .expectedFormat
  | _                => .error .expectedFormat

def requiredMembers (a : TsArchive) : Option ScopeTreeMembers := do
  let strings ← a.strings
  let scopeTree ← a.scopeTree
  let counts ← a.counts
  return ⟨strings, a.sources.getD [], scopeTree, counts⟩

def readOptional {α β : Type} (read : α → Option β) : Option α → Option (Option β)
  | none   => some none
  | some x => (read x).map some

def readFromBytes (a : TsArchive) : Except TsNcdbError TsDatabase := do
  let manifest ← TsNcdbError.missingManifest.orThrow a.manifest
  checkManifest manifest
  let members ← TsNcdbError.missingMembers.orThrow (requiredMembers a)
  let children ← TsNcdbError.badScopeTree.orThrow members.readTs
  let scopes := TsScope.dfsScopes children
  let crosses ← TsNcdbError.unsupportedCross.orThrow (TsCross.read scopes a.cross)
  let issues ← TsNcdbError.badIssues.orThrow (readOptional TsIssueSet.fromBytes a.issues)
  let issueHistory ← TsNcdbError.badIssuesHistory.orThrow
    (readOptional IssuesHistoryMember.open? a.issuesHistory)
  let duIndex ← TsNcdbError.unsupportedDesignUnits.orThrow
    (TsDesignUnits.buildIndex scopes a.designUnits)
  return {
    filePaths     := internAll members.files
    children      := children
    crosses       := crosses
    duIndex       := duIndex
    historyNodes  := (a.history.getD []).map TsHistoryRecord.read
    issues        := issues
    issuesMetaRaw := a.issuesMeta
    issueHistory  := issueHistory
  }

end TsNcdbReader

namespace TsNcdbWriter

def manifestText : String :=
  "\x7b\n  \"format\": \"NCDB\",\n  \"version\": \"2.0\",\n  \"generator\": \"covsight-ts\",\n  " ++
    "\"history_format\": \"v1\",\n  \"path_separator\": \"/\"\n\x7d"

-- Of the metadata of issues only what was parsed is written, and of their history only what a
-- writer holds.
def toBytes (db : TsDatabase) : Option TsArchive := do
  let members ← db.toTsUCIS.write
  return {
    manifest      := some (Json.units manifestText)
    strings       := some members.strings
    scopeTree     := some members.scopeTree
    counts        := some members.counts
    sources       := some members.files
    cross         := TsCross.write db
    issues        := db.issues.map TsIssueSet.serialize
    issuesMeta    := db.issuesMeta.map TsIssuesMeta.serialize
    issuesHistory := db.issueHistoryWriter.map .deflate
    designUnits   := TsDesignUnits.write db
    history       := some (db.historyNodes.map TsHistoryNode.write)
  }

end TsNcdbWriter
