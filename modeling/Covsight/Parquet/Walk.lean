import Covsight.Lib.Interning
import Covsight.Ncdb.DfsUtil
import Covsight.Parquet.Schema
import Covsight.Api.UCIS
import Covsight.Ncdb.ScopeTreeCodec

-- Identities that are derived from the structure of a database.

def hex (n : Nat) : String :=
  String.ofList (Nat.toDigits 16 n)

def deriveScopeUid (parentUid : Option String) (name : String) (scopeType : ScopeTypeT) : String :=
  parentUid.getD "" ++ "/" ++ name ++ "#" ++ hex scopeType.value

-- An id that the database supplies is preferred.
def scopeUid (parentUid : Option String) (d : Api.ScopeData) : String :=
  match d.properties.getStringProperty .uniqueId with
  | some uid => if uid = "" then deriveScopeUid parentUid d.name d.type else uid
  | none     => deriveScopeUid parentUid d.name d.type

-- An id that is taken gets the first number that makes it a new one. As `seen.length` ids are taken,
-- one of the first `seen.length + 1` numbers does.
def allocateUid (seen : List String) (uid : String) : String :=
  if uid ∈ seen then
    let candidates := (List.range (seen.length + 1)).map fun n => uid ++ "~" ++ toString (n + 1)
    (candidates.find? (· ∉ seen)).getD uid
  else
    uid

def historyNodeId (runId : String) (localIndex : Nat) (logicalName : Option String) : String :=
  runId ++ "/" ++ toString localIndex ++ ":" ++ logicalName.getD ""

-- The walk of the writer over a database. A scope is visited before its sub-scopes and gets its id when
-- it is visited; the tables are filled from the scopes in that order.

namespace Api

-- The flat bin indices, over any database.

namespace Scope

def isTogglePair (s : Scope) : Bool :=
  s.data.type = .branch ∧ s.scopes.isEmpty ∧
    (s.coverItems.map (·.name) = [some toggleBin0To1, some toggleBin1To0] ∨
      s.coverItems.map (·.name) = [some toggleBin1To0, some toggleBin0To1])

mutual

def dfs : Scope → List Scope
  | mk d is ss => mk d is ss :: if (mk d is ss).isTogglePair then [] else dfsAll ss

def dfsAll : List Scope → List Scope
  | []      => []
  | s :: ss => s.dfs ++ dfsAll ss

end

def binNames (s : Scope) : List (Option String) :=
  if s.isTogglePair then [some toggleBin0To1, some toggleBin1To0] else s.coverItems.map (·.name)

end Scope

def UCIS.dfsScopeList (db : UCIS) : List Scope :=
  Scope.dfsAll db.scopes

end Api

-- A scope that was visited.
structure Visited where
  uid        : String
  parent     : Option String
  data       : Api.ScopeData
  coverItems : List Api.CoverIndex

namespace Walk

mutual

-- The scopes that are visited from a scope on, where `seen` were visited before.
def visit (seen : List Visited) (parent : Option String) : Api.Scope → List Visited
  | .mk d is ss =>
    let uid := allocateUid (seen.map (·.uid)) (scopeUid parent d)
    visitAll (seen ++ [⟨uid, parent, d, is⟩]) (some uid) ss

def visitAll (seen : List Visited) (parent : Option String) : List Api.Scope → List Visited
  | []      => seen
  | s :: ss => visitAll (visit seen parent s) parent ss

end

def visited (db : Api.UCIS) : List Visited :=
  visitAll [] none db.scopes

-- The ids of the objects that were visited.
def scopeByObj (vs : List Visited) : Dict Api.Handle String :=
  Dict.ofList <| vs.map fun v => (v.data.handle, v.uid)

def uidOf (vs : List Visited) (handle : Api.Handle) : Option String :=
  (scopeByObj vs).get? handle

-- Properties.

-- Whether an object answers.
def answers (ps : Api.Properties) : PropId → Bool
  | .int p    => (ps.getIntProperty p).isSome
  | .str p    => (ps.getStringProperty p).isSome
  | .real p   => (ps.getRealProperty p).isSome
  | .handle p => (ps.getHandleProperty p).isSome
  | _         => false

-- The bits that tell which promoted properties are answered.
def promotedMask (answered : PropId → Bool) (kind : ObjectKind) : Nat :=
  ((promotedProperties kind).mapIdx fun i p => if answered p then 2 ^ i else 0).sum

-- Properties that are recomputed on reading.
def skipped : PropId → Bool
  | .int .isModified | .int .modifiedSinceSim | .int .numTests                           => true
  | .str .scopeName | .str .uniqueId | .str .scopeHierName | .str .fileName => true
  | .real .cvgInstAverage                                                                => true
  | _                                                                                    => false

def harvestAttributes (objectId : String) (kind : ObjectKind) (attrs : Dict String (Option String)) :
    List PropertyRow :=
  (attrs.entries.insertionSort (·.fst ≤ ·.fst)).map fun (key, value) =>
    { objectId, objectKind := kind, propId := .attr key, str := value }

def harvestProperties (ps : Api.Properties) (objectId : String) (kind : ObjectKind)
    (uidOf : Api.Handle → Option String) : List PropertyRow :=
  let stored (p : PropId) : Bool := !skipped p ∧ p ∉ promotedProperties kind
  let ints := (IntProperty.all.filter (stored <| .int ·)).filterMap fun p =>
    (ps.getIntProperty p).map fun value =>
      { objectId, objectKind := kind, propId := .int p, i64 := some value : PropertyRow }
  let strs := (StrProperty.all.filter (stored <| .str ·)).filterMap fun p =>
    (ps.getStringProperty p).map fun value =>
      { objectId, objectKind := kind, propId := .str p, str := some value : PropertyRow }
  let reals := (RealProperty.all.filter (stored <| .real ·)).filterMap fun p =>
    (ps.getRealProperty p).map fun value =>
      { objectId, objectKind := kind, propId := .real p, f64 := some value : PropertyRow }
  let handles := HandleProperty.all.filterMap fun p =>
    ((ps.getHandleProperty p).bind uidOf).map fun target =>
      { objectId, objectKind := kind, propId := .handle p, handle := some target : PropertyRow }
  let tags := (ps.getTags.insertionSort (· ≤ ·)).map fun name =>
    { objectId, objectKind := kind, propId := .tag name, i64 := some 1 : PropertyRow }
  ints ++ strs ++ reals ++ handles ++ harvestAttributes objectId kind ps.getAttributes ++ tags

-- Cross operands.

-- How many coverpoints a scope crosses, where it can tell.
def crossedCount (d : Api.ScopeData) : Option Int :=
  (d.numCrossedCoverpoints.map Int.ofNat).or (d.properties.getIntProperty .numCrossedCvps)

def crossOperands (uidOf : Api.Handle → Option String) (v : Visited) : List CrossOperandRow :=
  let count := (crossedCount v.data).getD 0
  if count = 0 then
    -- A source without operands may still hold a name.
    match v.data.properties.getStringProperty .ithCrossedCvpName with
    | none      => []
    | some name => [⟨v.uid, 0, none, some name⟩]
  else
    (List.range count.toNat).map fun i =>
      let point := v.data.ithCrossedCoverpoint i
      {
        crossId      := v.uid
        operandIndex := i
        coverpointId := point.bind (uidOf ·.handle)
        name         := (point.bind (·.name)).or (v.data.ithCrossedCvpName i)
      }

-- The operands answer two of the promoted properties.
def scopeAnswers (v : Visited) (p : PropId) : Bool :=
  let operands := crossOperands (fun _ => none) v
  match p with
  | .int .numCrossedCvps    => answers v.data.properties p ∨ (crossedCount v.data).isSome
  | .str .ithCrossedCvpName => answers v.data.properties p ∨ operands.any (·.name.isSome)
  | p                       => answers v.data.properties p

-- Design units.

def instanceDuId (vs : List Visited) (v : Visited) : Option String :=
  v.data.instanceDu.bind (uidOf vs)

-- The design unit of each scope: a design unit is its own, an instance has the one it instantiates,
-- and anything else that of its parent.
def duByUid (vs : List Visited) : Dict String (Option String) :=
  vs.foldl (fun dus v =>
    let duId :=
      if v.data.type.duAny then some v.uid
      else match instanceDuId vs v with
        | some duId => some duId
        | none      => (v.parent.bind dus.get?).join
    dus.set v.uid duId) ∅

def duId (vs : List Visited) (uid : String) : Option String :=
  ((duByUid vs).get? uid).join

-- Source files. A file has a number in every design unit that uses it.

def srcPath (srcinfo : Option Api.SourceInfo) : Option String :=
  (srcinfo.bind (·.fileName)).filter (· ≠ "")

def fileKey (vs : List Visited) (uid : String) (srcinfo : Option Api.SourceInfo) :
    Option (String × String) :=
  (srcPath srcinfo).map ((duId vs uid).getD "", ·)

-- The files in the order in which they are met, those of the scopes before those of the items.
def fileKeys (vs : List Visited) : List (String × String) :=
  internAll <| (vs.filterMap fun v => fileKey vs v.uid v.data.srcinfo) ++
    vs.flatMap fun v => v.coverItems.filterMap fun ci => fileKey vs v.uid ci.srcinfo

def fileId (keys : List (String × String)) (key : String × String) : Nat :=
  (keys.takeWhile (· ≠ key)).countP (·.fst = key.fst)

def sourceFileId (vs : List Visited) (uid : String) (srcinfo : Option Api.SourceInfo) : Option Nat :=
  (fileKey vs uid srcinfo).map <| fileId (fileKeys vs)

-- Items.

-- Each item with its scope and its position there.
def items (vs : List Visited) : List ((String × Nat) × Api.CoverIndex) :=
  vs.flatMap fun v => v.coverItems.mapIdx fun i ci => ((v.uid, i), ci)

-- The ids are given in the order of the items.
def coveritemIds (vs : List Visited) : Dict (String × Nat) Nat :=
  Dict.ofList <| ((items vs).map Prod.fst).zipIdx

-- The ids by flat bin index: an item is looked up by its name, a name that is not there by position.
def flatCoveritemIds (db : Api.UCIS) (vs : List Visited) : List Nat :=
  db.dfsScopeList.flatMap fun s =>
    match uidOf vs s.data.handle with
    | none     => []
    | some uid =>
      let localIndex (name : Option String) (position : Nat) : Nat :=
        ((s.coverItems.findIdx? (·.name = name))).getD position
      (s.binNames.zipIdx.filterMap fun (name, position) =>
        (coveritemIds vs).get? (uid, localIndex name position))

-- The definition tables.

def scopeRow (vs : List Visited) (ordinal : Nat) (v : Visited) : ScopeRow where
  uniqueId      := v.uid
  parentId      := v.parent
  dfsOrdinal    := ordinal
  scopeType     := v.data.type
  flags         := v.data.flags
  name          := v.data.name
  duId          := duId vs v.uid
  sourceFileId  := sourceFileId vs v.uid v.data.srcinfo
  sourceLine    := v.data.srcinfo.bind (·.line)
  sourceCol     := v.data.srcinfo.bind (·.token)
  weight        := v.data.weight
  goal          := v.data.goal
  source        := v.data.properties.getIntProperty .scopeSourceType
  instanceDuId  := instanceDuId vs v
  promotedProps := promotedMask (scopeAnswers v) .scope

def coveritemRow (vs : List Visited) (id : Nat) (entry : (String × Nat) × Api.CoverIndex) :
    CoveritemRow where
  coveritemId  := id
  scopeId      := entry.fst.fst
  localIndex   := entry.fst.snd
  coverType    := entry.snd.type
  flags        := entry.snd.flags
  name         := entry.snd.name
  atLeast      := entry.snd.atLeast
  weight       := entry.snd.weight
  goal         := entry.snd.goal
  limit        := entry.snd.limit
  bitlen       := entry.snd.bitlen
  sourceFileId := sourceFileId vs entry.fst.fst entry.snd.srcinfo
  sourceLine   := entry.snd.srcinfo.bind (·.line)
  sourceCol    := entry.snd.srcinfo.bind (·.token)

def itemRows (vs : List Visited) (v : Visited) : List PropertyRow :=
  (v.coverItems.mapIdx fun i ci =>
    match (coveritemIds vs).get? (v.uid, i) with
    | some id => harvestAttributes (toString id) .coveritem ci.attributes
    | none    => []).flatten

-- A handle property refers to a scope that was visited before, or to the scope itself.
def propertyRows (vs : List Visited) : List PropertyRow :=
  (vs.mapIdx fun i v =>
    harvestProperties v.data.properties v.uid .scope (uidOf <| vs.take (i + 1)) ++
      itemRows vs v).flatten

def definitions (vs : List Visited) : Definitions where
  scopes        := vs.mapIdx (scopeRow vs)
  coveritems    := (items vs).mapIdx (coveritemRow vs)
  crossOperands := vs.flatMap <| crossOperands (uidOf vs)
  properties    := propertyRows vs
  sourceFiles   := (fileKeys vs).map fun key => ⟨key.fst, fileId (fileKeys vs) key, key.snd⟩

end Walk

-- Writing a database as a run.

namespace Walk

-- The nodes by kind; one that is met under several kinds counts once.
def orderedHistory (db : Api.UCIS) : List Api.HistoryNode :=
  (HistoryNodeKind.each.flatMap db.historyNodes).foldl (fun ordered node =>
    if node.handle ∈ ordered.map (·.handle) then ordered else ordered ++ [node]) []

def historyIds (runId : String) (nodes : List Api.HistoryNode) : List (Api.Handle × String) :=
  nodes.mapIdx fun i node => (node.handle, historyNodeId runId i node.logicalName)

def historyRow (ids : List (Api.Handle × String)) (localIndex : Nat) (nodeId : String)
    (node : Api.HistoryNode) : HistoryRow where
  nodeId
  parentId          := node.parent.bind fun parent => (Dict.ofList ids).get? parent
  kind              := node.kind
  localIndex
  logicalName       := node.logicalName
  physicalName      := node.physicalName
  toolCategory      := node.toolCategory
  ucisVersion       := node.ucisVersion
  vendorId          := node.vendorId
  vendorTool        := node.vendorTool
  vendorToolVersion := node.vendorToolVersion
  cmdline           := node.cmd
  args              := node.args
  runCwd            := node.runCwd
  hostOs            := none
  userName          := node.userName
  seed              := node.seed
  timeUnit          := node.timeUnit
  comment           := node.comment
  date              := node.date.bind (·.getLeft?)
  dateInt           := node.date.bind (·.getRight?)
  compulsory        := node.compulsory
  sameTests         := node.sameTests
  simTime           := node.simTime
  cpuTime           := node.cpuTime
  cost              := node.cost
  status            := node.testStatus
  promotedProps     := some <| promotedMask (answers node.properties) .historyNode

def historyRows (runId : String) (nodes : List Api.HistoryNode) : List HistoryRow :=
  let ids := historyIds runId nodes
  nodes.mapIdx fun i node => historyRow ids i (historyNodeId runId i node.logicalName) node

def historyProps (runId : String) (nodes : List Api.HistoryNode) : List PropertyRow :=
  (nodes.mapIdx fun i node =>
    harvestProperties node.properties (historyNodeId runId i node.logicalName) .historyNode
      fun _ => none).flatten

-- The associations of a database that holds them itself, by the position of the node in the history
-- and by flat bin index.
def assocRows (runId : String) (nodes : List Api.HistoryNode) (flat : List Nat)
    (perTest : Dict Nat (Dict Nat Nat)) : List AssocRow :=
  (perTest.entries.insertionSort (·.fst ≤ ·.fst)).flatMap fun (histIdx, bins) =>
    match nodes[histIdx]? with
    | none      => []
    | some node =>
      (bins.entries.insertionSort (·.fst ≤ ·.fst)).filterMap fun (binIndex, count) =>
        flat[binIndex]?.map fun id => ⟨historyNodeId runId histIdx node.logicalName, id, some count⟩

-- A bin without a result has no row.
def formalRows (flat : List Nat) (getFormalData : Nat → Option FormalData) : List FormalRow :=
  (flat.zipIdx.filterMap fun (id, binIndex) =>
    ((getFormalData binIndex).filter (· ≠ {})).map (id, ·))

def counts (vs : List Visited) : List CountRow :=
  (items vs).mapIdx fun id entry => (id, entry.snd.data)

def measures (db : Api.UCIS) (runId : String) : Measures :=
  let vs := visited db
  let flat := flatCoveritemIds db vs
  let nodes := orderedHistory db
  {
    counts         := counts vs
    historyNodes   := historyRows runId nodes
    historyProps   := historyProps runId nodes
    testCoverAssoc := assocRows runId nodes flat (db.perTestData.getD ∅)
    formal         := (db.getFormalData.map <| formalRows flat).getD []
  }

end Walk

namespace ParquetWriter

-- The number of runs, with at least four digits.
def autoRunId (count : Nat) : String :=
  let digits := toString count
  "run-" ++ String.ofList (List.replicate (4 - digits.length) '0') ++ digits

-- The run id that was written, and the dataset.
def write (ds : Dataset) (db : Api.UCIS) (runId : Option String) (replaceRun : Bool := false) :
    Except ParquetError (String × Dataset) := do
  let runId := runId.getD (autoRunId ds.runIds.length)
  if runId ∈ ds.runIds ∧ !replaceRun then
    throw (.fileExists runId)
  let ds ← writeDefinitions ds (Walk.definitions <| Walk.visited db) !ds.runIds.isEmpty
  return (runId, writeRun ds runId (Walk.measures db runId))

end ParquetWriter
