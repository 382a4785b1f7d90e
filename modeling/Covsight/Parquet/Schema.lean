import Covsight.Api.UCIS
import Covsight.Ncdb.MemberMerge

-- The tables of a Parquet dataset. The definition tables are written once, the measurement tables
-- once for each run.

inductive ObjectKind
  | scope
  | coveritem
  | historyNode
  deriving DecidableEq, Repr

-- The namespace and the id of a property row: a typed property, or an attribute or a tag of covsight's
-- own.
inductive PropId
  | int (property : IntProperty)
  | str (property : StrProperty)
  | real (property : RealProperty)
  | handle (property : HandleProperty)
  | attr (key : String)
  | tag (name : String)
  deriving DecidableEq, Repr

structure ScopeRow where
  uniqueId      : String
  parentId      : Option String
  dfsOrdinal    : Nat
  scopeType     : ScopeTypeT
  flags         : Option Int
  name          : String
  duId          : Option String
  sourceFileId  : Option Nat
  sourceLine    : Option Int
  sourceCol     : Option Int
  weight        : Option Int
  goal          : Option Int
  source        : Option Int
  instanceDuId  : Option String
  promotedProps : Nat
  deriving DecidableEq, Repr

structure CoveritemRow where
  coveritemId  : Nat
  scopeId      : String
  localIndex   : Nat
  coverType    : CoverTypeT
  flags        : Option Int
  name         : Option String
  atLeast      : Option Int
  weight       : Option Int
  goal         : Option Int
  limit        : Option Int
  bitlen       : Option Int
  sourceFileId : Option Nat
  sourceLine   : Option Int
  sourceCol    : Option Int
  deriving DecidableEq, Repr

structure CrossOperandRow where
  crossId      : String
  operandIndex : Nat
  coverpointId : Option String
  name         : Option String
  deriving DecidableEq, Repr

-- The column for the type of the property holds the value.
structure PropertyRow where
  objectId   : String
  objectKind : ObjectKind
  propId     : PropId
  i64        : Option Int := none
  f64        : Option Rat := none
  str        : Option String := none
  handle     : Option String := none
  deriving DecidableEq

-- The promoted properties have columns of their own; a bit tells whether the object answered. The order
-- is that of the bits.

def promotedScope : List PropId :=
  [.int .scopeWeight, .int .scopeGoal, .int .coverGoal, .int .toggleCovered, .int .scopeSourceType,
    .int .numCrossedCvps, .str .ithCrossedCvpName]

def promotedHistory : List PropId :=
  [.int .testStatus, .int .testCompulsory, .str .histCmdline, .str .histRuncwd, .str .testUsername,
    .str .comment, .str .verVendorId, .str .verVendorTool, .str .verVendorVersion, .real .simtime,
    .real .cputime, .real .cost]

def promotedProperties : ObjectKind → List PropId
  | .scope       => promotedScope
  | .historyNode => promotedHistory
  | .coveritem   => []

structure SourceFileRow where
  duId   : String
  fileId : Nat
  path   : String
  deriving DecidableEq, Repr

structure HistoryRow where
  nodeId            : String
  parentId          : Option String := none
  kind              : Option HistoryNodeKind := none
  localIndex        : Nat
  logicalName       : Option String := none
  physicalName      : Option String := none
  toolCategory      : Option String := none
  ucisVersion       : Option String := none
  vendorId          : Option String := none
  vendorTool        : Option String := none
  vendorToolVersion : Option String := none
  cmdline           : Option String := none
  args              : Option String := none
  runCwd            : Option String := none
  hostOs            : Option String := none
  userName          : Option String := none
  seed              : Option String := none
  timeUnit          : Option String := none
  comment           : Option String := none
  date              : Option String := none
  dateInt           : Option Int := none
  compulsory        : Option Int := none
  sameTests         : Option Int := none
  simTime           : Option Rat := none
  cpuTime           : Option Rat := none
  cost              : Option Rat := none
  status            : Option TestStatusT := none
  promotedProps     : Option Nat := none
  deriving DecidableEq

-- A bin and its count.
abbrev CountRow := Nat × Nat

structure AssocRow where
  testId      : String
  coveritemId : Nat
  count       : Option Nat
  deriving DecidableEq, Repr

-- A bin and its formal result.
abbrev FormalRow := Nat × FormalData

structure Definitions where
  scopes        : List ScopeRow := []
  coveritems    : List CoveritemRow := []
  crossOperands : List CrossOperandRow := []
  properties    : List PropertyRow := []
  sourceFiles   : List SourceFileRow := []
  deriving DecidableEq

structure Measures where
  counts         : List CountRow := []
  historyNodes   : List HistoryRow := []
  historyProps   : List PropertyRow := []
  testCoverAssoc : List AssocRow := []
  formal         : List FormalRow := []
  deriving DecidableEq

-- How the counts of a bin are merged.
inductive MergeOp
  | sum
  | max
  deriving DecidableEq, Repr

-- A peak is a high-water mark, not a total.
def mergeOp : CoverTypeT → MergeOp
  | .peakActiveBin => .max
  | _              => .sum

-- A dataset: a directory with the definition tables and a partition of the measurement tables for
-- each run. The manifest lists the runs.

-- What the operations on datasets raise.
inductive ParquetError
  | noManifest
  | noRun (runIds : List String)
  | fileExists (runId : String)
  | definitionMismatch (table : String)
  | nothingToCompact
  | compactionTarget (runId : String)
  deriving DecidableEq, Repr

-- The manifest is written with the first run.
structure Dataset where
  definitions : Option Definitions := none
  runs        : Dict String Measures := ∅

namespace Dataset

def runIds (ds : Dataset) : List String :=
  ds.runs.keys

end Dataset

namespace ParquetWriter

-- A table that is not there agrees with an empty one.
def checkTable {α : Type} [DecidableEq α] (name : String) (stored : Option (List α)) (table : List α) :
    Except ParquetError Unit :=
  match stored with
  | none        => if table.isEmpty then .ok () else .error (.definitionMismatch name)
  | some stored => if stored = table then .ok () else .error (.definitionMismatch name)

def checkDefinitions (ds : Dataset) (defs : Definitions) : Except ParquetError Unit := do
  checkTable "scopes" (ds.definitions.map (·.scopes)) defs.scopes
  checkTable "coveritems" (ds.definitions.map (·.coveritems)) defs.coveritems
  checkTable "cross_operands" (ds.definitions.map (·.crossOperands)) defs.crossOperands
  checkTable "properties" (ds.definitions.map (·.properties)) defs.properties
  checkTable "source_files" (ds.definitions.map (·.sourceFiles)) defs.sourceFiles

def writeDefinitions (ds : Dataset) (defs : Definitions) (allowExisting : Bool) :
    Except ParquetError Dataset :=
  if allowExisting then do
    checkDefinitions ds defs
    return ds
  else
    .ok { ds with definitions := some defs }

-- A run that is there is replaced in place, since the order of the runs is the order of the history.
def writeRun (ds : Dataset) (runId : String) (measures : Measures) : Dataset :=
  { ds with runs := ds.runs.set runId measures }

end ParquetWriter
