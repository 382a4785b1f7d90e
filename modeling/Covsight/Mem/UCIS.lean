import Covsight.Mem.Scope
import Covsight.Lib.Dict
import Mathlib.Algebra.GroupWithZero.Nat
import Mathlib.Data.List.Sort
import Mathlib.Data.Rat.Init

inductive HistoryNodeKind
  | none
  | all
  | test
  | merge
  deriving DecidableEq, Repr

inductive TestStatusT
  | ok
  | warning
  | error
  | fatal
  | missing
  | mergeError
  deriving DecidableEq, Repr

-- A node of the run history. `createHistoryNode` may leave the kind open; the time stamped on
-- creation and the measured times are parameters of the environment.
structure HistoryNode where
  logicalName       : String
  physicalName      : Option String := none
  kind              : Option HistoryNodeKind := none
  testStatus        : TestStatusT := .ok
  simTime           : Rat := -1
  timeUnit          : Option String := none
  runCwd            : Option String := none
  cpuTime           : Rat := -1
  seed              : Option String := none
  cmd               : Option String := none
  args              : Option String := none
  compulsory        : Option String := none
  date              : Int := 0
  userName          : Option String := none
  cost              : Rat := -1
  toolCategory      : String := "unknown"
  vendorId          : String := "unknown"
  vendorTool        : String := "unknown"
  vendorToolVersion : String := "unknown"
  sameTests         : Int := -1
  comment           : Option String := none
  attributes        : Dict String String := ∅
  deriving DecidableEq

-- What `historyNodes` yields for a kind.
def historyNodesOf (nodes : List HistoryNode) (kind : HistoryNodeKind) : List HistoryNode :=
  nodes.filter fun hn => kind = .all ∨ hn.kind = some kind

-- A formal result; a field that was never set is read as its default.
structure FormalData where
  status  : Option Nat := none
  radius  : Option Nat := none
  witness : Option String := none
  deriving DecidableEq, Repr

-- The in-memory database: its scope tree, its run history and the data it keys by the position of
-- a history node or by a flat bin index.
structure MemUCIS where
  scopes       : List Scope := []
  historyNodes : List HistoryNode := []
  -- The hits each history node contributed to each bin.
  perTestData  : Dict Nat (Dict Nat Nat) := ∅
  formalData   : Dict Nat FormalData := ∅
  attributes   : Dict String String := ∅
  -- The names of the registered source files.
  fileHandles   : List String := []
  pathSeparator : Char := '/'

namespace MemUCIS

def createFileHandle (db : MemUCIS) (filename : String) : MemUCIS :=
  if filename ∈ db.fileHandles then
    db
  else
    { db with fileHandles := db.fileHandles ++ [filename] }

def createHistoryNode (db : MemUCIS) (hn : HistoryNode) : MemUCIS :=
  { db with historyNodes := db.historyNodes ++ [hn] }

def recordTestAssociation (db : MemUCIS) (historyIdx binIndex count : Nat) : MemUCIS :=
  let nodeData := (db.perTestData.get? historyIdx).getD ∅
  let nodeData := nodeData.set binIndex ((nodeData.get? binIndex).getD 0 + count)
  { db with perTestData := db.perTestData.set historyIdx nodeData }

def setFormalData (db : MemUCIS) (binIndex : Nat) (fd : FormalData) : MemUCIS :=
  let entry := (db.formalData.get? binIndex).getD {}
  let entry := {
    status  := fd.status.or entry.status
    radius  := fd.radius.or entry.radius
    witness := fd.witness.or entry.witness
  }
  { db with formalData := db.formalData.set binIndex entry }

end MemUCIS

-- Which tests hit a bin.

structure CoverItemTestInfo where
  binIndex  : Nat
  totalHits : Nat
  -- The position in the history, the name and the hits of each test.
  tests     : List (Nat × String × Nat)
  deriving DecidableEq, Repr

-- A test without a name is shown by its position.
def shownName (histIdx : Nat) (name : Option String) : String :=
  (name.filter (· ≠ "")).getD (toString histIdx)

-- The tests that hit a bin, in the order in which they are kept.
def testsOfBin (index : List (Nat × Dict Nat Nat)) (historyName : Nat → Option String) (binIndex : Nat) :
    List (Nat × String × Nat) :=
  index.filterMap fun (histIdx, binCounts) =>
    let count := (binCounts.get? binIndex).getD 0
    if count = 0 then none else some (histIdx, shownName histIdx (historyName histIdx), count)

-- The most hits come first.
def testsForCoveritem (index : List (Nat × Dict Nat Nat)) (historyName : Nat → Option String)
    (binIndex : Nat) : CoverItemTestInfo :=
  let tests := testsOfBin index historyName binIndex
  {
    binIndex
    totalHits := (tests.map (·.snd.snd)).sum
    tests     := tests.insertionSort fun a b => b.snd.snd ≤ a.snd.snd
  }

namespace MemUCIS

def historyName (db : MemUCIS) (histIdx : Nat) : Option String :=
  db.historyNodes[histIdx]?.map (·.logicalName)

def getTestsForCoveritem (db : MemUCIS) (binIndex : Nat) : CoverItemTestInfo :=
  testsForCoveritem db.perTestData.entries db.historyName binIndex

end MemUCIS
