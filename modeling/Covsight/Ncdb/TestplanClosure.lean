import Covsight.Lib.Dict
import Covsight.Mem.UCIS
import Covsight.Ncdb.TestRegistry
import Covsight.Ncdb.TestStats
import Mathlib.Data.List.Basic
import Covsight.Lib.Interning
import Covsight.Lib.StableSort

-- The data model of a test plan.

-- One verification task, with the names of the tests that exercise it.
structure Testpoint where
  name           : String
  stage          : String := ""
  tests          : List String := []
  na             : Bool := false
  sourceTemplate : String := ""
  deriving DecidableEq, Repr

-- A node of the tree of goals. Its test points may be built or still as they were read.
inductive Goal (α : Type)
  | mk (id : String) (testpoints : List α) (goals : List (Goal α))

-- The test points of some goals, depth-first and each goal's own before those of its subgoals.
def iterGoalTestpoints {α : Type} : List (Goal α) → List α
  | []                                 => []
  | .mk _ testpoints subgoals :: goals =>
    testpoints ++ iterGoalTestpoints subgoals ++ iterGoalTestpoints goals

structure CoverpointEntry where
  name : String := ""
  desc : String := ""
  path : String := ""
  deriving DecidableEq, Repr

structure CovergroupEntry where
  name        : String := ""
  desc        : String := ""
  coverpoints : List CoverpointEntry := []
  deriving DecidableEq, Repr

-- A plan with its tree of goals, where an archive keeps the text of one.
structure ParsedTestplan where
  name        : String := ""
  testpoints  : List Testpoint := []
  goals       : List (Goal Testpoint) := []
  covergroups : List CovergroupEntry := []

-- All test points, the top level first.
def ParsedTestplan.iterTestpoints (plan : ParsedTestplan) : List Testpoint :=
  plan.testpoints ++ iterGoalTestpoints plan.goals

-- The closure status of a test plan against the test runs that a database records.

inductive TPStatus
  | closed
  | partly
  | failing
  | notRun
  | na
  | unimplemented
  deriving DecidableEq, Repr

structure TestpointResult where
  testpoint    : Testpoint
  status       : TPStatus
  matchedTests : List String
  passCount    : Nat := 0
  failCount    : Nat := 0
  deriving DecidableEq, Repr

-- Where the runs are taken from: the binary history where there is one, else the history nodes.
inductive RunSource
  | v2History (registry : StringIds) (stats : TestStatsTable)
  | historyNodes (nodes : List HistoryNode)

-- The passes and failures of the tests by name.
structure Tallies where
  testPass : Dict String Nat := ∅
  testFail : Dict String Nat := ∅

namespace Tallies

def passes (t : Tallies) (name : String) : Nat :=
  (t.testPass.get? name).getD 0

def fails (t : Tallies) (name : String) : Nat :=
  (t.testFail.get? name).getD 0

def has (t : Tallies) (name : String) : Bool :=
  name ∈ t.testPass ∨ name ∈ t.testFail

def names (t : Tallies) : List String :=
  t.testPass.keys ++ t.testFail.keys.filter (· ∉ t.testPass.keys)

def addStats (stats : TestStatsTable) (t : Tallies) : String × Nat → Tallies
  | (name, nameId) =>
    match stats.entries[nameId]? with
    | none   => t
    | some e => {
      testPass := t.testPass.set name e.passCount
      testFail := t.testFail.set name e.failCount
    }

def addNode (t : Tallies) (node : HistoryNode) : Tallies :=
  if node.testStatus = .ok then
    { t with testPass := t.testPass.set node.logicalName (t.passes node.logicalName + 1) }
  else
    { t with testFail := t.testFail.set node.logicalName (t.fails node.logicalName + 1) }

end Tallies

def RunSource.tallies : RunSource → Tallies
  | v2History registry stats => registry.strings.zipIdx.foldl (Tallies.addStats stats) {}
  | historyNodes nodes       => (historyNodesOf nodes .test).foldl Tallies.addNode {}

section Patterns

-- The decimal digits of all scripts.
variable (isDecimal : Char → Bool)

-- `re.sub(r'_\d+$', '', pattern)`; the end of a text is also before a last line break.
def stripSeed (pattern : String) : String :=
  let cs := pattern.toList
  let (body, tail) := if cs.getLast? = some '\n' then (cs.dropLast, ['\n']) else (cs, [])
  let digits := body.reverse.takeWhile isDecimal
  match body.reverse.dropWhile isDecimal with
  | '_' :: kept => if digits.isEmpty then pattern else String.ofList (kept.reverse ++ tail)
  | _           => pattern

-- A pattern that ends in `_*` stands for the names that start with what is before the star.
def isPrefixPattern (pattern : String) : Bool :=
  ['_', '*'].isSuffixOf pattern.toList

def startsWithPattern (pattern name : String) : Bool :=
  pattern.toList.dropLast.isPrefixOf name.toList

-- The tests that were matched so far.
structure Matches where
  matched : List String := []
  passes  : Nat := 0
  fails   : Nat := 0

def Matches.add (t : Tallies) (m : Matches) (name : String) : Matches where
  matched := m.matched ++ [name]
  passes  := m.passes + t.passes name
  fails   := m.fails + t.fails name

-- An exact match, or else one without the seed, or else all that start alike and are new.
def matchPattern (t : Tallies) (m : Matches) (pattern : String) : Matches :=
  if t.has pattern then
    m.add t pattern
  else if stripSeed isDecimal pattern ≠ pattern ∧ t.has (stripSeed isDecimal pattern) then
    m.add t (stripSeed isDecimal pattern)
  else if isPrefixPattern pattern then
    t.names.foldl (fun m name =>
      if startsWithPattern pattern name ∧ name ∉ m.matched then m.add t name else m) m
  else
    m

def closureOf (t : Tallies) (tp : Testpoint) : TestpointResult :=
  if tp.na then
    { testpoint := tp, status := .na, matchedTests := [] }
  else if tp.tests.isEmpty then
    { testpoint := tp, status := .unimplemented, matchedTests := [] }
  else
    let m := tp.tests.foldl (matchPattern isDecimal t) {}
    {
      testpoint    := tp
      status       :=
        if m.matched.isEmpty then .notRun
        else if m.fails = 0 then .closed
        else if m.passes = 0 then .failing
        else .partly
      matchedTests := m.matched
      passCount    := m.passes
      failCount    := m.fails
    }

def computeClosure (plan : ParsedTestplan) (source : RunSource) : List TestpointResult :=
  plan.iterTestpoints.map (closureOf isDecimal source.tallies)

end Patterns

-- What is asked of a test plan: the test point of a test, the stages, and whether the gate of a stage is met.

namespace ParsedTestplan

variable (plan : ParsedTestplan)

-- The last test point that lists a name. The names stay in the order they were listed first.
def tpByTest : Dict String Testpoint :=
  .ofList <| plan.iterTestpoints.flatMap fun tp => tp.tests.map (·, tp)

def testpointForTest (isDecimal : Char → Bool) (testName : String) : Option Testpoint :=
  match plan.tpByTest.get? testName with
  | some tp => some tp
  | none    =>
    let stripped := stripSeed isDecimal testName
    match if stripped ≠ testName then plan.tpByTest.get? stripped else none with
    | some tp => some tp
    | none    =>
      (plan.tpByTest.entries.find? fun (pattern, _) =>
        isPrefixPattern pattern && startsWithPattern pattern testName).map (·.snd)

end ParsedTestplan

-- The standard stages. All others come last.
def stageOrder (stage : String) : Nat :=
  ([("V1", 0), ("V2", 1), ("V2S", 2), ("V3", 3)].lookup stage).getD 99

def ParsedTestplan.stages (plan : ParsedTestplan) : List String :=
  (internAll <| plan.iterTestpoints.map (·.stage)).insertionSort fun a b => stageOrder a ≤ stageOrder b

structure StageGate where
  passed   : Bool
  stage    : String
  blocking : List TestpointResult
  message  : String

def gateMessage (stage : String) (blocking : List TestpointResult) : String :=
  if blocking.isEmpty then
    "Stage " ++ stage ++ " gate PASSED"
  else
    let names := ", ".intercalate <| (blocking.take 5).map (·.testpoint.name)
    let extra := if blocking.length > 5 then " (+" ++ toString (blocking.length - 5) ++ " more)" else ""
    "Stage " ++ stage ++ " gate FAILED — blocking: " ++ names ++ extra

-- A result that is no longer in the way.
def TPStatus.isDone (status : TPStatus) : Bool :=
  status ∈ [.closed, .na, .unimplemented]

def stageGateStatus (results : List TestpointResult) (stage : String) (plan : ParsedTestplan)
    (requireGoalsClosed : Bool := false) : StageGate :=
  let stagesRequired := plan.stages.filter fun s => stageOrder s ≤ stageOrder stage
  let blocking := results.filter fun r =>
    (requireGoalsClosed || r.testpoint.stage ∈ stagesRequired) && !r.status.isDone
  { passed := blocking.isEmpty, stage, blocking, message := gateMessage stage blocking }
