import Covsight.Ncdb.NcdbUCIS
import Covsight.Ncdb.TestplanClosure

-- The report on how the closure of a stage went on over time.

inductive PyError
  | typeError (message : String)
  | attributeError (name : String)
  deriving DecidableEq

-- What is raised for an argument that a function has no parameter for.
def unexpectedKeyword (function keyword : String) : PyError :=
  .typeError (function ++ "() got an unexpected keyword argument '" ++ keyword ++ "'")

-- The parameters are the plan and the stage, so no argument can be given by any other keyword.
def ParsedTestplan.testpointsForStage (plan : ParsedTestplan) (stage : String) (keywords : List String) :
    Except PyError (List Testpoint) :=
  match keywords with
  | []           => .ok (plan.iterTestpoints.filter (·.stage = stage))
  | keyword :: _ => .error (unexpectedKeyword "Testplan.testpointsForStage" keyword)

-- The class has no such method.
def NcdbUCIS.getBucketReader (_ : NcdbUCIS) (_ : BucketIndexEntry) : Except PyError BucketFile :=
  .error (.attributeError "_get_bucket_reader")

-- Nor has this one; names are told by `name_for_id`.
def TestRegistry.lookupName (_ : TestRegistry) (_ : Nat) : Except PyError String :=
  .error (.attributeError "lookup_name")

-- The timestamp, the closed test points and all of them.
abbrev StageSample := Int × Nat × Nat

-- A percentage is a number with a decimal, zero if there is nothing to take it of.
structure StageProgression (π : Type) where
  stage      : String
  series     : List StageSample
  currentPct : π

-- Whether a name starts with what is before the stars of a test.
def startsWithTest (name test : String) : Bool :=
  (test.toList.reverse.dropWhile (· = '*')).reverse <+: name.toList

-- The passed names, up to the record whose name cannot be told.
def addPassed (registry : TestRegistry) : (passed : List String) → List BucketRecord → List String
  | passed, []      => passed
  | passed, r :: rs =>
    match registry.lookupName r.nameId with
    | .error _  => passed
    | .ok name => addPassed registry (if r.status = histStatusOk then passed ++ [name] else passed) rs

-- A bucket that cannot be read is passed over.
def passedIn (db : NcdbUCIS) (s : V2State) (passed : List String) (entry : BucketIndexEntry) : List String :=
  match db.getBucketReader entry with
  | .error _    => passed
  | .ok reader => addPassed s.registry passed reader.records

def closedCount (plan : ParsedTestplan) (stage : String) (passed : List String) : Except PyError Nat := do
  let tps ← plan.testpointsForStage stage ["include_lower"]
  return (tps.flatMap (·.tests)).countP fun t => passed.any (startsWithTest · t)

-- The series ends at an error.
def samplesFrom (db : NcdbUCIS) (s : V2State) (plan : ParsedTestplan) (stage : String) (total : Nat) :
    (passed : List String) → List BucketIndexEntry → List StageSample
  | _,      []      => []
  | passed, e :: es =>
    let passed := passedIn db s passed e
    match closedCount plan stage passed with
    | .error _   => []
    | .ok closed => (e.tsEnd, closed, total) :: samplesFrom db s plan stage total passed es

section

variable {π : Type} (pct : Nat → Nat → π) (db : NcdbUCIS) (file : Option V2Members) (plan : ParsedTestplan) (stage : String)

def reportStageProgression : Except PyError (StageProgression π) := do
  let total := (← plan.testpointsForStage stage ["include_lower"]).length
  if total = 0 then
    return ⟨stage, [], pct 0 0⟩
  let series := match db.ensureV2History file with
    | none         => []
    | some (db, s) => samplesFrom db s plan stage total [] s.bucketIndex.entries
  return ⟨stage, series, (series.getLast?.map fun last => pct last.snd.fst last.snd.snd).getD (pct 0 0)⟩

end

-- What the report is to show: for each bucket, how many of the test points at or below the stage have a passing run in
-- the buckets up to it.

def stageTestpoints (plan : ParsedTestplan) (stage : String) : List Testpoint :=
  plan.iterTestpoints.filter fun tp => stageOrder tp.stage ≤ stageOrder stage

def hasPassed (s : V2State) (entries : List BucketIndexEntry) (tp : Testpoint) : Bool :=
  entries.any fun e => ((s.sealedBuckets.get? e.bucketSeq).elim [] (·.records)).any fun r =>
    r.status = histStatusOk ∧ s.registry.names.strings[r.nameId]?.any fun name => tp.tests.any (startsWithTest name)

def stageSeries (s : V2State) (plan : ParsedTestplan) (stage : String) : List StageSample :=
  s.bucketIndex.entries.zipIdx.map fun (e, i) =>
    let tps := stageTestpoints plan stage
    (e.tsEnd, tps.countP (hasPassed s (s.bucketIndex.entries.take (i + 1))), tps.length)

-- There never is a report, as the plan is asked with an argument that it does not take.
theorem reportStageProgression_raises {π : Type} (pct : Nat → Nat → π) (db : NcdbUCIS) (file : Option V2Members)
    (plan : ParsedTestplan) (stage : String) (s : V2State) :
    reportStageProgression pct db file plan stage =
      .error (unexpectedKeyword "Testplan.testpointsForStage" "include_lower") ∧
    ¬∃ report, reportStageProgression pct db file plan stage = .ok report ∧
      report.series = stageSeries s plan stage := by
  have hr : reportStageProgression pct db file plan stage =
      .error (unexpectedKeyword "Testplan.testpointsForStage" "include_lower") := rfl
  refine ⟨hr, fun ⟨report, hok, _⟩ => ?_⟩
  rw [hr] at hok
  cases hok

-- A test point that is closed by a run in the only bucket.
theorem stage_progression_missing :
    let record : BucketRecord := { nameId := 0, seedId := 0, ts := 5, status := histStatusOk, flags := 0 }
    let bucket : BucketFile   := {
      tsBase := 5, nameIndex := [(0, 0, 1)], seedIds := [0], seedCol := [0], tsDeltas := [0], statusFlags := [0] }
    let s : V2State := {
      registry      := { names := { strings := ["smoke"] } }
      bucketIndex   := { entries := [bucketEntry 0 [record] (·.status = histStatusFail)] }
      sealedBuckets := .ofList [(0, bucket)] }
    let plan : ParsedTestplan := { testpoints := [{ name := "boots", stage := "V1", tests := ["smoke"] }] }
    stageSeries s plan "V1" = [(5, 1, 1)] ∧
    ¬∃ report, reportStageProgression (fun n _ => n) { state := some s } none plan "V1" = .ok report ∧
      report.series = stageSeries s plan "V1" := by
  refine ⟨?_, ?_⟩
  · simp only [stageSeries, stageTestpoints, ParsedTestplan.iterTestpoints, iterGoalTestpoints]
    decide +kernel
  · rintro ⟨report, hok, _⟩
    cases hok
