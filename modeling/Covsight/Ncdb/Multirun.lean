import Covsight.Ncdb.MergeOps
import Mathlib.Tactic.Common

-- One recorded squash operation.
structure SquashLogEntry where
  ts       : Nat
  policy   : Nat
  fromRun  : Nat
  toRun    : Nat
  numRuns  : Nat
  passRuns : Nat
  deriving DecidableEq, Repr

-- The append-only audit trail of squash operations.
abbrev SquashLog := List SquashLogEntry

-- The widths the fields are packed with: `<IB3xIIII`.
def SquashLogEntry.packs (e : SquashLogEntry) : Bool :=
  e.ts < 2 ^ 32 ∧ e.policy < 2 ^ 8 ∧ e.fromRun < 2 ^ 32 ∧ e.toRun < 2 ^ 32 ∧ e.numRuns < 2 ^ 32 ∧
    e.passRuns < 2 ^ 32

-- `none` where packing an entry (or the number of entries) raises.
def SquashLog.serialize (log : SquashLog) : Option SquashLog :=
  if log.length < 2 ^ 32 ∧ log.all (·.packs) then some log else none

-- Several runs in one archive: a baseline count array, a run table and one count array for each
-- live run.

-- The run id of the baseline held in `counts.bin`.
def baselineRunId : String := "squashed"

-- The members that hold count arrays: `counts.bin`, and `counts/run-NNNNN.bin` for each index.
inductive CountsMember
  | counts
  | run (index : Nat)
  deriving DecidableEq, Repr

-- The metadata a caller records with a run, as far as a squash policy reads it.
structure RunFields where
  status : Option String := none
  rerun  : Bool := false
  deriving DecidableEq, Repr

structure RunEntry where
  runId   : String
  member  : CountsMember
  nonzero : Option Nat := none
  fields  : RunFields := {}
  deriving DecidableEq, Repr

inductive RunError
  | keyError (member : CountsMember)
  | unknownRuns (missing has : List String)
  | noCounts
  | otherWidth (bins archive : Nat)
  | fileExists (runId : String)
  | noRunsLeft (dropped : List String)
  | nothingSelected (policy : Nat)
  | unserializable
  deriving DecidableEq, Repr

-- The run table in insertion order.
structure RunTable where
  entries : List RunEntry := []
  deriving DecidableEq, Repr

namespace RunTable

def runIds (table : RunTable) : List String :=
  table.entries.map (·.runId)

def get (table : RunTable) (runId : String) : Option RunEntry :=
  table.entries.find? (·.runId = runId)

def upsertIn (entry : RunEntry) : List RunEntry → List RunEntry
  | []      => [entry]
  | e :: es => if e.runId = entry.runId then entry :: es else e :: upsertIn entry es

-- Adds an entry, or replaces the one of the same run in place.
def upsert (table : RunTable) (entry : RunEntry) : RunTable where
  entries := upsertIn entry table.entries

def removeIn (runId : String) : List RunEntry → List RunEntry
  | []      => []
  | e :: es => if e.runId = runId then es else e :: removeIn runId es

def remove (table : RunTable) (runId : String) : RunTable where
  entries := removeIn runId table.entries

-- The run-member indices the table uses.
def usedIndices (table : RunTable) : List Nat :=
  table.entries.filterMap fun e =>
    match e.member with
    | .counts    => none
    | .run index => some index

end RunTable

-- The members of an archive that hold its counts, and the squash log that a squash rewrites
-- together with them. All other members are copied through verbatim.
structure RunMembers where
  counts    : Option Counts := none
  runs      : Option RunTable := none
  runCounts : Dict Nat Counts := ∅
  mergeOps  : Option MergeOps := none
  squashLog : Option SquashLog := none

namespace RunMembers

def read (a : RunMembers) : CountsMember → Option Counts
  | .counts    => a.counts
  | .run index => a.runCounts.get? index

-- A single-run archive has no table; one is synthesized naming the baseline.
def runTable (a : RunMembers) : RunTable :=
  match a.runs with
  | some table => table
  | none       =>
    match a.counts with
    | some _ => ⟨[{ runId := baselineRunId, member := .counts }]⟩
    | none   => {}

def runIds (a : RunMembers) : List String :=
  a.runTable.runIds

def ops (a : RunMembers) : MergeOps :=
  MergeOps.read a.mergeOps

-- The count arrays of some runs; a run whose member is missing is skipped.
def arraysOf (a : RunMembers) (selected : List String) : List Counts :=
  selected.filterMap fun runId => (a.runTable.get runId).bind fun entry => a.read entry.member

def resolveCounts (a : RunMembers) (runs : Option (List String)) : Except RunError Counts :=
  if a.runTable.entries.isEmpty then
    match a.counts with
    | some counts => .ok counts
    | none        => .error (.keyError .counts)
  else
    let selected := runs.getD a.runIds
    let missing := selected.filter (· ∉ a.runIds)
    if ¬missing.isEmpty then
      .error (.unknownRuns missing a.runIds)
    else
      match a.arraysOf selected with
      | []     => .ok []
      | [row]  => .ok row
      | arrays => .ok (mergeCounts (padCounts arrays) a.ops)

-- Rewrites the archive with new run members and an updated table.
def rewrite (a : RunMembers) (newMembers : Dict Nat Counts) (table : RunTable) : RunMembers :=
  { a with runCounts := a.runCounts.update newMembers, runs := some table }

-- Removes the members of some runs; the baseline's member is never removed.
def popMembers (a : RunMembers) (entries : List RunEntry) : RunMembers :=
  { a with
    runCounts := entries.foldl (fun runCounts e =>
      match e.member with
      | .counts    => runCounts
      | .run index => runCounts.pop index) a.runCounts }

end RunMembers

-- The lowest index from `index` on that is not in `used`; `fuel` bounds the indices tried.
def firstUnused (used : List Nat) : (fuel index : Nat) → Nat
  | 0,        index => index
  | fuel + 1, index => if index ∈ used then firstUnused used fuel (index + 1) else index

def nextMemberIndex (table : RunTable) (taken : List Nat) : Nat :=
  let used := taken ++ table.usedIndices
  firstUnused used used.length 0

-- The counts of a database in creation order of the items.
def countsOf (db : MemUCIS) : Counts :=
  db.coverItems.map (·.data.data)

-- A decimal numeral padded with zeros on the left.
def zeroPadded (digits n : Nat) : String :=
  let s := toString n
  String.ofList (List.replicate (digits - s.length) '0') ++ s

-- One run to append: its id, or `none` for an automatic name, and either a database or counts.
structure Run where
  runId  : Option String := none
  db     : Option MemUCIS := none
  counts : Option Counts := none
  fields : RunFields := {}

-- The counts to append, if any were supplied.
def Run.suppliedCounts (run : Run) : Option Counts :=
  run.counts.or (run.db.map countsOf)

-- The accelerated varint encoder takes 64-bit values only.
def countsSerialize (accel : Bool) (counts : Counts) : Except RunError Counts :=
  if accel ∧ counts.any (2 ^ 64 ≤ ·) then .error .unserializable else .ok counts

-- The state of a batch of appends before the archive is rewritten.
structure Batch where
  table      : RunTable
  newMembers : Dict Nat Counts := ∅
  claimed    : List Nat := []
  written    : List String := []

namespace Batch

-- `run-NNNN` from the number of runs other than the baseline.
def autoRunId (b : Batch) : String :=
  "run-" ++ zeroPadded 4 (b.table.runIds.filter (· ≠ baselineRunId)).length

-- A run that is replaced keeps its member, unless that member is the baseline's.
def memberIndex (b : Batch) (runId : String) : Nat × List Nat :=
  match (b.table.get runId).map RunEntry.member with
  | some (.run index) => (index, b.claimed)
  | _                 =>
    let index := nextMemberIndex b.table b.claimed
    (index, index :: b.claimed)

def entry (b : Batch) (runId : String) (counts : Counts) (fields : RunFields) : RunEntry where
  runId   := runId
  member  := .run (b.memberIndex runId).fst
  nonzero := (counts.filter (· ≠ 0)).length
  fields  := fields

def write (b : Batch) (runId : String) (counts : Counts) (fields : RunFields) : Batch where
  table      := b.table.upsert <| b.entry runId counts fields
  newMembers := b.newMembers.set (b.memberIndex runId).fst counts
  claimed    := (b.memberIndex runId).snd
  written    := b.written ++ [runId]

def append (accel replace : Bool) (baselineWidth : Nat) (b : Batch) (run : Run) :
    Except RunError Batch :=
  match run.suppliedCounts with
  | none        => .error .noCounts
  | some counts =>
    if baselineWidth ≠ 0 ∧ counts.length ≠ baselineWidth then
      .error (.otherWidth counts.length baselineWidth)
    else
      let runId := run.runId.getD b.autoRunId
      if (b.table.get runId).isSome ∧ ¬replace then
        .error (.fileExists runId)
      else do
        let counts ← countsSerialize accel counts
        return b.write runId counts run.fields

end Batch

namespace RunMembers

def appendRuns (accel : Bool) (a : RunMembers) (runs : List Run) (replace : Bool) :
    Except RunError (RunMembers × List String) := do
  let baselineWidth := (a.counts.getD []).length
  let b ← runs.foldlM (Batch.append accel replace baselineWidth) { table := a.runTable }
  return (a.rewrite b.newMembers b.table, b.written)

def appendRun (accel : Bool) (a : RunMembers) (run : Run) (replace : Bool) :
    Except RunError (RunMembers × List String) :=
  a.appendRuns accel [run] replace

def dropRuns (a : RunMembers) (toDrop : List String) : Except RunError (RunMembers × List String) :=
  let remaining := a.runTable.entries.filter (·.runId ∉ toDrop)
  if remaining.isEmpty then
    .error (.noRunsLeft toDrop)
  else
    let a' := a.popMembers <| a.runTable.entries.filter (·.runId ∈ toDrop)
    .ok (a'.rewrite ∅ ⟨remaining⟩, remaining.map (·.runId))

end RunMembers

-- Folding runs into the baseline and reclaiming their count arrays.

-- The merge policies.
def policyAll : Nat := 0
def policyPassOnly : Nat := 1
def policyExcludeErrorRerun : Nat := 2
def policyStrict : Nat := 3

structure SquashResult where
  squashed  : List String
  remaining : List String
  policy    : Nat
  numBins   : Nat
  deriving DecidableEq, Repr

-- A run is admitted unless the table says it failed.
def policyAdmits (entry : Option RunEntry) (policy : Nat) : Bool :=
  match entry with
  | none       => true
  | some entry =>
    if policy = policyAll then
      true
    else
      match entry.fields.status with
      | none        => true
      | some status =>
        if policy = policyPassOnly ∨ policy = policyExcludeErrorRerun then
          status = "pass"
        else if policy = policyStrict then
          status = "pass" ∧ ¬entry.fields.rerun
        else
          true

namespace RunMembers

-- The runs to squash and the runs to keep, in archive order.
def squashPlan (a : RunMembers) (keepRecent : Int) (runs : Option (List String)) :
    List String × List String :=
  let candidates := a.runIds.filter (· ≠ baselineRunId)
  let candidates :=
    match runs with
    | none        => candidates
    | some wanted => candidates.filter (· ∈ wanted)
  if keepRecent ≤ 0 then
    (candidates, [])
  else if keepRecent ≥ candidates.length then
    ([], candidates)
  else
    let n := candidates.length - keepRecent.toNat
    (candidates.take n, candidates.drop n)

-- The arrays of some runs that are held apart from the baseline.
def ownArraysOf (a : RunMembers) (selected : List String) : List Counts :=
  selected.filterMap fun runId =>
    (a.runTable.get runId).bind fun entry =>
      if entry.member = .counts then none else a.read entry.member

-- The baseline with some runs folded into it.
def foldedCounts (a : RunMembers) (toSquash : List String) : Counts :=
  let arrays := a.counts.toList ++ a.ownArraysOf toSquash
  if arrays.isEmpty then [] else mergeCounts (padCounts arrays) a.ops

def dropSquashed (a : RunMembers) (table : RunTable) (toSquash : List String) :
    RunMembers × RunTable :=
  (a.popMembers <| toSquash.filterMap table.get, toSquash.foldl RunTable.remove table)

def appendLog (log : Option SquashLog) (squashed : List String) (policy timestamp : Nat) :
    Except RunError SquashLog :=
  let entry := {
    ts := timestamp, policy := policy, fromRun := 0, toRun := squashed.length,
    numRuns := squashed.length, passRuns := squashed.length
  }
  match SquashLog.serialize (log.getD [] ++ [entry]) with
  | some log => .ok log
  | none     => .error .unserializable

-- The baseline stands in the table once there is one.
def withBaseline (table : RunTable) : RunTable :=
  if (table.get baselineRunId).isSome then
    table
  else
    ⟨{ runId := baselineRunId, member := .counts } :: table.entries⟩

-- The archive with some runs folded into the baseline, before the operation is logged.
def squashRuns (a : RunMembers) (toSquash : List String) (keepRuns : Bool) : RunMembers :=
  let a' := { a with counts := some <| a.foldedCounts toSquash }
  let (a', table) := if keepRuns then (a', a.runTable) else a'.dropSquashed a.runTable toSquash
  a'.rewrite ∅ (withBaseline table)

def squash (accel : Bool) (a : RunMembers) (runs : Option (List String)) (keepRecent : Int)
    (policy : Nat) (keepRuns : Bool) (timestamp : Nat) :
    Except RunError (RunMembers × SquashResult) :=
  let missing := (runs.getD []).filter (· ∉ a.runIds)
  if ¬missing.isEmpty then
    .error (.unknownRuns missing a.runIds)
  else
    let toSquash := (a.squashPlan keepRecent runs).fst.filter fun runId =>
      policyAdmits (a.runTable.get runId) policy
    if toSquash.isEmpty then
      .error (.nothingSelected policy)
    else do
      let merged ← countsSerialize accel <| a.foldedCounts toSquash
      let a' := a.squashRuns toSquash keepRuns
      let log ← appendLog a.squashLog toSquash policy timestamp
      return ({ a' with squashLog := some log }, {
        squashed  := toSquash
        remaining := a'.runIds
        policy    := policy
        numBins   := merged.length
      })

end RunMembers
