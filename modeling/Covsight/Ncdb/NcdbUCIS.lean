import Covsight.Ncdb.BucketCodec
import Covsight.Ncdb.TestRegistry
import Covsight.Ncdb.TestStats
import Covsight.Ncdb.HistoryBuckets
import Covsight.Ncdb.Multirun

-- The index of the test runs whose coverage has not been squashed yet.
structure ContribIndexEntry where
  runId  : Nat
  nameId : Nat
  status : Nat
  flags  : Nat
  deriving DecidableEq, Repr

def flagIsRerun : Nat := 1
def flagFirstAttemptPassed : Nat := 2

namespace ContribIndexEntry

def isRerun (e : ContribIndexEntry) : Bool :=
  e.flags &&& flagIsRerun ≠ 0

def firstAttemptPassed (e : ContribIndexEntry) : Bool :=
  e.flags &&& flagFirstAttemptPassed ≠ 0

-- The widths the fields are packed with: `<IHBB`.
def packs (e : ContribIndexEntry) : Bool :=
  e.runId < 2 ^ 32 ∧ e.nameId < 2 ^ 16 ∧ e.status < 2 ^ 8 ∧ e.flags < 2 ^ 8

end ContribIndexEntry

structure ContribIndex where
  mergePolicy     : Nat := policyPassOnly
  squashWatermark : Nat := 0
  entries         : List ContribIndexEntry := []
  deriving DecidableEq, Repr

namespace ContribIndex

def insertEntry (entry : ContribIndexEntry) : List ContribIndexEntry → List ContribIndexEntry
  | []      => [entry]
  | e :: es => if e.runId > entry.runId then entry :: e :: es else e :: insertEntry entry es

-- Run ids usually arrive in order; others are put in their place.
def addEntry (ci : ContribIndex) (entry : ContribIndexEntry) : ContribIndex :=
  if ci.entries.getLast?.any (·.runId ≥ entry.runId) then
    { ci with entries := insertEntry entry ci.entries }
  else
    { ci with entries := ci.entries ++ [entry] }

-- Whether a merge policy lets a run count; an unknown policy lets none.
def admits (policy : Nat) (e : ContribIndexEntry) : Bool :=
  if policy = policyAll then
    true
  else if policy = policyPassOnly ∨ policy = policyExcludeErrorRerun then
    e.status = histStatusOk
  else if policy = policyStrict then
    e.status = histStatusOk ∧ ¬(e.isRerun ∧ ¬e.firstAttemptPassed)
  else
    false

def passingRunIds (ci : ContribIndex) (policy : Nat) : List Nat :=
  (ci.entries.filter (admits policy)).map (·.runId)

def setSquashWatermark (ci : ContribIndex) (runId : Nat) : ContribIndex :=
  { ci with squashWatermark := runId }

def removeEntriesUpTo (ci : ContribIndex) (runId : Nat) : ContribIndex :=
  { ci with entries := ci.entries.filter (·.runId > runId) }

def numActive (ci : ContribIndex) : Nat :=
  ci.entries.length

def maxRunId (ci : ContribIndex) : Nat :=
  (ci.entries.map (·.runId)).max?.getD ci.squashWatermark

-- `none` where packing raises.
def serialize (ci : ContribIndex) : Option ContribIndex :=
  if ci.mergePolicy < 2 ^ 8 ∧ ci.squashWatermark < 2 ^ 32 ∧ ci.entries.length < 2 ^ 32 ∧
      ci.entries.all (·.packs) then
    some ci
  else
    none

end ContribIndex

-- The binary run history of an archive: its members as stored.
structure V2Members where
  registry     : Option RegistryFile := none
  stats        : Option TestStatsTable := none
  bucketIndex  : Option BucketIndex := none
  contribIndex : Option ContribIndex := none
  squashLog    : Option SquashLog := none
  -- The buckets by sequence number, in member order.
  buckets      : Dict Nat BucketFile := ∅
  deriving DecidableEq

-- The binary run history once it is loaded.
structure V2State where
  registry      : TestRegistry := {}
  stats         : TestStatsTable := {}
  bucketIndex   : BucketIndex := {}
  contribIndex  : ContribIndex := {}
  squashLog     : SquashLog := []
  sealedBuckets : Dict Nat BucketFile := ∅
  current       : BucketWriter := {}
  deriving DecidableEq

-- The arguments of `add_test_run`; the time is always given.
structure TestRun where
  name        : String
  seed        : String := "0"
  status      : Nat := histStatusOk
  ts          : Int
  cpuTime     : Option Rat := none
  hasCoverage : Bool := false
  isRerun     : Bool := false
  deriving DecidableEq

def TestRun.flags (run : TestRun) : Nat :=
  (if run.isRerun then histFlagIsRerun else 0) ||| if run.hasCoverage then histFlagHasCoverage else 0

-- The entry for a bucket with some records, given how its failures are told.
def bucketEntry (seq : Nat) (recs : List BucketRecord) (failed : BucketRecord → Bool) :
    BucketIndexEntry where
  bucketSeq  := seq
  tsStart    := (recs.map (·.ts)).min?.getD 0
  tsEnd      := (recs.map (·.ts)).max?.getD 0
  numRecords := recs.length
  failCount  := (recs.filter failed).length
  minNameId  := (recs.map (·.nameId)).min?.getD 0
  maxNameId  := (recs.map (·.nameId)).max?.getD 0

namespace V2State

def readRegistry (registry : Option RegistryFile) : Option TestRegistry :=
  match registry with
  | some file => TestRegistry.deserialize file
  | none      => some {}

-- Loading starts a fresh bucket; the stored ones, also the one that was open, count as sealed.
def load (m : V2Members) : Option V2State := do
  let registry ← readRegistry m.registry
  return {
    registry      := registry
    stats         := m.stats.getD {}
    bucketIndex   := m.bucketIndex.getD {}
    contribIndex  := m.contribIndex.getD {}
    squashLog     := m.squashLog.getD []
    sealedBuckets := m.buckets
  }

-- `none` where encoding the bucket raises.
def sealCurrentBucket (accel : Bool) (s : V2State) : Option V2State :=
  if s.current.records.isEmpty then
    some s
  else do
    let seq := s.bucketIndex.nextSeq
    let data ← s.current.encode accel
    return { s with
      sealedBuckets := s.sealedBuckets.set seq data
      bucketIndex   := s.bucketIndex.addBucket <| bucketEntry seq data.records (·.status ≠ 0)
      current       := {}
    }

-- The record of a run once the registry numbered its name and seed.
def recordOf (s : V2State) (run : TestRun) : BucketRecord where
  nameId := (s.registry.lookupNameId run.name).fst
  seedId := (s.registry.lookupSeedId run.seed).fst
  ts     := run.ts
  status := run.status
  flags  := run.flags

-- The ids and statistics that are assigned before the record goes into the bucket.
def register (s : V2State) (run : TestRun) : V2State :=
  let (nameId, registry) := s.registry.lookupNameId run.name
  let (seedId, registry) := registry.lookupSeedId run.seed
  { s with
    registry := registry.assignRunId.snd
    stats    := s.stats.update nameId run.status run.ts run.cpuTime (some seedId)
  }

def sealIfFull (accel : Bool) (s : V2State) : Option V2State :=
  if s.current.isFull then s.sealCurrentBucket accel else some s

-- Only runs with coverage enter the contribution index.
def indexRun (s : V2State) (runId nameId : Nat) (run : TestRun) : V2State :=
  if run.hasCoverage then
    let flags := if run.isRerun then flagIsRerun else 0
    let entry := { runId := runId, nameId := nameId, status := run.status, flags := flags }
    { s with contribIndex := s.contribIndex.addEntry entry }
  else
    s

-- The state after a call and the run id it returns; `none` where it raises.
def addTestRun (accel : Bool) (s : V2State) (run : TestRun) : V2State × Option Nat :=
  let record := s.recordOf run
  let runId := s.registry.nextRunId
  let s := s.register run
  match s.current.add record with
  | none         => (s, none)
  | some current =>
    let s := { s with current := current }
    match s.sealIfFull accel with
    | none   => (s, none)
    | some s => (s.indexRun runId record.nameId run, some runId)

-- Every active run is considered squashed, whether the policy admits it or not.
def squashCoverage (s : V2State) (policy ts : Nat) : V2State :=
  let ci := s.contribIndex
  let watermark := ci.maxRunId
  let entry := {
    ts       := ts
    policy   := policy
    fromRun  := ci.squashWatermark
    toRun    := watermark
    numRuns  := ci.numActive
    passRuns := (ci.passingRunIds policy).length
  }
  { s with
    squashLog    := s.squashLog ++ [entry]
    contribIndex := (ci.removeEntriesUpTo watermark).setSquashWatermark watermark
  }

def inRange (tsFrom tsTo : Option Int) (ts : Int) : Bool :=
  tsFrom.all (· ≤ ts) ∧ tsTo.all (ts ≤ ·)

def recordsIn (data : BucketFile) (nameId : Nat) (tsFrom tsTo : Option Int) : List BucketRecord :=
  (data.recordsForName nameId).filter (inRange tsFrom tsTo ·.ts)

-- The records a query takes from an indexed bucket. All buckets of the file are loaded with the
-- history, so none is looked for in the file.
def storedRecords (s : V2State) (nameId : Nat) (tsFrom tsTo : Option Int)
    (entry : BucketIndexEntry) : List BucketRecord :=
  match s.sealedBuckets.get? entry.bucketSeq with
  | none      => []
  | some data => recordsIn data nameId tsFrom tsTo

-- The records a query takes from the open bucket. A failure to encode it is swallowed, together
-- with its records.
def unsavedRecords (accel : Bool) (s : V2State) (nameId : Nat) (tsFrom tsTo : Option Int) :
    List BucketRecord :=
  if s.current.records.isEmpty then
    []
  else
    match s.current.encode accel with
    | none      => []
    | some data => recordsIn data nameId tsFrom tsTo

def queryTestHistory (accel : Bool) (s : V2State) (name : String) (tsFrom tsTo : Option Int) :
    List BucketRecord :=
  match s.registry.names.idOf name with
  | none        => []
  | some nameId =>
    (s.bucketIndex.bucketsForName nameId tsFrom tsTo).flatMap
      (s.storedRecords nameId tsFrom tsTo) ++ s.unsavedRecords accel nameId tsFrom tsTo

-- The buckets to store and their index. The open bucket is stored under the next sequence number,
-- with an index entry of its own.
def bucketMembers (accel : Bool) (s : V2State) : Option (Dict Nat BucketFile × BucketIndex) :=
  if s.current.records.isEmpty then
    some (s.sealedBuckets, s.bucketIndex)
  else do
    let seq := s.bucketIndex.nextSeq
    let data ← s.current.encode accel
    let index ← s.bucketIndex.serialize
    let entry := bucketEntry seq s.current.records (·.status = histStatusFail)
    return (s.sealedBuckets.set seq data, index.addBucket entry)

def getV2Members (accel : Bool) (s : V2State) : Option V2Members := do
  let registry ← s.registry.serialize
  let stats ← s.stats.serialize
  let contribIndex ← s.contribIndex.serialize
  let squashLog ← SquashLog.serialize s.squashLog
  let (buckets, bucketIndex) ← s.bucketMembers accel
  let bucketIndex ← bucketIndex.serialize
  return {
    registry     := registry
    stats        := stats
    bucketIndex  := bucketIndex
    contribIndex := contribIndex
    squashLog    := squashLog
    buckets      := buckets
  }

end V2State

-- A lazily loading database: what it has read from its file so far, and the run history once that
-- is loaded.
structure NcdbUCIS where
  zfCache : Option V2Members := none
  state   : Option V2State := none
  deriving DecidableEq

namespace NcdbUCIS

-- Reads the file once; `none` where there is no file.
def readZip (db : NcdbUCIS) (file : Option V2Members) : NcdbUCIS :=
  { db with zfCache := db.zfCache.or file }

-- Loads the run history if that was not done before; `none` where a member cannot be decoded.
def ensureV2History (db : NcdbUCIS) (file : Option V2Members) : Option (NcdbUCIS × V2State) :=
  match db.state with
  | some s => some (db, s)
  | none   => do
    let db := db.readZip file
    let s ← V2State.load <| db.zfCache.getD {}
    return ({ db with state := some s }, s)

-- The history members of the file that a write of the database produces. A database whose history
-- was not loaded has none.
def v2Members (accel : Bool) (db : NcdbUCIS) : Option V2Members :=
  match db.state with
  | none   => some {}
  | some s => s.getV2Members accel

end NcdbUCIS

-- The run history of a lazily loading database, also where a member cannot be read: loading is not
-- tried again, and what it did not get to stays unset.

-- A member of the file as its reader finds it.
inductive Member (α : Type)
  | absent
  | unreadable
  | readable (a : α)

-- What is loaded: `none` where reading raises.
def Member.load {α : Type} (empty : α) : Member α → Option α
  | absent     => some empty
  | unreadable => none
  | readable a => some a

structure HistoryMembers where
  registry     : Member TestRegistry := .absent
  stats        : Member TestStatsTable := .absent
  bucketIndex  : Member BucketIndex := .absent
  contribIndex : Member ContribIndex := .absent
  squashLog    : Member SquashLog := .absent
  buckets      : Dict Nat BucketFile := ∅

-- The history after loading; without the open bucket where loading stopped.
inductive HeldHistory
  | complete (s : V2State)
  | stopped (registry : Option TestRegistry) (stats : Option TestStatsTable)
      (contribIndex : Option ContribIndex)

def HistoryMembers.load (m : HistoryMembers) : HeldHistory :=
  match m.registry.load {} with
  | none          => .stopped none none none
  | some registry =>
    match m.stats.load {} with
    | none       => .stopped (some registry) none none
    | some stats =>
      match m.bucketIndex.load {} with
      | none             => .stopped (some registry) (some stats) none
      | some bucketIndex =>
        match m.contribIndex.load {} with
        | none              => .stopped (some registry) (some stats) none
        | some contribIndex =>
          match m.squashLog.load [] with
          | none           => .stopped (some registry) (some stats) (some contribIndex)
          | some squashLog => .complete {
              registry      := registry
              stats         := stats
              bucketIndex   := bucketIndex
              contribIndex  := contribIndex
              squashLog     := squashLog
              sealedBuckets := m.buckets
            }

-- A database before and after its history is asked for.
inductive HistoryState
  | unloaded (m : HistoryMembers)
  | loaded (h : HeldHistory)

namespace HeldHistory

-- Where loading stopped, the first part that is unset raises.
def addTestRun (accel : Bool) (run : TestRun) : HeldHistory → HeldHistory × Option Nat
  | complete s =>
    let (s, runId) := s.addTestRun accel run
    (complete s, runId)
  | stopped registry stats contribIndex =>
    match registry with
    | none          => (stopped none stats contribIndex, none)
    | some registry =>
      let (nameId, registry) := registry.lookupNameId run.name
      let (seedId, registry) := registry.lookupSeedId run.seed
      let stats := stats.map (·.update nameId run.status run.ts run.cpuTime (some seedId))
      (stopped (some registry.assignRunId.snd) stats contribIndex, none)

-- Where loading stopped before the contribution index this raises as it is, and with the index it
-- raises for want of the log.
def squashCoverage (policy ts : Nat) : HeldHistory → HeldHistory
  | complete s => complete (s.squashCoverage policy ts)
  | h          => h

end HeldHistory

namespace HistoryState

def held : HistoryState → HeldHistory
  | unloaded m => m.load
  | loaded h   => h

-- The call that loads raises where loading does.
def addTestRun (accel : Bool) (run : TestRun) : HistoryState → HistoryState × Option Nat
  | unloaded m =>
    match m.load with
    | .complete s => let (h, runId) := HeldHistory.addTestRun accel run (.complete s); (loaded h, runId)
    | h           => (loaded h, none)
  | loaded h   => let (h, runId) := h.addTestRun accel run; (loaded h, runId)

def squashCoverage (policy ts : Nat) (s : HistoryState) : HistoryState :=
  loaded (s.held.squashCoverage policy ts)

-- Queries load the history only.
def query (s : HistoryState) : HistoryState :=
  loaded s.held

end HistoryState
