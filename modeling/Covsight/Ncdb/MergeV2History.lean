import Covsight.Ncdb.NcdbUCIS

-- Merging the binary run histories of several archives.

-- Numbers further strings in order.
def StringIds.lookupAll (ids : StringIds) (xs : List String) : StringIds :=
  xs.foldl (fun ids x => (ids.lookupId x).snd) ids

-- The number that a string of one table has in another; an unknown number is kept.
def StringIds.remap (merged ids : StringIds) (id : Nat) : Nat :=
  match ids.strings[id]? with
  | none   => id
  | some x => (merged.idOf x).getD id

-- The union of some registries, with disjoint ranges of run ids.
def mergeRegistries (regs : List TestRegistry) : TestRegistry where
  nextRunId := (regs.map (·.nextRunId)).sum
  names     := StringIds.lookupAll {} <| regs.flatMap (·.names.strings)
  seeds     := StringIds.lookupAll {} <| regs.flatMap (·.seeds.strings)

namespace TestRegistry

def nameRemap (merged reg : TestRegistry) (nameId : Nat) : Nat :=
  merged.names.remap reg.names nameId

def seedRemap (merged reg : TestRegistry) (seedId : Nat) : Nat :=
  merged.seeds.remap reg.seeds seedId

def remapRecord (merged reg : TestRegistry) (r : BucketRecord) : BucketRecord :=
  { r with nameId := merged.nameRemap reg r.nameId, seedId := merged.seedRemap reg r.seedId }

end TestRegistry

-- Adds the statistics of a test to those merged so far. The spread uses the difference between the
-- source's mean and the one before.
def mergeStatsEntry (dst src : TestStatsEntry) (newNameId : Nat) : TestStatsEntry :=
  let totalRuns := dst.totalRuns + src.totalRuns
  let delta := src.meanCpuTime - dst.meanCpuTime
  let hasRuns : Bool := src.totalRuns > 0 ∧ totalRuns > 0
  let meanCpuTime : Rat :=
    if hasRuns then
      (dst.totalRuns * dst.meanCpuTime + src.totalRuns * src.meanCpuTime) / totalRuns
    else
      dst.meanCpuTime
  let transitionCount := dst.transitionCount + src.transitionCount
  let passCount := dst.passCount + src.passCount
  let failCount := dst.failCount + src.failCount
  let flakeScore : Rat := if totalRuns > 0 then transitionCount / (max (totalRuns - 1) 1 : Nat) else 0
  let passRate : Rat := if totalRuns > 0 then passCount / totalRuns else 1
  let speed : Rat := if meanCpuTime > 0 then max 0 (1 - meanCpuTime / 3600) else 1
  { dst with
    nameId          := newNameId
    firstTs         :=
      if src.firstTs > 0 ∧ (dst.firstTs = 0 ∨ src.firstTs < dst.firstTs) then
        src.firstTs
      else
        dst.firstTs
    lastTs          := max dst.lastTs src.lastTs
    lastGreenTs     := max dst.lastGreenTs src.lastGreenTs
    totalRuns       := totalRuns
    passCount       := passCount
    failCount       := failCount
    errorCount      := dst.errorCount + src.errorCount
    transitionCount := transitionCount
    meanCpuTime     := meanCpuTime
    m2CpuTime       :=
      if hasRuns then
        dst.m2CpuTime + src.m2CpuTime
          + delta * delta * dst.totalRuns * src.totalRuns / totalRuns
      else
        dst.m2CpuTime
    flakeScore      := flakeScore
    failRate        := if totalRuns > 0 then failCount / totalRuns else 0
    gradeScore      := passRate * (1 - flakeScore) * speed
    streak          := if |src.streak| > |dst.streak| then src.streak else dst.streak
    cusumValue      := max dst.cusumValue src.cusumValue
    totalSeedsSeen  := max dst.totalSeedsSeen src.totalSeedsSeen
  }

-- Adds the statistics of a source; `none` where an entry is for a name that nothing numbers.
def mergeStats (merged : TestRegistry) (tbl : TestStatsTable) (st : V2State) :
    Option TestStatsTable :=
  st.stats.entries.zipIdx.foldlM (fun tbl (src, oldId) =>
    let newId := merged.nameRemap st.registry oldId
    if src.totalRuns = 0 then
      some tbl
    else if newId < tbl.entries.length then
      some ⟨tbl.entries.modify newId (mergeStatsEntry · src newId)⟩
    else
      none) tbl

-- Renumbers a bucket and encodes it again; a bucket whose numbers stay is kept as it is.
def remapBucket (accel : Bool) (merged reg : TestRegistry) (file : BucketFile) :
    Option BucketFile :=
  if file.records.all (fun r => merged.remapRecord reg r = r) then
    some file
  else do
    let remapped := (file.records.map (merged.remapRecord reg)).insertionSort BucketRecord.before
    let writer ← remapped.foldlM BucketWriter.add {}
    writer.encode accel

-- Only the two names that bound the bucket are renumbered.
def remapEntry (merged reg : TestRegistry) (newSeq : Nat) (e : BucketIndexEntry) :
    BucketIndexEntry :=
  let minNid := merged.nameRemap reg e.minNameId
  let maxNid := merged.nameRemap reg e.maxNameId
  { e with
    bucketSeq := newSeq
    minNameId := min minNid maxNid
    maxNameId := max minNid maxNid
  }

-- The buckets merged so far. Buckets that are missing from the source are skipped.
structure MergedBuckets where
  buckets : Dict Nat BucketFile := ∅
  index   : BucketIndex := {}
  newSeq  : Nat := 0

namespace MergedBuckets

def addBucket (accel : Bool) (merged : TestRegistry) (st : V2State) (mb : MergedBuckets)
    (e : BucketIndexEntry) : Option MergedBuckets :=
  match st.sealedBuckets.get? e.bucketSeq with
  | none      => some mb
  | some file => do
    let file ← remapBucket accel merged st.registry file
    return {
      buckets := mb.buckets.set mb.newSeq file
      index   := mb.index.addBucket <| remapEntry merged st.registry mb.newSeq e
      newSeq  := mb.newSeq + 1
    }

def addSource (accel : Bool) (merged : TestRegistry) (mb : MergedBuckets) (st : V2State) :
    Option MergedBuckets :=
  st.bucketIndex.entries.foldlM (addBucket accel merged st) mb

end MergedBuckets

-- Adds the contribution index of a source whose run ids start at an offset.
def mergeContribIndex (merged : TestRegistry) (ci : ContribIndex) (st : V2State) (offset : Nat) :
    ContribIndex :=
  let added := st.contribIndex.entries.foldl (fun ci e =>
    ci.addEntry { e with
      runId  := e.runId + offset
      nameId := merged.nameRemap st.registry e.nameId
    }) ci
  if st.contribIndex.squashWatermark > 0 then
    { added with
      squashWatermark := max added.squashWatermark (st.contribIndex.squashWatermark + offset) }
  else
    added

-- The run ids that are in use before each source.
def runIdOffsets (regs : List TestRegistry) : List Nat :=
  (List.range regs.length).map fun i => ((regs.take i).map (·.nextRunId)).sum

def mergedStats (merged : TestRegistry) (sts : List V2State) : Option TestStatsTable :=
  let entries := (List.range merged.names.strings.length).map fun nameId => { nameId := nameId }
  sts.foldlM (mergeStats merged) ⟨entries⟩

def mergedContribIndex (merged : TestRegistry) (sts : List V2State) : ContribIndex :=
  (sts.zip <| runIdOffsets <| sts.map (·.registry)).foldl
    (fun ci (st, offset) => mergeContribIndex merged ci st offset) {}

-- Merges the histories that were read; `none` where one of the merged members cannot be encoded.
def mergeV2States (accel : Bool) (sts : List V2State) : Option V2Members := do
  let merged := mergeRegistries <| sts.map (·.registry)
  let stats ← mergedStats merged sts
  let mb ← sts.foldlM (MergedBuckets.addSource accel merged) {}
  let registry ← merged.serialize
  let stats ← stats.serialize
  let bucketIndex ← mb.index.serialize
  let contribIndex ← (mergedContribIndex merged sts).serialize
  let squashLog ← SquashLog.serialize <| sts.flatMap (·.squashLog)
  return {
    registry     := registry
    stats        := stats
    bucketIndex  := bucketIndex
    contribIndex := contribIndex
    squashLog    := squashLog
    buckets      := mb.buckets
  }

-- A source without a binary history counts as one with an empty one.
def mergeV2History (accel : Bool) (sources : List V2Members) : Option V2Members := do
  let sts ← sources.mapM V2State.load
  mergeV2States accel sts
