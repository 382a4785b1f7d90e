import Covsight.Ncdb.HistoryBuckets
import Mathlib.Data.Rat.Init
import Mathlib.Algebra.Order.Ring.Rat

-- The aggregate metrics of a test. The floating-point columns are kept as exact rationals.
structure TestStatsEntry where
  nameId          : Nat
  totalRuns       : Nat := 0
  passCount       : Nat := 0
  failCount       : Nat := 0
  errorCount      : Nat := 0
  firstTs         : Int := 0
  lastTs          : Int := 0
  lastGreenTs     : Int := 0
  transitionCount : Nat := 0
  streak          : Int := 0
  lastStatus      : Nat := histStatusOk
  flakeScore      : Rat := 0
  failRate        : Rat := 0
  meanCpuTime     : Rat := 0
  m2CpuTime       : Rat := 0
  cusumValue      : Rat := 0
  cusumRefMean    : Rat := 0
  gradeScore      : Rat := 0
  totalSeedsSeen  : Nat := 0
  knownSeeds      : List Nat := []
  deriving DecidableEq

namespace TestStatsEntry

def cusumK : Rat := 1 / 2
def cusumH : Rat := 4

-- The widths the integers are packed with: `<8I hBB 7f H6s`.
def packs (e : TestStatsEntry) : Bool :=
  e.totalRuns < 2 ^ 32 ∧ e.passCount < 2 ^ 32 ∧ e.failCount < 2 ^ 32 ∧ e.errorCount < 2 ^ 32 ∧
  (0 ≤ e.firstTs ∧ e.firstTs < 2 ^ 32) ∧ (0 ≤ e.lastTs ∧ e.lastTs < 2 ^ 32) ∧
  (0 ≤ e.lastGreenTs ∧ e.lastGreenTs < 2 ^ 32) ∧ e.transitionCount < 2 ^ 32 ∧
  (-2 ^ 15 ≤ e.streak ∧ e.streak < 2 ^ 15) ∧ e.lastStatus < 2 ^ 8 ∧ e.totalSeedsSeen < 2 ^ 16

def updateCounts (e : TestStatsEntry) (status : Nat) (ts : Int) : TestStatsEntry :=
  let failed : Rat := if status = histStatusFail then 1 else 0
  { e with
    totalRuns       := e.totalRuns + 1
    firstTs         := if e.totalRuns = 0 then ts else e.firstTs
    cusumRefMean    := if e.totalRuns = 0 then failed else e.cusumRefMean
    lastTs          := max e.lastTs ts
    passCount       := if status = histStatusOk then e.passCount + 1 else e.passCount
    lastGreenTs     := if status = histStatusOk then max e.lastGreenTs ts else e.lastGreenTs
    failCount       := if status = histStatusFail then e.failCount + 1 else e.failCount
    errorCount      :=
      if status = histStatusOk ∨ status = histStatusFail then e.errorCount else e.errorCount + 1
    streak          :=
      if status = histStatusOk then
        if e.streak ≥ 0 then e.streak + 1 else 1
      else
        if e.streak ≤ 0 then e.streak - 1 else -1
    transitionCount :=
      if e.totalRuns > 0 ∧ status ≠ e.lastStatus then e.transitionCount + 1 else e.transitionCount
    lastStatus      := status
  }

-- The online mean and spread of the CPU times.
def updateCpuTime (e : TestStatsEntry) (cpuTime : Option Rat) : TestStatsEntry :=
  match cpuTime with
  | none   => e
  | some t =>
    let delta := t - e.meanCpuTime
    let mean := e.meanCpuTime + delta / e.totalRuns
    { e with meanCpuTime := mean, m2CpuTime := e.m2CpuTime + delta * (t - mean) }

def updateCusum (e : TestStatsEntry) (status : Nat) : TestStatsEntry :=
  let x : Rat := if status = histStatusFail then 1 else 0
  let value := max 0 (e.cusumValue + x - (e.cusumRefMean + cusumK))
  { e with cusumValue := if value > cusumH then 0 else value }

def updateSeeds (e : TestStatsEntry) (seedId : Option Nat) : TestStatsEntry :=
  match seedId with
  | none        => e
  | some seedId =>
    let knownSeeds := e.knownSeeds.insert seedId
    { e with knownSeeds := knownSeeds, totalSeedsSeen := knownSeeds.length }

def update (e : TestStatsEntry) (status : Nat) (ts : Int) (cpuTime : Option Rat)
    (seedId : Option Nat) : TestStatsEntry :=
  let e := e.updateCounts status ts
  let e := { e with
    flakeScore := e.transitionCount / (max (e.totalRuns - 1) 1 : Nat)
    failRate   := e.failCount / e.totalRuns
  }
  let e := ((e.updateCpuTime cpuTime).updateCusum status).updateSeeds seedId
  let speed : Rat := if e.meanCpuTime > 0 then max 0 (1 - e.meanCpuTime / 3600) else 1
  { e with gradeScore := e.passCount / e.totalRuns * (1 - e.flakeScore) * speed }

end TestStatsEntry

-- One entry for each name id.
structure TestStatsTable where
  entries : List TestStatsEntry := []
  deriving DecidableEq

namespace TestStatsTable

-- Extends the table with empty entries up to a name id.
def ensure (tbl : TestStatsTable) (nameId : Nat) : TestStatsTable where
  entries := tbl.entries ++
    (List.range' tbl.entries.length (nameId + 1 - tbl.entries.length)).map fun nameId =>
      { nameId := nameId }

def update (tbl : TestStatsTable) (nameId status : Nat) (ts : Int) (cpuTime : Option Rat)
    (seedId : Option Nat) : TestStatsTable where
  entries := (tbl.ensure nameId).entries.modify nameId (·.update status ts cpuTime seedId)

-- The sets of known seeds are not stored; `none` where packing raises.
def serialize (tbl : TestStatsTable) : Option TestStatsTable :=
  if tbl.entries.length < 2 ^ 32 ∧ tbl.entries.all (·.packs) then
    some ⟨tbl.entries.zipIdx.map fun (e, nameId) => { e with nameId := nameId, knownSeeds := [] }⟩
  else
    none

end TestStatsTable

-- Statistics that are stored between updates.

-- One run of a test.
structure StatsUpdate where
  nameId  : Nat
  status  : Nat
  ts      : Int
  cpuTime : Option Rat := none
  seedId  : Option Nat := none

-- The integer columns.
structure StatsIntegers where
  nameId          : Nat
  totalRuns       : Nat
  passCount       : Nat
  failCount       : Nat
  errorCount      : Nat
  firstTs         : Int
  lastTs          : Int
  lastGreenTs     : Int
  transitionCount : Nat
  streak          : Int
  lastStatus      : Nat
  totalSeedsSeen  : Nat
  deriving DecidableEq

namespace TestStatsEntry

def integers (e : TestStatsEntry) : StatsIntegers where
  nameId          := e.nameId
  totalRuns       := e.totalRuns
  passCount       := e.passCount
  failCount       := e.failCount
  errorCount      := e.errorCount
  firstTs         := e.firstTs
  lastTs          := e.lastTs
  lastGreenTs     := e.lastGreenTs
  transitionCount := e.transitionCount
  streak          := e.streak
  lastStatus      := e.lastStatus
  totalSeedsSeen  := e.totalSeedsSeen

-- What rounds to more than the largest number of 32 bits is refused.
def packsFloat (x : Rat) : Bool :=
  |x| < 2 ^ 128 - 2 ^ 103

def packsFloats (e : TestStatsEntry) : Bool :=
  [e.flakeScore, e.failRate, e.meanCpuTime, e.m2CpuTime, e.cusumValue, e.cusumRefMean, e.gradeScore].all packsFloat

end TestStatsEntry

namespace TestStatsTable

def run (tbl : TestStatsTable) (u : StatsUpdate) : TestStatsTable :=
  tbl.update u.nameId u.status u.ts u.cpuTime u.seedId

-- The table as it is read from what was stored.
def reloaded (tbl : TestStatsTable) : Option TestStatsTable :=
  if tbl.entries.all (·.packsFloats) then tbl.serialize else none

end TestStatsTable
