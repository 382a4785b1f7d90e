import Covsight.Lib.Dict
import Covsight.Lib.Grouping
import Mathlib.Algebra.Group.Int.Defs
import Mathlib.Algebra.Group.Nat.Defs

-- One test run as a history bucket records it.
structure BucketRecord where
  nameId : Nat
  seedId : Nat
  ts     : Int
  status : Nat
  flags  : Nat
  deriving DecidableEq, Repr

def histStatusOk : Nat := 0
def histStatusFail : Nat := 1

def histFlagIsRerun : Nat := 2
def histFlagHasCoverage : Nat := 4

def historyBucketMaxRecords : Nat := 10000

-- Records are sorted by name, and by time within a name.
def BucketRecord.before (r s : BucketRecord) : Prop :=
  r.nameId < s.nameId ∨ r.nameId = s.nameId ∧ r.ts ≤ s.ts

instance : DecidableRel BucketRecord.before :=
  fun _ _ => inferInstanceAs (Decidable (_ ∨ _ ∧ _))

-- A bucket that is being filled. `seedIds` numbers its seeds locally; the source keeps the inverse
-- dictionary beside it.
structure BucketWriter where
  records : List BucketRecord := []
  seedIds : List Nat := []
  deriving DecidableEq, Repr

-- A bucket as stored, column by column. A timestamp is the difference to the previous one of the
-- same name, or to the base for the first of a name.
structure BucketFile where
  tsBase      : Nat
  nameIndex   : List (Nat × Nat × Nat)
  seedIds     : List Nat
  seedCol     : List Nat
  tsDeltas    : List Nat
  statusFlags : List Nat
  deriving DecidableEq, Repr

namespace BucketWriter

-- `none` where the local seed dictionary is full.
def add (w : BucketWriter) (r : BucketRecord) : Option BucketWriter :=
  if r.seedId ∈ w.seedIds then
    some { w with records := w.records ++ [r] }
  else if w.seedIds.length ≥ 255 then
    none
  else
    some { records := w.records ++ [r], seedIds := w.seedIds ++ [r.seedId] }

def isFull (w : BucketWriter) : Bool :=
  w.records.length ≥ historyBucketMaxRecords

def sortedRecords (w : BucketWriter) : List BucketRecord :=
  w.records.insertionSort BucketRecord.before

def tsBase (w : BucketWriter) : Int :=
  (w.sortedRecords.head?.map (·.ts)).getD 0

-- The timestamp deltas of some rows after the last timestamps `prev` of each name.
def deltasFrom (tsBase : Int) : (prev : Dict Nat Int) → List BucketRecord → List Int
  | _,    []      => []
  | prev, r :: rs =>
    (r.ts - (prev.get? r.nameId).getD tsBase) :: deltasFrom tsBase (prev.set r.nameId r.ts) rs

def deltas (w : BucketWriter) : List Int :=
  deltasFrom w.tsBase ∅ w.sortedRecords

def nameIndex (w : BucketWriter) : List (Nat × Nat × Nat) :=
  runsOf (·.nameId) w.sortedRecords

-- Whether every number fits its field; varints take no negative number and the accelerated
-- encoder no number past 64 bits.
def packs (accel : Bool) (w : BucketWriter) : Bool :=
  0 ≤ w.tsBase ∧ w.tsBase < 2 ^ 32 ∧
  w.deltas.all (fun d => 0 ≤ d ∧ (accel → d < 2 ^ 64)) ∧
  w.records.length < 2 ^ 32 ∧ w.nameIndex.length < 2 ^ 16 ∧
  w.nameIndex.all (fun (nameId, start, count) =>
    nameId < 2 ^ 32 ∧ start < 2 ^ 32 ∧ count < 2 ^ 16) ∧
  w.seedIds.length < 2 ^ 16 ∧ w.seedIds.all (· < 2 ^ 32)

-- `none` where encoding raises.
def encode (accel : Bool) (w : BucketWriter) : Option BucketFile :=
  if w.packs accel then
    some {
      tsBase      := w.tsBase.toNat
      nameIndex   := w.nameIndex
      seedIds     := w.seedIds
      seedCol     := w.sortedRecords.map fun r => w.seedIds.idxOf r.seedId
      tsDeltas    := w.deltas.map Int.toNat
      statusFlags := w.sortedRecords.map fun r => r.status % 16 * 16 + r.flags % 16
    }
  else
    none

end BucketWriter

namespace BucketFile

-- Writes a name into the rows of its run.
def fillRun (rows : List Nat) : Nat × Nat × Nat → List Nat
  | (nameId, start, count) =>
    rows.mapIdx fun i x => if start ≤ i ∧ i < start + count then nameId else x

def rowNames (file : BucketFile) : List Nat :=
  file.nameIndex.foldl fillRun <| List.replicate file.seedCol.length 0

def decodeFrom (file : BucketFile) :
    (prev : Dict Nat Int) → List (Nat × Nat × Nat × Nat) → List BucketRecord
  | _,    []                                     => []
  | prev, (nameId, delta, localSeed, sf) :: rows =>
    let ts := (prev.get? nameId).getD file.tsBase + delta
    let record := {
      nameId := nameId
      seedId := file.seedIds[localSeed]?.getD 0
      ts     := ts
      status := sf / 16 % 16
      flags  := sf % 16
    }
    record :: decodeFrom file (prev.set nameId ts) rows

-- All records in row order.
def records (file : BucketFile) : List BucketRecord :=
  file.decodeFrom ∅ <|
    file.rowNames.zip <| file.tsDeltas.zip <| file.seedCol.zip file.statusFlags

def recordsForName (file : BucketFile) (nameId : Nat) : List BucketRecord :=
  match search file.nameIndex nameId with
  | none                => []
  | some (start, count) => (file.records.drop start).take count

end BucketFile
