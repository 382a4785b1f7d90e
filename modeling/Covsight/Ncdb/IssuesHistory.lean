import Covsight.Lib.Packing
import Covsight.Ncdb.BucketCodec
import Covsight.Ncdb.StringTable

-- The log of the states that issues went through: what was recorded, its bytes, and what is read from
-- them.

def CallResult.ofOption {α : Type} : Option α → CallResult α
  | none   => .raised
  | some a => .value a

namespace IssueHistory

open StringTable (utf8)

def magic : Nat := 0x49535348
def version : Nat := 1
def noComment : Nat := 0xFFFF

-- What is recorded of an issue.
structure Transition where
  ts       : Int
  newState : Int
  comment  : String := ""
  deriving DecidableEq

def Transition.before (t t' : Transition) : Prop :=
  t.ts ≤ t'.ts

instance : DecidableRel Transition.before :=
  fun t t' => inferInstanceAs (Decidable (t.ts ≤ t'.ts))

-- A row of the columns.
structure Row where
  issueStrIdx : Nat
  ts          : Int
  state       : Int
  commentIdx  : Nat

structure IssueHistoryWriter where
  transitions : Dict String (List Transition) := ∅

namespace IssueHistoryWriter

def add (w : IssueHistoryWriter) (issueId : String) (t : Transition) : IssueHistoryWriter where
  transitions := w.transitions.set issueId <| (w.transitions.get? issueId).getD [] ++ [t]

def sortedIds (w : IssueHistoryWriter) : List String :=
  w.transitions.keys.insertionSort (· ≤ ·)

def sortedTransitions (w : IssueHistoryWriter) (issueId : String) : List Transition :=
  ((w.transitions.get? issueId).getD []).insertionSort Transition.before

-- The comments that are not empty, each one once.
def commentTable (w : IssueHistoryWriter) : List String :=
  (w.sortedIds.flatMap w.sortedTransitions).foldl (fun table t =>
    if t.comment ≠ "" ∧ t.comment ∉ table then table ++ [t.comment] else table) []

def commentIdx (w : IssueHistoryWriter) (comment : String) : Nat :=
  if comment ≠ "" then w.commentTable.idxOf comment else noComment

-- The rows of an issue after the other.
def rowsFrom (w : IssueHistoryWriter) : (issueStrIdx : Nat) → List String → List Row
  | _,           []       => []
  | issueStrIdx, id :: ids =>
    (w.sortedTransitions id).map (fun t => ⟨issueStrIdx, t.ts, t.newState, w.commentIdx t.comment⟩) ++
      rowsFrom w (issueStrIdx + 1) ids

def allRows (w : IssueHistoryWriter) : List Row :=
  w.rowsFrom 0 w.sortedIds

-- Where the rows of an issue start and how many there are.
def issueIndexFrom (w : IssueHistoryWriter) : (issueStrIdx start : Nat) → List String → List (Nat × Nat × Nat)
  | _,           _,     []        => []
  | issueStrIdx, start, id :: ids =>
    (issueStrIdx, start, (w.sortedTransitions id).length) ::
      issueIndexFrom w (issueStrIdx + 1) (start + (w.sortedTransitions id).length) ids

def issueIndex (w : IssueHistoryWriter) : List (Nat × Nat × Nat) :=
  w.issueIndexFrom 0 0 w.sortedIds

def tsBase (w : IssueHistoryWriter) : Int :=
  (w.allRows.map Row.ts).min?.getD 0

-- The timestamp of each row after the one before it of the same issue, which `prev` has.
def deltasFrom (tsBase : Int) : (prev : Dict Nat Int) → List Row → List Int
  | _,    []          => []
  | prev, row :: rows =>
    (row.ts - (prev.get? row.issueStrIdx).getD tsBase) ::
      deltasFrom tsBase (prev.set row.issueStrIdx row.ts) rows

def tsDeltas (w : IssueHistoryWriter) : List Int :=
  deltasFrom w.tsBase ∅ w.allRows

def packString (s : String) : Option (List UInt8) := do
  return (← pack [(1, (utf8 s).length)]) ++ utf8 s

def packEntry : Nat × Nat × Nat → Option (List UInt8)
  | (idStrIdx, startRow, count) => pack [(2, idStrIdx), (4, startRow), (2, count)]

def packTables (w : IssueHistoryWriter) : Option (List UInt8) := do
  let header ← pack [(4, magic), (1, version), (2, w.sortedIds.length), (2, w.commentTable.length),
    (2, w.issueIndex.length), (4, w.allRows.length)]
  let ids      ← w.sortedIds.mapM packString
  let comments ← w.commentTable.mapM packString
  let index    ← w.issueIndex.mapM packEntry
  let tsBase   ← pack [(4, w.tsBase)]
  return header ++ ids.flatten ++ comments.flatten ++ index.flatten ++ tsBase

def packColumns (w : IssueHistoryWriter) : Option (List UInt8) := do
  let states      ← pack <| w.allRows.map fun row => (1, row.state)
  let commentIdxs ← pack <| w.allRows.map fun row => (2, (row.commentIdx : Int))
  return states ++ commentIdxs

def buildRaw (accel : Bool) (w : IssueHistoryWriter) : CallResult (List UInt8) :=
  (CallResult.ofOption w.packTables).bind fun tables =>
    (encodeVarints accel w.tsDeltas).bind fun deltas =>
      (CallResult.ofOption w.packColumns).bind fun columns =>
        .value (tables ++ deltas ++ columns)

-- The source's `seal` and, in low quality, its `seal_fast`.
def sealWith (c : Compression) (accel highQuality useLzma : Bool) (w : IssueHistoryWriter) :
    CallResult (List UInt8) :=
  (w.buildRaw accel).bind fun raw => .value (c.compress highQuality useLzma raw)

end IssueHistoryWriter

-- What is told of an issue.
structure IssueStateTransition where
  issueId  : String
  ts       : Int
  newState : Nat
  comment  : String
  deriving DecidableEq

structure IssueHistoryReader where
  idTable      : List String
  commentTable : List String
  issueIndex   : List (Nat × Nat × Nat)
  idToIssueIdx : Dict String Nat
  tsBase       : Int
  tsDeltas     : List Nat
  stateBytes   : List Nat
  commentIdxs  : List Nat
  deriving DecidableEq

namespace IssueHistoryReader

-- A slice may be cut short by the end of the data.
def unpackString (bytes : List UInt8) : Option (String × List UInt8) := do
  let (length, bytes) ← decodeFixed 1 bytes
  let s ← HistoryReader.utf8Decode (bytes.take length)
  return (s, bytes.drop length)

def unpackEntry (bytes : List UInt8) : Option ((Nat × Nat × Nat) × List UInt8) := do
  let (idStrIdx, bytes) ← decodeFixed 2 bytes
  let (startRow, bytes) ← decodeFixed 4 bytes
  let (count, bytes)    ← decodeFixed 2 bytes
  return ((idStrIdx, startRow, count), bytes)

-- The columns are still missing.
def parseTables (raw : List UInt8) : Option ((Nat × IssueHistoryReader) × List UInt8) := do
  let (m, bytes)            ← decodeFixed 4 raw
  let (v, bytes)            ← decodeFixed 1 bytes
  let (numIdStrings, bytes) ← decodeFixed 2 bytes
  let (numComments, bytes)  ← decodeFixed 2 bytes
  let (numIssues, bytes)    ← decodeFixed 2 bytes
  let (numRecords, bytes)   ← decodeFixed 4 bytes
  guard (m = magic)
  guard (v = version)
  let (idTable, bytes)      ← decodeMany unpackString numIdStrings bytes
  let (commentTable, bytes) ← decodeMany unpackString numComments bytes
  let (issueIndex, bytes)   ← decodeMany unpackEntry numIssues bytes
  let ids ← issueIndex.mapM fun (idStrIdx, _) => idTable[idStrIdx]?
  let (tsBase, bytes)       ← decodeFixed 4 bytes
  return ((numRecords, {
    idTable, commentTable, issueIndex
    idToIssueIdx := .ofList ids.zipIdx
    tsBase       := tsBase
    tsDeltas     := []
    stateBytes   := []
    commentIdxs  := [] }), bytes)

def parse (accel : Bool) (raw : List UInt8) : CallResult IssueHistoryReader :=
  match parseTables raw with
  | none                               => .raised
  | some ((numRecords, reader), bytes) =>
    let offset := raw.length - bytes.length
    (decodeVarints accel raw numRecords offset).bind fun (tsDeltas, offset) =>
      match decodeMany (decodeFixed 2) numRecords (raw.drop (offset.toNat + numRecords)) with
      | none                  => .raised
      | some (commentIdxs, _) => .value {
          reader with
          tsDeltas    := tsDeltas
          stateBytes  := ((raw.drop offset.toNat).take numRecords).map UInt8.toNat
          commentIdxs := commentIdxs }

def read (c : Compression) (accel : Bool) (data : List UInt8) : CallResult IssueHistoryReader :=
  match c.decompress data with
  | none     => .raised
  | some raw => parse accel raw

variable (reader : IssueHistoryReader)

def iterRows (issueId : String) : (currTs : Int) → List Nat → Option (List IssueStateTransition)
  | _,      []      => some []
  | currTs, i :: is => do
    let currTs  := currTs + (← reader.tsDeltas[i]?)
    let state   ← reader.stateBytes[i]?
    let cidx    ← reader.commentIdxs[i]?
    let comment ← (if cidx ≠ noComment then reader.commentTable[cidx]? else some "")
    return ⟨issueId, currTs, state, comment⟩ :: (← iterRows issueId currTs is)

-- `none` is where an index is out of range.
def historyForIssue (issueId : String) : Option (List IssueStateTransition) :=
  match reader.idToIssueIdx.get? issueId with
  | none          => some []
  | some entryIdx => do
    let (_, startRow, count) ← reader.issueIndex[entryIdx]?
    reader.iterRows issueId reader.tsBase (List.range' startRow count)

def scanRows (ts : Int) : (currTs : Int) → (lastState : Option Nat) → List Nat → Option (Option Nat)
  | _,      lastState, []      => some lastState
  | currTs, lastState, i :: is => do
    let currTs := currTs + (← reader.tsDeltas[i]?)
    if currTs > ts then
      return lastState
    else
      scanRows ts currTs (← reader.stateBytes[i]?) is

def stateAt (issueId : String) (ts : Int) : Option (Option Nat) :=
  match reader.idToIssueIdx.get? issueId with
  | none          => some none
  | some entryIdx => do
    let (_, startRow, count) ← reader.issueIndex[entryIdx]?
    reader.scanRows ts reader.tsBase none (List.range' startRow count)

end IssueHistoryReader

end IssueHistory
