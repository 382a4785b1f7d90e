import Covsight.Lib.Columns
import Covsight.Ncdb.IssuesHistory
import Covsight.NcdbTs.IssueSet
import Covsight.Lib.JsValue
import Covsight.Ncdb.StringTable
import Covsight.NcdbC.MemberDecoders
import Mathlib.Data.List.Lex

-- The table of strings in the three languages.

namespace TsStringTable

-- A new table has the empty string.
def ofStrings (ss : List JsString) : List JsString :=
  internAll ([] :: ss)

def encode (strings : List JsString) : List UInt8 :=
  encodeVarint strings.length ++ strings.flatMap fun s => StringTable.encode (textEncode s)

-- What stands in the place of bytes that are no text is a parameter.
def decode (repair : List UInt8 → JsString) (bytes : List UInt8) : JsString :=
  match HistoryReader.utf8Decode bytes with
  | some s => textDecode s
  | none   => repair bytes

def readString (repair : List UInt8 → JsString) (bytes : List UInt8) : Option (JsString × List UInt8) := do
  let (length, bytes) ← decodeVarint bytes
  return (decode repair (bytes.take length), bytes.drop length)

-- The table, and what follows it.
def readFrom (repair : List UInt8 → JsString) (bytes : List UInt8) : Option (List JsString × List UInt8) := do
  let (count, bytes)   ← decodeVarint bytes
  let (strings, bytes) ← decodeMany (readString repair) count bytes
  return (internAll strings, bytes)

def read (repair : List UInt8 → JsString) (bytes : List UInt8) : Option (List JsString) :=
  (readFrom repair bytes).map Prod.fst

end TsStringTable

-- A string is added up to its zero byte.
def ncdbStringsOf (ss : List CString) : List CString :=
  ss.foldl (fun tab s => stringsAdd tab (cString s)) []

def ncdbStringsSerialize (tab : List CString) : List UInt8 :=
  encodeUInt64 (.ofNat tab.length) ++ tab.flatMap fun s => encodeUInt64 (.ofNat s.length) ++ s

inductive NcdbLanguage
  | python
  | c
  | typescript
  deriving DecidableEq

-- What the libraries leave to others: memory, and bytes that are no text.
structure StringsPlatform where
  memory : NcdbPlatform
  malloc : UInt64 → Bool
  repair : List UInt8 → JsString

namespace NcdbLanguage

def Str : NcdbLanguage → Type
  | python     => String
  | c          => CString
  | typescript => JsString

-- The table of some strings that are added in turn.
def table : (l : NcdbLanguage) → List l.Str → List l.Str
  | python     => internAll (α := String)
  | c          => ncdbStringsOf
  | typescript => TsStringTable.ofStrings

def serialize : (l : NcdbLanguage) → List l.Str → List UInt8
  | python     => StringTable.serialize
  | c          => ncdbStringsSerialize
  | typescript => TsStringTable.encode

-- `none` where reading fails.
def read (p : StringsPlatform) (data : ByteBuffer) : (l : NcdbLanguage) → Option (List l.Str)
  | python     => StringTable.fromBytes data.bytes
  | c          =>
    match (stringsDeserialize p.memory ⟨data, p.malloc, true⟩ {}).fst with
    | .done tab => some tab
    | _         => none
  | typescript => TsStringTable.read p.repair data.bytes

end NcdbLanguage

-- The bytes of the issues and of their history in TypeScript. The setters of a view keep the lowest bytes of
-- what does not fit.

namespace TsIssues

-- Issues

namespace IssueTables

open Issues (magic version)
open Issues.IssueTables (IssueRow unpackIssue unpackWaiverLink unpackTestpointLink unpackCoverageLink)

def headerFields (t : IssueTables) : List (Nat × Int) :=
  [(4, magic), (1, version), (4, 0), (4, t.idIdxs.length), (4, t.wl.length), (4, t.tl.length), (4, t.cl.length)]

def issueFields (t : IssueTables) (i : Nat) : List (Nat × Int) :=
  [(2, t.idIdxs.getD i 0), (2, t.extIdxs.getD i 0), (2, t.enums.getD i 0), (4, (t.created.getD i .zero).trunc),
    (4, (t.updated.getD i .zero).trunc), (4, (t.synced.getD i .zero).trunc)]

def waiverFields : Nat × Nat → List (Nat × Int)
  | (waiver, issue) => [(2, waiver), (2, issue)]

def testpointFields : Nat × Nat × JsNumber → List (Nat × Int)
  | (tp, issue, linkType) => [(2, tp), (2, issue), (1, linkType.trunc)]

def coverageFields : Nat × Nat × Nat × JsNumber → List (Nat × Int)
  | (scope, bin, issue, linkType) => [(2, scope), (2, bin), (2, issue), (1, linkType.trunc)]

def serialize (t : IssueTables) : List UInt8 :=
  wrapFields t.headerFields ++ TsStringTable.encode t.strings
    ++ (List.range t.idIdxs.length).flatMap (wrapFields <| t.issueFields ·) ++ t.wl.flatMap (wrapFields <| waiverFields ·)
    ++ t.tl.flatMap (wrapFields <| testpointFields ·) ++ t.cl.flatMap (wrapFields <| coverageFields ·)

-- The records are read as in Python.
def fromBytes (repair : List UInt8 → JsString) (data : List UInt8) : Option IssueTables := do
  let (m, bytes)         ← decodeFixed 4 data
  let (v, bytes)         ← decodeFixed 1 bytes
  let (_, bytes)         ← decodeFixed 4 bytes
  let (numIssues, bytes) ← decodeFixed 4 bytes
  let (numWl, bytes)     ← decodeFixed 4 bytes
  let (numTl, bytes)     ← decodeFixed 4 bytes
  let (numCl, bytes)     ← decodeFixed 4 bytes
  guard (m = magic)
  guard (v = version)
  let (strings, bytes) ← TsStringTable.readFrom repair bytes
  let (rows, bytes)    ← decodeMany unpackIssue numIssues bytes
  let (wl, bytes)      ← decodeMany unpackWaiverLink numWl bytes
  let (tl, bytes)      ← decodeMany unpackTestpointLink numTl bytes
  let (cl, _)          ← decodeMany unpackCoverageLink numCl bytes
  return {
    idIdxs  := rows.map IssueRow.id
    extIdxs := rows.map IssueRow.ext
    enums   := rows.map IssueRow.enums
    created := rows.map fun row => .ofBigInt row.created
    updated := rows.map fun row => .ofBigInt row.updated
    synced  := rows.map fun row => .ofBigInt row.synced
    strings, wl
    tl      := tl.map fun (tp, issue, linkType) => (tp, issue, .ofBigInt linkType)
    cl      := cl.map fun (scope, bin, issue, linkType) => (scope, bin, issue, .ofBigInt linkType) }

end IssueTables

-- The history

-- What is recorded of an issue.
structure Transition where
  ts       : JsNumber
  newState : JsNumber
  comment  : JsString := []
  deriving DecidableEq

def Transition.before (t t' : Transition) : Prop :=
  ¬(t.ts.sub t'.ts).isPositive

instance : DecidableRel Transition.before :=
  fun _ _ => inferInstanceAs (Decidable (¬_))

-- Strings are sorted by their 16-bit units.
def JsChar.units : JsChar → List Nat
  | .char c         =>
    if c.toNat < 0x10000 then
      [c.toNat]
    else
      [0xD800 + (c.toNat - 0x10000) / 0x400, 0xDC00 + (c.toNat - 0x10000) % 0x400]
  | .surrogate unit => [unit.toNat]

def unitsLe (s s' : JsString) : Prop :=
  s.flatMap JsChar.units ≤ s'.flatMap JsChar.units

instance : DecidableRel unitsLe :=
  fun _ _ => inferInstanceAs (Decidable (_ ≤ _))

open IssueHistory (noComment)

structure IssuesHistoryWriter where
  transitions : Dict JsString (List Transition) := ∅

namespace IssuesHistoryWriter

variable (w : IssuesHistoryWriter)

def add (issueId : JsString) (t : Transition) : IssuesHistoryWriter where
  transitions := w.transitions.set issueId <| (w.transitions.get? issueId).getD [] ++ [t]

def sortedIds : List JsString :=
  w.transitions.keys.insertionSort unitsLe

def rowsOf (issueId : JsString) : List Transition :=
  ((w.transitions.get? issueId).getD []).insertionSort Transition.before

def allRows : List Transition :=
  w.sortedIds.flatMap w.rowsOf

-- The comments that are not empty, each one once.
def commentTable : List JsString :=
  w.allRows.foldl (fun table t => if t.comment ≠ [] ∧ t.comment ∉ table then table ++ [t.comment] else table) []

def commentIdx (comment : JsString) : Nat :=
  if comment ≠ [] then w.commentTable.idxOf comment else noComment

def issueIndex : List (Nat × Nat × Nat) :=
  groupIndexFrom 0 0 (w.sortedIds.map w.rowsOf)

def tsBase : JsNumber :=
  match w.allRows.map Transition.ts with
  | []      => .zero
  | t :: ts => ts.foldl .min t

-- A difference is turned into a bigint, which throws if it is no integer, and stored unless it is negative.
def deltasFrom : (prev : JsNumber) → List Transition → Option (List Nat)
  | _,    []      => some []
  | prev, t :: ts => do
    let delta ← (t.ts.sub prev).toInt
    guard (0 ≤ delta)
    return delta.toNat :: (← deltasFrom t.ts ts)

def tsDeltas : Option (List Nat) :=
  (w.sortedIds.mapM fun issueId => deltasFrom w.tsBase (w.rowsOf issueId)).map List.flatten

def encodeU8String (value : JsString) : Option (List UInt8) := do
  let encoded := StringTable.utf8 (textEncode value)
  guard (encoded.length ≤ 0xFF)
  return encoded.length.toUInt8 :: encoded

def encodeU8Strings (values : List JsString) : Option (List UInt8) :=
  (values.mapM encodeU8String).map List.flatten

def entryFields : Nat × Nat × Nat → List (Nat × Int)
  | (idStrIdx, startRow, count) => [(2, idStrIdx), (4, startRow), (2, count)]

-- `none` is where it throws.
def buildRaw : Option (List UInt8) := do
  let deltas   ← w.tsDeltas
  let ids      ← encodeU8Strings w.sortedIds
  let comments ← encodeU8Strings w.commentTable
  let header := wrapFields [(4, IssueHistory.magic), (1, IssueHistory.version), (2, w.sortedIds.length),
    (2, w.commentTable.length), (2, w.issueIndex.length), (4, w.allRows.length)]
  return header ++ ids ++ comments ++ w.issueIndex.flatMap (wrapFields <| entryFields ·)
    ++ wrapFields [(4, w.tsBase.trunc)] ++ deltas.flatMap encodeVarint
    ++ wrapFields (w.allRows.map fun t => (1, t.newState.trunc))
    ++ wrapFields (w.allRows.map fun t => (2, (w.commentIdx t.comment : Int)))

-- Node.js and Python compress alike. The sixth level is the one that is taken if none is given.
def sealWith (c : Compression) (fast : Bool) : Option (List UInt8) :=
  w.buildRaw.map <| c.zlibCompress (if fast then 1 else 6)

end IssuesHistoryWriter

-- What is told of an issue; `none` is where the columns or the comments end too early.
structure IssueStateTransition where
  issueId  : JsString
  ts       : JsNumber
  newState : Option Nat
  comment  : Option JsString
  deriving DecidableEq

structure IssuesHistoryReader where
  idTable      : List JsString
  commentTable : List JsString
  issueIndex   : List (Nat × Nat × Nat)
  tsBase       : Nat
  tsDeltas     : List Nat
  stateBytes   : List Nat
  commentIdxs  : List Nat
  deriving DecidableEq

namespace IssuesHistoryReader

section Parsing

variable (repair : List UInt8 → JsString) (data : List UInt8)

-- What is left of the data. Where a length was missing the offset is no number, and numbers are read from the
-- start of the data from then on.
abbrev Rest := Option (List UInt8)

def getUint (width : Nat) (rest : Rest) : Option (Nat × Rest) := do
  let (n, bytes) ← decodeFixed width (rest.getD data)
  return (n, rest.map fun _ => bytes)

def readString : Rest → JsString × Rest
  | some (length :: bytes) =>
    (TsStringTable.decode repair (bytes.take length.toNat), some (bytes.drop length.toNat))
  | _                      => (TsStringTable.decode repair [], none)

def readStrings : Nat → Rest → List JsString × Rest
  | 0,     rest => ([], rest)
  | n + 1, rest =>
    let (s, rest)  := readString repair rest
    let (ss, rest) := readStrings n rest
    (s :: ss, rest)

def readEntry (rest : Rest) : Option ((Nat × Nat × Nat) × Rest) := do
  let (idStrIdx, rest) ← getUint data 2 rest
  let (startRow, rest) ← getUint data 4 rest
  let (count, rest)    ← getUint data 2 rest
  return ((idStrIdx, startRow, count), rest)

def readMany {α : Type} (entry : Rest → Option (α × Rest)) : Nat → Rest → Option (List α × Rest)
  | 0,     rest => some ([], rest)
  | n + 1, rest => do
    let (x, rest)  ← entry rest
    let (xs, rest) ← readMany entry n rest
    return (x :: xs, rest)

-- There is no number where the offset is none.
def readDelta (rest : Rest) : Option (Nat × Rest) := do
  let (delta, bytes) ← decodeVarint (← rest)
  return (delta, some bytes)

def parse : Option IssuesHistoryReader := do
  let (m, rest)            ← getUint data 4 (some data)
  let (v, rest)            ← getUint data 1 rest
  let (numIdStrings, rest) ← getUint data 2 rest
  let (numComments, rest)  ← getUint data 2 rest
  let (numIssues, rest)    ← getUint data 2 rest
  let (numRecords, rest)   ← getUint data 4 rest
  guard (m = IssueHistory.magic)
  guard (v = IssueHistory.version)
  let (idTable, rest)      := readStrings repair numIdStrings rest
  let (commentTable, rest) := readStrings repair numComments rest
  let (issueIndex, rest)   ← readMany (readEntry data) numIssues rest
  let (tsBase, rest)       ← getUint data 4 rest
  let (tsDeltas, rest)     ← readMany readDelta numRecords rest
  let stateBytes := (rest.elim [] (List.take numRecords ·)).map UInt8.toNat
  let (commentIdxs, _)     ← readMany (getUint data 2) numRecords (rest.map (List.drop numRecords ·))
  return { idTable, commentTable, issueIndex, tsBase, tsDeltas, stateBytes, commentIdxs }

end Parsing

def read (c : Compression) (repair : List UInt8 → JsString) (compressed : List UInt8) : Option IssuesHistoryReader := do
  guard (compressed.take 6 ≠ c.xzMagic)
  parse repair (← c.zlibDecompress compressed)

variable (reader : IssuesHistoryReader)

-- The last of several issues of one id is the one that is found.
def idToIssueIdx : Dict (Option JsString) Nat :=
  .ofList (reader.issueIndex.map fun (idStrIdx, _) => reader.idTable[idStrIdx]?).zipIdx

def iterRows (issueId : JsString) : (currentTs : JsNumber) → List Nat → List IssueStateTransition
  | _,         []      => []
  | currentTs, i :: is =>
    let currentTs := currentTs.add ((reader.tsDeltas[i]?.map (.ofBigInt ↑·)).getD .nan)
    let comment   := if reader.commentIdxs[i]? = some noComment then some [] else reader.commentIdxs[i]?.bind (reader.commentTable[·]?)
    ⟨issueId, currentTs, reader.stateBytes[i]?, comment⟩ :: iterRows issueId currentTs is

def historyForIssue (issueId : JsString) : List IssueStateTransition :=
  match (reader.idToIssueIdx.get? (some issueId)).bind (reader.issueIndex[·]?) with
  | none                      => []
  | some (_, startRow, count) => reader.iterRows issueId (.ofBigInt reader.tsBase) (List.range' startRow count)

end IssuesHistoryReader

end TsIssues
