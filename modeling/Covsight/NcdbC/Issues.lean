import Covsight.Lib.Packing
import Covsight.NcdbC.MemberDecoders

-- The issues of an archive and what they are linked to, as the C library reads them.

open Decoder

structure NcdbIssue where
  id         : CString
  ext        : CString
  severity   : Nat
  kind       : Nat
  state      : Nat
  resolution : Nat
  createdAt  : Nat
  updatedAt  : Nat
  syncedAt   : Nat
  deriving DecidableEq

structure NcdbWaiverLink where
  waiverId : CString
  issueId  : CString
  deriving DecidableEq

structure NcdbTpLink where
  tpName   : CString
  issueId  : CString
  linkType : Nat
  deriving DecidableEq

structure NcdbCovLink where
  scopePath : CString
  binName   : CString
  issueId   : CString
  linkType  : Nat
  deriving DecidableEq

structure NcdbIssues where
  strings : List CString
  issues  : List NcdbIssue
  wl      : List NcdbWaiverLink
  tl      : List NcdbTpLink
  cl      : List NcdbCovLink
  deriving DecidableEq

def ncdbIssuesMagic : Nat := 0x49535342
def ncdbIssuesVersion : Nat := 1

def unpackSev (e : Nat) : Nat := e >>> 13 &&& 0x7
def unpackKind (e : Nat) : Nat := e >>> 11 &&& 0x3
def unpackState (e : Nat) : Nat := e >>> 8 &&& 0x7
def unpackRes (e : Nat) : Nat := e >>> 5 &&& 0x7

def getStringChecked (strings : List CString) (idx : Nat) : Decoder CString :=
  match strings[idx]? with
  | some s => return s
  | none   => fail

def scanStringTableEnd : Decoder Unit := do
  let count ← varint
  recordsFrom (fun _ _ => do let slen ← varint; room slen.toNat; skip slen) count.toNat 0 ()

-- No memory is asked for if there is nothing to store.
def checkedCalloc (p : NcdbPlatform) (count : Nat) : Decoder Unit :=
  check (count = 0 ∨ p.calloc count.toUInt64)

def readIssue (strings : List CString) : Decoder NcdbIssue := do
  room 18
  let idIdx  ← word 2
  let extIdx ← word 2
  let enums  ← word 2
  let id  ← getStringChecked strings idIdx
  let ext ← getStringChecked strings extIdx
  let createdAt ← word 4
  let updatedAt ← word 4
  let syncedAt  ← word 4
  return {
    id, ext, createdAt, updatedAt, syncedAt
    severity   := unpackSev enums
    kind       := unpackKind enums
    state      := unpackState enums
    resolution := unpackRes enums }

def readWaiverLink (strings : List CString) : Decoder NcdbWaiverLink := do
  room 4
  let waiverIdx ← word 2
  let issueIdx  ← word 2
  return {
    waiverId := ← getStringChecked strings waiverIdx
    issueId  := ← getStringChecked strings issueIdx }

def readTpLink (strings : List CString) : Decoder NcdbTpLink := do
  room 5
  let tpIdx    ← word 2
  let issueIdx ← word 2
  let tpName  ← getStringChecked strings tpIdx
  let issueId ← getStringChecked strings issueIdx
  return { tpName, issueId, linkType := ← word 1 }

def readCovLink (strings : List CString) : Decoder NcdbCovLink := do
  room 7
  let scopeIdx ← word 2
  let binIdx   ← word 2
  let issueIdx ← word 2
  let scopePath ← getStringChecked strings scopeIdx
  let binName   ← getStringChecked strings binIdx
  let issueId   ← getStringChecked strings issueIdx
  return { scopePath, binName, issueId, linkType := ← word 1 }

def ncdbIssuesParse (p : NcdbPlatform) : Decoder NcdbIssues := do
  room 25
  let magic     ← word 4
  let version   ← word 1
  let _         ← word 4
  let numIssues ← word 4
  let numWl     ← word 4
  let numTl     ← word 4
  let numCl     ← word 4
  check (magic = ncdbIssuesMagic)
  check (version = ncdbIssuesVersion)
  let strings ← aside (stringsDeserialize p)
  scanStringTableEnd
  checkedCalloc p numIssues
  checkedCalloc p numWl
  checkedCalloc p numTl
  checkedCalloc p numCl
  let issues ← many numIssues (readIssue strings)
  let wl     ← many numWl (readWaiverLink strings)
  let tl     ← many numTl (readTpLink strings)
  let cl     ← many numCl (readCovLink strings)
  return { strings, issues, wl, tl, cl }

-- The log of the states of issues, as the C library reads it. What the library inflates with is a
-- parameter.

open Decoder

structure NcdbIssueHist where
  idTable      : List CString
  commentTable : List CString
  issueIndex   : List (Nat × Nat × Nat)
  tsBase       : Nat
  tsDeltas     : List Nat
  stateBytes   : List Nat
  commentIdxs  : List Nat
  deriving DecidableEq

def ncdbIssueHistMagic : Nat := 0x49535348
def ncdbIssueHistVersion : Nat := 1
def ncdbIssueHistNoComment : Nat := 0xFFFF

def issueHistReadU8String : Decoder CString := do
  room 1
  let len ← word 1
  room len
  request len.toUInt64
  return cString (← take len)

def readHistIdx (numIdStrings numRecords : Nat) : Decoder (Nat × Nat × Nat) := do
  room 8
  let idStrIdx ← word 2
  let startRow ← word 4
  let count    ← word 2
  check (idStrIdx < numIdStrings)
  check (startRow ≤ numRecords ∧ count ≤ numRecords - startRow)
  return (idStrIdx, startRow, count)

def readHistDelta : Decoder Nat := do
  let delta ← varint
  check (delta.toNat < 2 ^ 32)
  return delta.toNat

def issueHistParse (p : NcdbPlatform) : Decoder NcdbIssueHist := do
  room 15
  let magic        ← word 4
  let version      ← word 1
  let numIdStrings ← word 2
  let numComments  ← word 2
  let numIssues    ← word 2
  let numRecords   ← word 4
  check (magic = ncdbIssueHistMagic)
  check (version = ncdbIssueHistVersion)
  checkedCalloc p numIdStrings
  checkedCalloc p numComments
  checkedCalloc p numIssues
  checkedCalloc p numRecords
  let idTable      ← many numIdStrings issueHistReadU8String
  let commentTable ← many numComments issueHistReadU8String
  let issueIndex   ← many numIssues (readHistIdx numIdStrings numRecords)
  room 4
  let tsBase       ← word 4
  let tsDeltas     ← many numRecords readHistDelta
  room (numRecords + numRecords * 2)
  let stateBytes   ← many numRecords (word 1)
  let commentIdxs  ← many numRecords (word 2)
  return { idTable, commentTable, issueIndex, tsBase, tsDeltas, stateBytes, commentIdxs }

-- The payload of a member. What is inflated is an object in memory.
def issueHistLoad (p : NcdbPlatform) (malloc : UInt64 → Bool) (inflate : List UInt8 → Option (List UInt8))
    (data : List UInt8) : Option NcdbIssueHist := do
  guard (data.length < 2 ^ 32)
  let raw ← inflate data
  if small : raw.length < 2 ^ 63 then
    match (issueHistParse p ⟨⟨raw, small⟩, malloc, true⟩ {}).fst with
    | .done hist => some hist
    | _          => none
  else
    none

namespace NcdbIssueHist

variable (hist : NcdbIssueHist)

-- The first entry of the issue.
def entryOf (issueId : CString) : Option (Nat × Nat × Nat) :=
  hist.issueIndex.find? fun (idStrIdx, _) => hist.idTable[idStrIdx]? = some issueId

-- The rows that the callback gets.
def rows : (currTs : Nat) → List Nat → Option (List (Nat × Nat × CString))
  | _,      []        => some []
  | currTs, row :: is => do
    let currTs  := (currTs + (← hist.tsDeltas[row]?)) % 2 ^ 32
    let cidx    ← hist.commentIdxs[row]?
    let comment ← (if cidx ≠ ncdbIssueHistNoComment then hist.commentTable[cidx]? else some [])
    let state   ← hist.stateBytes[row]?
    return (currTs, state, comment) :: (← rows currTs is)

def lastState (ts : Nat) : (currTs : Nat) → (last : Int) → List Nat → Option Int
  | _,      last, []        => some last
  | currTs, last, row :: is => do
    let currTs := (currTs + (← hist.tsDeltas[row]?)) % 2 ^ 32
    if currTs > ts then
      return last
    else
      lastState ts currTs (← hist.stateBytes[row]?) is

end NcdbIssueHist

section

variable (p : NcdbPlatform) (malloc : UInt64 → Bool) (inflate : List UInt8 → Option (List UInt8))
  (data : List UInt8)

-- The callback takes all rows. `none` is an error.
def issueHistoryIterate (issueId : CString) : Option (List (Nat × Nat × CString)) :=
  if data = [] then
    some []
  else do
    let hist ← issueHistLoad p malloc inflate data
    match hist.entryOf issueId with
    | none                      => return []
    | some (_, startRow, count) => hist.rows hist.tsBase (List.range' startRow count)

-- There is one number for an error and for no state.
def issueStateAt (issueId : CString) (ts : Nat) : Int :=
  if data = [] then
    -1
  else
    match issueHistLoad p malloc inflate data with
    | none      => -1
    | some hist =>
      match hist.entryOf issueId with
      | none                      => -1
      | some (_, startRow, count) => hist.lastState ts hist.tsBase (-1) (List.range' startRow count) |>.getD (-1)

end
