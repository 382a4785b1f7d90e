import Covsight.Ncdb.Accel
import Covsight.Ncdb.HistoryBuckets
import Mathlib.Data.List.Basic
import Mathlib.Tactic.Common

-- The bytes of a history bucket.

-- The bulk functions for numbers, which take the extension module where it was built.
def encodeVarints (accel : Bool) (values : List Int) : CallResult (List UInt8) :=
  if accel then AccelKernel.encodeVarints values else PureKernel.encodeVarints values

def decodeVarints (accel : Bool) (data : List UInt8) (count offset : Int) :
    CallResult (List Nat × Int) :=
  if accel then
    AccelKernel.decodeVarints data count offset
  else
    PureKernel.decodeVarints data count offset

def bucketMagic : Nat := 0x48445942
def bucketVersion : Nat := 1

-- The modules that compress. `none` is where they raise, and `lzma` may be missing; a stream of the
-- one kind never starts as one of the other does.
structure Compression where
  zlibCompress    : (level : Nat) → List UInt8 → List UInt8
  zlibDecompress  : List UInt8 → Option (List UInt8)
  lzmaCompress    : List UInt8 → Option (List UInt8)
  lzmaDecompress  : List UInt8 → Option (List UInt8)
  xzMagic         : List UInt8 := [0xFD, 0x37, 0x7A, 0x58, 0x5A, 0x00]
  zlib_lossless   : ∀ level data, zlibDecompress (zlibCompress level data) = some data
  zlib_not_xz     : ∀ level data, (zlibCompress level data).take 6 ≠ xzMagic
  lzma_lossless   : ∀ data stream, lzmaCompress data = some stream → lzmaDecompress stream = some data
  lzma_xz         : ∀ data stream, lzmaCompress data = some stream → stream.take 6 = xzMagic

namespace Compression

def compress (c : Compression) (highQuality useLzma : Bool) (data : List UInt8) : List UInt8 :=
  if !highQuality then
    c.zlibCompress 1 data
  else if useLzma then
    (c.lzmaCompress data).getD (c.zlibCompress 9 data)
  else
    c.zlibCompress 9 data

def decompress (c : Compression) (data : List UInt8) : Option (List UInt8) :=
  if data.take 6 = c.xzMagic then c.lzmaDecompress data else c.zlibDecompress data

end Compression

def encodeNameEntry : Nat × Nat × Nat → List UInt8
  | (nameId, startRow, count) =>
    encodeLe 4 nameId ++ (encodeLe 4 startRow ++ (encodeLe 2 count ++ encodeLe 2 0))

def decodeNameEntry (bytes : List UInt8) : Option ((Nat × Nat × Nat) × List UInt8) := do
  let (nameId, bytes)   ← decodeFixed 4 bytes
  let (startRow, bytes) ← decodeFixed 4 bytes
  let (count, bytes)    ← decodeFixed 2 bytes
  let (_, bytes)        ← decodeFixed 2 bytes
  return ((nameId, startRow, count), bytes)

-- The header, the name index and the seed dictionary.
def BucketFile.encodeTables (file : BucketFile) : List UInt8 :=
  encodeLe 4 bucketMagic ++ (encodeLe 1 bucketVersion ++ (encodeLe 4 file.seedCol.length ++
    (encodeLe 2 file.nameIndex.length ++ (encodeLe 1 0 ++ (encodeLe 4 file.tsBase ++
      (file.nameIndex.flatMap encodeNameEntry ++
        (encodeLe 2 file.seedIds.length ++ file.seedIds.flatMap (encodeLe 4))))))))

namespace BucketWriter

def encodeRaw (accel : Bool) (w : BucketWriter) : CallResult (List UInt8) :=
  (encodeVarints accel w.deltas).bind fun tsDeltaCol =>
    match w.encode accel with
    | none      => .raised
    | some file => .value <|
      file.encodeTables ++ (file.seedCol.map Nat.toUInt8 ++
        (tsDeltaCol ++ file.statusFlags.map Nat.toUInt8))

-- The source's `seal`, whose `useLzma` is `true` by default.
def sealWith (c : Compression) (accel useLzma : Bool) (w : BucketWriter) : CallResult (List UInt8) :=
  (w.encodeRaw accel).bind fun raw => .value (c.compress true useLzma raw)

def sealFast (c : Compression) (accel : Bool) (w : BucketWriter) : CallResult (List UInt8) :=
  (w.encodeRaw accel).bind fun raw => .value (c.compress false false raw)

end BucketWriter

namespace BucketReader

-- The number of records and what comes before the columns.
def parseTables (raw : List UInt8) :
    Option ((Nat × Nat × List (Nat × Nat × Nat) × List Nat) × List UInt8) := do
  let (magic, bytes)      ← decodeFixed 4 raw
  let (version, bytes)    ← decodeFixed 1 bytes
  let (numRecords, bytes) ← decodeFixed 4 bytes
  let (numNames, bytes)   ← decodeFixed 2 bytes
  let (_, bytes)          ← decodeFixed 1 bytes
  let (tsBase, bytes)     ← decodeFixed 4 bytes
  guard (magic = bucketMagic ∧ version = bucketVersion)
  let (nameIndex, bytes)  ← decodeMany decodeNameEntry numNames bytes
  let (numSeeds, bytes)   ← decodeFixed 2 bytes
  let (seedIds, bytes)    ← decodeMany (decodeFixed 4) numSeeds bytes
  return ((numRecords, tsBase, nameIndex, seedIds), bytes)

-- A column may be short and the name index may name rows that are not there; both raise when the
-- rows are put together.
def parse (accel : Bool) (raw : List UInt8) : CallResult BucketFile :=
  match parseTables raw with
  | none                                                   => .raised
  | some ((numRecords, tsBase, nameIndex, seedIds), bytes) =>
    let offset := raw.length - bytes.length + numRecords
    (decodeVarints accel raw numRecords offset).bind fun (tsDeltas, offset) =>
      let file := {
        tsBase      := tsBase
        nameIndex   := nameIndex
        seedIds     := seedIds
        seedCol     := (bytes.take numRecords).map UInt8.toNat
        tsDeltas    := tsDeltas
        statusFlags := ((raw.drop offset.toNat).take numRecords).map UInt8.toNat
      }
      if file.seedCol.length = numRecords ∧ file.statusFlags.length = numRecords ∧
          nameIndex.all (fun (_, startRow, count) => count = 0 ∨ startRow + count ≤ numRecords) then
        .value file
      else
        .raised

def read (c : Compression) (accel : Bool) (data : List UInt8) : CallResult BucketFile :=
  match c.decompress data with
  | none     => .raised
  | some raw => parse accel raw

end BucketReader

-- What the index knows of a bucket without opening it.
structure BucketIndexEntry where
  bucketSeq  : Nat
  tsStart    : Int
  tsEnd      : Int
  numRecords : Nat
  failCount  : Nat
  minNameId  : Nat
  maxNameId  : Nat
  deriving DecidableEq, Repr

-- The widths the fields are packed with: `<IIIIIII`.
def BucketIndexEntry.packs (e : BucketIndexEntry) : Bool :=
  e.bucketSeq < 2 ^ 32 ∧ (0 ≤ e.tsStart ∧ e.tsStart < 2 ^ 32) ∧ (0 ≤ e.tsEnd ∧ e.tsEnd < 2 ^ 32) ∧
    e.numRecords < 2 ^ 32 ∧ e.failCount < 2 ^ 32 ∧ e.minNameId < 2 ^ 32 ∧ e.maxNameId < 2 ^ 32

-- Whether a bucket may hold records of a name in a time range.
def BucketIndexEntry.mayHold (nameId : Nat) (tsFrom tsTo : Option Int) (e : BucketIndexEntry) :
    Bool :=
  e.minNameId ≤ nameId ∧ nameId ≤ e.maxNameId ∧ tsFrom.all (· ≤ e.tsEnd) ∧ tsTo.all (e.tsStart ≤ ·)

-- The entries are sorted by the sequence numbers of their buckets.
structure BucketIndex where
  entries : List BucketIndexEntry := []
  deriving DecidableEq, Repr

namespace BucketIndex

def insertEntry (entry : BucketIndexEntry) : List BucketIndexEntry → List BucketIndexEntry
  | []      => [entry]
  | e :: es =>
    if e.bucketSeq = entry.bucketSeq then
      entry :: es
    else if e.bucketSeq > entry.bucketSeq then
      entry :: e :: es
    else
      e :: insertEntry entry es

-- Adds the entry of a bucket, or replaces it.
def addBucket (idx : BucketIndex) (entry : BucketIndexEntry) : BucketIndex where
  entries := insertEntry entry idx.entries

def bucketsForName (idx : BucketIndex) (nameId : Nat) (tsFrom tsTo : Option Int) :
    List BucketIndexEntry :=
  idx.entries.filter (·.mayHold nameId tsFrom tsTo)

def nextSeq (idx : BucketIndex) : Nat :=
  (idx.entries.getLast?.map (·.bucketSeq + 1)).getD 0

-- `none` where packing raises.
def serialize (idx : BucketIndex) : Option BucketIndex :=
  if idx.entries.length < 2 ^ 32 ∧ idx.entries.all (·.packs) then some idx else none

-- A bucket with the next sequence number goes to the end.
theorem addBucket_nextSeq {idx : BucketIndex} {entry : BucketIndexEntry}
    (hs : idx.entries.Pairwise (·.bucketSeq < ·.bucketSeq)) (he : entry.bucketSeq = idx.nextSeq) :
    (idx.addBucket entry).entries = idx.entries ++ [entry] ∧
    ∀ e ∈ idx.entries, e.bucketSeq < entry.bucketSeq := by
  have hlt : ∀ e ∈ idx.entries, e.bucketSeq < entry.bucketSeq := by
    intro e hm
    have ⟨es, last, hl⟩ : ∃ es last, idx.entries = es ++ [last] :=
      ⟨_, _, (List.dropLast_append_getLast (List.ne_nil_of_mem hm)).symm⟩
    rw [he, nextSeq, hl, List.getLast?_concat, Option.map_some, Option.getD_some]
    rw [hl] at hs hm
    cases List.mem_append.mp hm
    case inl hm =>
      exact Nat.lt_succ_of_lt <| (List.pairwise_append.mp hs).2.2 e hm last List.mem_cons_self
    case inr hm => rw [List.mem_singleton.mp hm]; exact Nat.lt_succ_self _
  refine ⟨?_, hlt⟩
  have hi : ∀ {es : List BucketIndexEntry}, (∀ e ∈ es, e.bucketSeq < entry.bucketSeq) →
      insertEntry entry es = es ++ [entry] := by
    intro es h
    induction es
    case nil => rfl
    case cons e es hi =>
      have he := h e (.head _)
      rw [insertEntry, if_neg (by omega), if_neg (by omega), hi fun e he => h e (.tail _ he)]
      rfl
  exact hi hlt

end BucketIndex
