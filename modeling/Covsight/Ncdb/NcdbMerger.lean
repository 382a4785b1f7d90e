import Covsight.Ncdb.MemberMerge
import Covsight.Ncdb.Archive
import Covsight.Merge.DbMerger
import Covsight.Lib.Varint

-- Merging archives of one schema member by member.

namespace NcdbMerger

def readCounts (a : Archive) : Except NcdbError Counts :=
  a.counts.orRaise (.keyError "counts.bin")

def mergeNode (target : String) (sources : List String) (date : Int) : HistoryNode where
  logicalName  := target
  physicalName := target
  kind         := some .merge
  date         := date
  toolCategory := "ncdb-merger"
  comment      := "Merged from: " ++ ", ".intercalate sources

-- The bins that any source lists; a later source replaces what an earlier one lists.
def mergedOps (sources : List Archive) : MergeOps :=
  (sources.filterMap (·.mergeOps)).foldl Dict.update ∅

-- The accelerated addition takes 32-bit numbers and wraps around.
def addUint32Arrays (a b : Counts) : Except NcdbError Counts :=
  if (a ++ b).any (2 ^ 32 ≤ ·) then
    .error .unserializable
  else
    .ok <| List.zipWith (fun x y => (x + y) % 2 ^ 32) a b

def mergeSourceCounts (accel : Bool) (ops : MergeOps) (allCounts : List Counts) :
    Except NcdbError Counts :=
  if ¬ops.entries.isEmpty then
    .ok (mergeCounts allCounts ops)
  else
    match accel, allCounts with
    | true, [a, b] => addUint32Arrays a b
    | _,    rows   => .ok (zipSum rows)

-- The counts of the merged archive. All count arrays have to be of the length of the first.
def combineCounts (accel : Bool) (sources : List Archive) : Except NcdbError Counts := do
  let allCounts ← sources.mapM readCounts
  let n := (allCounts.headD []).length
  match allCounts.find? (·.length ≠ n) with
  | some counts => throw (.lengthMismatch n counts.length)
  | none        =>
    let counts ← mergeSourceCounts accel (mergedOps sources) allCounts
    RunMembers.orRaise <| countsSerialize accel counts

-- Where the nodes of each source start in the merged history.
def historyOffsets (sources : List Archive) : List Nat :=
  (List.range sources.length).map fun i => ((sources.take i).map (·.history.length)).sum

def mergedHistory (node : HistoryNode) (sources : List Archive) : List HistoryNode :=
  (sources.flatMap (·.history) ++ [node]).map HistoryNode.store

def anyV2 (sources : List Archive) : Bool :=
  sources.any (·.manifest.historyFormat = historyFormatV2)

-- A source that does not say it has a binary run history counts as one with an empty history.
def v2Sources (sources : List Archive) : List V2Members :=
  sources.map fun a => if a.manifest.historyFormat = historyFormatV2 then a.v2Members else {}

def mergedV2Members (accel : Bool) (sources : List Archive) : Except NcdbError V2Members :=
  if anyV2 sources then
    (mergeV2History accel (v2Sources sources)).orRaise .unserializable
  else
    .ok {}

-- The test plan of the latest import, if all plans come from one file.
def mergeTestplans (sources : List Archive) : Option Testplan :=
  let candidates := (sources.filterMap (·.testplan)).foldl
    (fun (d : Dict String Testplan) plan =>
      match d.get? plan.sourceFile with
      | none     => d.set plan.sourceFile plan
      | some old =>
        if old.importTimestamp < plan.importTimestamp then d.set plan.sourceFile plan else d) ∅
  match candidates.values with
  | [plan] => some plan
  | _      => none

-- The waivers of all sources; of two with one id the one that was approved later.
def mergeWaivers (sources : List Archive) : Option WaiverSet :=
  if sources.all (·.waivers.isNone) then
    none
  else
    some <| Dict.values <| ((sources.filterMap (·.waivers)).flatten).foldl
      (fun (d : Dict String Waiver) w =>
        match d.get? w.id with
        | none     => d.set w.id w
        | some old => if old.approvedAt < w.approvedAt then d.set w.id w else d) ∅

def mergedManifest (first : Manifest) (sources : List Archive) (counts : Counts)
    (history : List HistoryNode) : Manifest where
  format         := first.format
  pathSeparator  := first.pathSeparator
  scopeCount     := first.scopeCount
  coveritemCount := counts.length
  testCount      := testCount history
  totalHits      := counts.sum
  coveredBins    := counts.countP (· > 0)
  schemaHash     := first.schemaHash
  historyFormat  := if anyV2 sources then historyFormatV2 else first.historyFormat

-- Adds counts; the scope tree, the strings, the source files and the members that describe the
-- shape of the design are those of the first source.
def mergeSameSchema (accel : Bool) (node : HistoryNode) (first : Archive) (rest : List Archive) :
    Except NcdbError Archive := do
  let sources := first :: rest
  let counts ← combineCounts accel sources
  let v2 ← mergedV2Members accel sources
  let history := mergedHistory node sources
  return {
    counts        := some counts
    mergeOps      := first.mergeOps
    squashLog     := v2.squashLog
    manifest      := mergedManifest first.manifest sources counts history
    strings       := first.strings
    scopeTree     := first.scopeTree
    history       := history
    sources       := first.sources
    attrs         := mergeAnnotational mergeAttrs (sources.filterMap (·.attrs))
    tags          := mergeAnnotational mergeTags (sources.filterMap (·.tags))
    crosses       := first.crosses
    formal        := mergeAnnotational mergeFormal (sources.filterMap (·.formal))
    flags         := mergeAnnotational mergeCoveritemFlags (sources.filterMap (·.flags))
    itemSources   := first.itemSources
    types         := first.types
    contrib       := renumberContrib ((sources.map (·.contrib)).zip (historyOffsets sources))
    registry      := v2.registry
    stats         := v2.stats
    bucketIndex   := v2.bucketIndex
    contribIndex  := v2.contribIndex
    buckets       := v2.buckets
    testplan      := mergeTestplans sources
    waivers       := mergeWaivers sources
    issues        := first.issues
    issuesMeta    := first.issuesMeta
    issuesHistory := first.issuesHistory
  }

end NcdbMerger

-- Merging archives of any schemas: the sources are read, merged as databases and written.

namespace NcdbMerger

-- A node that is added once more, with the time of the merge as its date.
def readdedNode (date : Int) (hn : HistoryNode) : HistoryNode where
  logicalName  := hn.logicalName
  physicalName := hn.physicalName
  kind         := hn.kind
  testStatus   := hn.testStatus
  date         := date

-- The merge node of the written database has only the names and the kind of the one that is made.
def addedMergeNode (date : Int) (node : HistoryNode) : HistoryNode where
  logicalName  := node.logicalName
  physicalName := node.physicalName
  kind         := node.kind
  date         := date

-- The database that is written.
def crossSchemaDb (node : HistoryNode) (date : Int) (dbs : List MemUCIS) :
    Except NcdbError MemUCIS := do
  let db ← DbMerger.merge dbs
  let readded := (dbs.flatMap (storedNodes ·.historyNodes)).map (readdedNode date)
  return (readded ++ [addedMergeNode date node]).foldl MemUCIS.createHistoryNode db

def mergeCrossSchema (accel : Bool) (node : HistoryNode) (date : Int) (sources : List Archive) :
    Except NcdbError Archive := do
  let dbs ← sources.mapM (NcdbReader.read · none)
  let db ← crossSchemaDb node date (dbs.map (·.toMemUCIS))
  NcdbWriter.write accel { toMemUCIS := db }

-- Equal fingerprints of the second version cover the strings; otherwise these are compared.
def namesAgree (first : Archive) (rest : List Archive) : Bool :=
  first.manifest.schemaHash.isV2 ∨ rest.all (·.strings = first.strings)

def sameSchema (first : Archive) (rest : List Archive) : Bool :=
  rest.all (·.manifest.schemaHash = first.manifest.schemaHash) ∧ namesAgree first rest

def schemas (sources : List Archive) : Nat :=
  (sources.map (·.manifest.schemaHash)).dedup.length

def merge (accel : Bool) (target : String) (names : List String) (date : Int)
    (allowCrossSchema : Bool) (sources : List Archive) : Except NcdbError Archive :=
  match sources with
  | []            => .error .noSources
  | first :: rest =>
    if sameSchema first rest then
      mergeSameSchema accel (mergeNode target names date) first rest
    else if allowCrossSchema then
      mergeCrossSchema accel (mergeNode target names date) date sources
    else
      .error (.schemaMismatch (schemas sources) sources.length)

end NcdbMerger

-- Archives with the bytes that their manifest is stored as.

-- The fields of a manifest that no operation looks at.
structure ManifestDetails where
  version            : String := "2.0"
  ucisVersion        : String := "1.0"
  created            : String := ""
  generator          : String := "pyucis-ncdb"
  vendorId           : String := ""
  vendorTool         : String := ""
  vendorToolVersion  : String := ""
  ucisStandard       : String := ""
  schemaVersionMajor : Nat := 3
  schemaVersionMinor : Nat := 0
  featureFlags       : Nat := 0
  nHistoryNodes      : Nat := 0
  nAssociations      : Nat := 0

namespace Manifest

def magic : List UInt8 := [0x4E, 0x4D, 0x41, 0x4E]
def binVersion : UInt8 := 2

-- A number that does not fit its bytes is not stored.
def toBytes (width n : Nat) : Option (List UInt8) :=
  if n < 256 ^ width then some (encodeLe width n) else none

def encodeText (s : String) : List UInt8 :=
  encodeVarint s.toUTF8.size ++ s.toUTF8.data.toList

def binStrings (hashText : SchemaHash → String) (m : Manifest) (d : ManifestDetails) : List String :=
  [m.format, d.version, d.ucisVersion, d.created, m.pathSeparator, hashText m.schemaHash,
    d.generator, m.historyFormat, d.vendorId, d.vendorTool, d.vendorToolVersion, d.ucisStandard]

def binNumbers (m : Manifest) : List Nat :=
  [m.scopeCount, m.coveritemCount, m.testCount, m.totalHits, m.coveredBins]

def serialize (hashText : SchemaHash → String) (m : Manifest) (d : ManifestDetails) :
    Option (List UInt8) := do
  let major ← toBytes 4 d.schemaVersionMajor
  let minor ← toBytes 4 d.schemaVersionMinor
  let features ← toBytes 8 d.featureFlags
  return magic ++ (
    [binVersion] ++ (m.binStrings hashText d).flatMap encodeText
      ++ m.binNumbers.flatMap encodeVarint ++ major ++ minor ++ features
      ++ encodeVarint d.nHistoryNodes ++ encodeVarint d.nAssociations)

end Manifest

structure SavedArchive where
  archive       : Archive
  details       : ManifestDetails
  manifestBytes : List UInt8

namespace SavedArchive

-- A merge of one schema takes some of the details from the first source.
def mergedDetails (created : String) : List SavedArchive → ManifestDetails
  | []            => { created := created }
  | first :: rest =>
    if NcdbMerger.sameSchema first.archive (rest.map (·.archive)) then
      {
        version     := first.details.version
        ucisVersion := first.details.ucisVersion
        generator   := first.details.generator
        created     := created
      }
    else
      { created := created }

variable (hashText : SchemaHash → String)

-- The archives that are written, merged and changed in any order. Changes to the runs of an archive
-- copy its manifest through.
inductive Reached : SavedArchive → Prop
  | write {accel db v2 a created bytes} :
    NcdbWriter.write accel db v2 = .ok a →
    a.manifest.serialize hashText { created := created } = some bytes →
    Reached ⟨a, { created := created }, bytes⟩
  | appendRuns {s : SavedArchive} {accel runs replace a ids} :
    Reached s → s.archive.appendRuns accel runs replace = .ok (a, ids) →
    Reached { s with archive := a }
  | dropRuns {s : SavedArchive} {toDrop a ids} :
    Reached s → s.archive.dropRuns toDrop = .ok (a, ids) → Reached { s with archive := a }
  | squash {s : SavedArchive} {accel runs keepRecent policy keepRuns ts a res} :
    Reached s → s.archive.squash accel runs keepRecent policy keepRuns ts = .ok (a, res) →
    Reached { s with archive := a }
  | merge {sources : List SavedArchive} {accel target names date allow created a bytes} :
    (∀ s ∈ sources, Reached s) →
    NcdbMerger.merge accel target names date allow (sources.map (·.archive)) = .ok a →
    a.manifest.serialize hashText (mergedDetails created sources) = some bytes →
    Reached ⟨a, mergedDetails created sources, bytes⟩

variable {hashText}

theorem exists_serialize_magic {m : Manifest} {d : ManifestDetails} {bytes : List UInt8}
    (h : m.serialize hashText d = some bytes) : ∃ rest, bytes = Manifest.magic ++ rest := by
  simp only [Manifest.serialize, Option.bind_eq_bind, Option.bind_eq_some_iff] at h
  obtain ⟨_, _, _, _, _, _, h⟩ := h
  exact ⟨_, (Option.some.inj h).symm⟩

-- The manifest is in binary form in every archive.
theorem Reached.exists_magic {s : SavedArchive} (h : Reached hashText s) :
    ∃ rest, s.manifestBytes = Manifest.magic ++ rest := by
  induction h
  case write h            => exact exists_serialize_magic h
  case appendRuns hi      => exact hi
  case dropRuns hi        => exact hi
  case squash hi          => exact hi
  case merge h _          => exact exists_serialize_magic h

end SavedArchive
