import Covsight.Ncdb.Annotations
import Covsight.Ncdb.MergeV2History
import Covsight.Ncdb.Multirun
import Covsight.Ncdb.ProjectData

-- An archive: a zip file with one member for each kind of data.

def ncdbFormat : String := "NCDB"

def historyFormatV1 : String := "v1"
def historyFormatV2 : String := "v2"

mutual

def ScopeRecord.decEq : (a b : ScopeRecord) → Decidable (a = b)
  | .togglePair n, .togglePair m =>
    if h : n = m then isTrue (by rw [h]) else isFalse fun he => h (ScopeRecord.togglePair.inj he)
  | .togglePair _, .regular .. => isFalse nofun
  | .regular .., .togglePair _ => isFalse nofun
  | .regular h is rs, .regular h' is' rs' =>
    if hh : h = h' ∧ is = is' then
      match ScopeRecord.decEqAll rs rs' with
      | isTrue hr  => isTrue (by rw [hh.1, hh.2, hr])
      | isFalse hr => isFalse fun he => hr (ScopeRecord.regular.inj he).2.2
    else
      isFalse fun he => hh ⟨(ScopeRecord.regular.inj he).1, (ScopeRecord.regular.inj he).2.1⟩

def ScopeRecord.decEqAll : (as bs : List ScopeRecord) → Decidable (as = bs)
  | [],      []      => isTrue rfl
  | [],      _ :: _  => isFalse nofun
  | _ :: _,  []      => isFalse nofun
  | a :: as, b :: bs =>
    match ScopeRecord.decEq a b, ScopeRecord.decEqAll as bs with
    | isTrue h,  isTrue h'  => isTrue (by rw [h, h'])
    | isFalse h, _          => isFalse fun he => h (List.cons.inj he).1
    | _,         isFalse h' => isFalse fun he => h' (List.cons.inj he).2

end

instance : DecidableEq ScopeRecord := ScopeRecord.decEq

-- The fingerprint of a schema. A digest is kept as what it was computed from: the scope tree, and
-- in the second version also the strings.
inductive SchemaHash
  | sha256 (scopeTree : List ScopeRecord)
  | sha256v2 (scopeTree : List ScopeRecord) (strings : List String)
  | other (hash : String)
  deriving DecidableEq

-- Whether the hash starts with `sha256v2:`.
def SchemaHash.isV2 : SchemaHash → Bool
  | sha256 _     => false
  | sha256v2 _ _ => true
  | other hash   => "sha256v2:".isPrefixOf hash

structure Manifest where
  format         : String := ncdbFormat
  pathSeparator  : String := "/"
  scopeCount     : Nat := 0
  coveritemCount : Nat := 0
  testCount      : Nat := 0
  totalHits      : Nat := 0
  coveredBins    : Nat := 0
  schemaHash     : SchemaHash := .other ""
  historyFormat  : String := historyFormatV1
  deriving DecidableEq

-- The first five members are in every archive, the others where there is something to store.
structure Archive extends RunMembers where
  manifest      : Manifest
  strings       : List String
  scopeTree     : List ScopeRecord
  history       : List HistoryNode := []
  sources       : List String := []
  attrs         : Option Attrs := none
  tags          : Option Tags := none
  crosses       : Option Crosses := none
  formal        : Option FormalResults := none
  flags         : Option CoveritemFlags := none
  itemSources   : Option CoveritemSources := none
  types         : Option CoveritemTypes := none
  contrib       : Contributions := ∅
  registry      : Option RegistryFile := none
  stats         : Option TestStatsTable := none
  bucketIndex   : Option BucketIndex := none
  contribIndex  : Option ContribIndex := none
  buckets       : Dict Nat BucketFile := ∅
  testplan      : Option Testplan := none
  waivers       : Option WaiverSet := none
  issues        : Option IssueSet := none
  issuesMeta    : Option IssuesMeta := none
  issuesHistory : Option IssuesHistory := none

namespace Archive

-- The members of the binary run history. A squash writes its log into the same member.
def v2Members (a : Archive) : V2Members where
  registry     := a.registry
  stats        := a.stats
  bucketIndex  := a.bucketIndex
  contribIndex := a.contribIndex
  squashLog    := a.squashLog
  buckets      := a.buckets

def setV2Members (a : Archive) (m : V2Members) : Archive :=
  { a with
    registry     := m.registry
    stats        := m.stats
    bucketIndex  := m.bucketIndex
    contribIndex := m.contribIndex
    squashLog    := m.squashLog
    buckets      := m.buckets
  }

end Archive

-- What the operations on archives raise.
inductive NcdbError
  | keyError (member : String)
  | notNcdb (format : String)
  | unserializable
  | unreadable (member : String)
  | badSeparator (separator : String)
  | runError (e : RunError)
  | noSources
  | lengthMismatch (expected got : Nat)
  | schemaMismatch (schemas files : Nat)
  | noCoverpoint (coverpoint cross : String)
  | noCreateCross (cross : String)
  | noCoverInstance (scope : String)
  deriving DecidableEq, Repr

def Option.orRaise {α : Type*} (e : NcdbError) : Option α → Except NcdbError α
  | some a => .ok a
  | none   => .error e

def RunMembers.orRaise {α : Type*} : Except RunError α → Except NcdbError α
  | .ok a    => .ok a
  | .error e => .error (.runError e)

-- A database together with what a reader attaches to it and the writer looks for.
structure LoadedUCIS extends MemUCIS where
  testplan           : Option Testplan := none
  waivers            : Option WaiverSet := none
  issues             : Option IssueSet := none
  issuesDirty        : Bool := false
  issuesMeta         : Option IssuesMeta := none
  issuesMetaRaw      : Option IssuesMeta := none
  issuesMetaDirty    : Bool := false
  issuesHistory      : Option IssuesHistory := none
  issuesHistoryDirty : Bool := false
  v2History          : Option V2State := none

-- The operations on the runs of an archive. The members that have nothing to do with the runs, the
-- manifest among them, are copied through.

namespace Archive

def appendRuns (accel : Bool) (a : Archive) (runs : List Run) (replace : Bool) :
    Except RunError (Archive × List String) :=
  (a.toRunMembers.appendRuns accel runs replace).map fun (m, ids) =>
    ({ a with toRunMembers := m }, ids)

def dropRuns (a : Archive) (toDrop : List String) : Except RunError (Archive × List String) :=
  (a.toRunMembers.dropRuns toDrop).map fun (m, ids) => ({ a with toRunMembers := m }, ids)

def squash (accel : Bool) (a : Archive) (runs : Option (List String)) (keepRecent : Int)
    (policy : Nat) (keepRuns : Bool) (timestamp : Nat) : Except RunError (Archive × SquashResult) :=
  (a.toRunMembers.squash accel runs keepRecent policy keepRuns timestamp).map fun (m, res) =>
    ({ a with toRunMembers := m }, res)

end Archive

-- Writing a database to an archive.

-- A history node as it is stored. Its attributes have a member of their own.
def HistoryNode.store (hn : HistoryNode) : HistoryNode :=
  { hn with kind := some (hn.kind.getD .test), attributes := ∅ }

-- The history as the writer orders it: the tests, then the merges. Other nodes are not stored.
def storedNodes (nodes : List HistoryNode) : List HistoryNode :=
  historyNodesOf nodes .test ++ historyNodesOf nodes .merge

def testCount (nodes : List HistoryNode) : Nat :=
  nodes.countP (·.kind = some .test)

namespace NcdbWriter

def buildManifest (db : MemUCIS) (scopeTree : List ScopeRecord) (w : ScopeTreeWriter)
    (hasV2 : Bool) : Manifest where
  pathSeparator  := db.pathSeparator.toString
  coveritemCount := w.counts.length
  testCount      := testCount <| storedNodes db.historyNodes
  totalHits      := w.counts.sum
  coveredBins    := w.counts.countP (· > 0)
  schemaHash     := .sha256v2 scopeTree w.strings
  historyFormat  := if hasV2 then historyFormatV2 else historyFormatV1

-- The members of an archive, once the scope tree is written. `v2` is what the database gives as its
-- binary run history; a plain database has none.
def members (db : LoadedUCIS) (scopeTree : List ScopeRecord) (w : ScopeTreeWriter)
    (v2 : Option V2Members) : Archive :=
  let (itemSources, w') := CoveritemSources.write w db.toMemUCIS
  let a : Archive := {
    counts        := some w.counts
    mergeOps      := MergeOps.write db.toMemUCIS
    manifest      := buildManifest db.toMemUCIS scopeTree w v2.isSome
    strings       := w.strings
    scopeTree     := scopeTree
    history       := (storedNodes db.historyNodes).map HistoryNode.store
    sources       := if w'.files.isEmpty then db.fileHandles else w'.files
    attrs         := Attrs.write db.toMemUCIS
    tags          := Tags.write db.toMemUCIS
    crosses       := Crosses.write db.toMemUCIS
    formal        := FormalResults.write db.toMemUCIS
    flags         := CoveritemFlags.write db.toMemUCIS
    itemSources   := itemSources
    types         := CoveritemTypes.write db.toMemUCIS
    contrib       := Contributions.write db.toMemUCIS
    testplan      := db.testplan
    waivers       := db.waivers
    issues        := if db.issuesDirty then db.issues else none
    issuesMeta    := if db.issuesMetaDirty then db.issuesMeta else none
    issuesHistory := if db.issuesHistoryDirty then db.issuesHistory else none
  }
  match v2 with
  | none   => a
  | some m => a.setV2Members m

def write (accel : Bool) (db : LoadedUCIS) (v2 : Option V2Members := none) :
    Except NcdbError Archive := do
  let (scopeTree, w) ← ((ScopeTreeWriter.writeScopes {} db.scopes).orRaise .unserializable)
  let _ ← RunMembers.orRaise <| countsSerialize accel w.counts
  return members db scopeTree w v2

end NcdbWriter

-- Reading an archive into a database.

-- The copy of a stored node that the reader makes. A record without a kind is a test, a negative
-- time or cost is left at its default, and attributes are set later.
def HistoryNode.reread (hn : HistoryNode) : HistoryNode :=
  { hn with
    kind       := some (hn.kind.getD .test)
    attributes := ∅
    simTime   := if hn.simTime ≥ 0 then hn.simTime else -1
    cpuTime   := if hn.cpuTime ≥ 0 then hn.cpuTime else -1
    cost      := if hn.cost ≥ 0 then hn.cost else -1
    sameTests := if hn.sameTests ≥ 0 then hn.sameTests else -1
  }

namespace MemUCIS

-- Applying an optional member.
def applying {α : Type} (member : Option α) (apply : α → MemUCIS → MemUCIS) (db : MemUCIS) :
    MemUCIS :=
  match member with
  | none   => db
  | some m => apply m db

end MemUCIS

namespace NcdbReader

-- The members are applied in the order of the reader: the types before the flags, whose defaults
-- depend on them, and the attributes after the history.
def applyMembers (a : Archive) (db : MemUCIS) : MemUCIS :=
  let db := db.applying a.tags Tags.apply
  let db := db.applying a.crosses Crosses.apply
  let db := Contributions.apply a.contrib db
  let db := db.applying a.formal FormalResults.apply
  let db := db.applying a.types CoveritemTypes.apply
  let db := db.applying a.flags CoveritemFlags.apply
  let db := db.applying a.itemSources fun sources => CoveritemSources.apply sources a.sources
  let db := a.sources.foldl MemUCIS.createFileHandle db
  let db := (a.history.map HistoryNode.reread).foldl MemUCIS.createHistoryNode db
  db.applying a.attrs Attrs.apply

def readSeparator (separator : String) : Except NcdbError Char :=
  match separator.toList with
  | [c] => .ok c
  | _   => .error (.badSeparator separator)

-- The scope tree with the counts of the selected runs on its items.
def readTree (a : Archive) (counts : Counts) : Except NcdbError (List Scope) :=
  let reader : ScopeTreeReader := { strings := internAll a.strings, files := a.sources }
  (((reader.readScopes none [] a.scopeTree counts).map Prod.fst).orRaise (.unreadable "scope_tree.bin"))

def readV2History (a : Archive) : Except NcdbError (Option V2State) :=
  if a.manifest.historyFormat = historyFormatV2 then
    ((V2State.load a.v2Members).map some).orRaise (.unreadable "history/")
  else
    .ok none

def read (a : Archive) (runs : Option (List String) := none) : Except NcdbError LoadedUCIS := do
  let counts ← RunMembers.orRaise <| a.resolveCounts runs
  let _ ← a.counts.orRaise (.keyError "counts.bin")
  if a.manifest.format ≠ ncdbFormat then
    throw (.notNcdb a.manifest.format)
  let separator ← readSeparator a.manifest.pathSeparator
  let scopes ← readTree a counts
  let v2History ← readV2History a
  return {
    toMemUCIS     := applyMembers a { scopes := scopes, pathSeparator := separator }
    testplan      := a.testplan
    waivers       := a.waivers
    issues        := a.issues
    issuesMetaRaw := a.issuesMeta
    issuesHistory := a.issuesHistory
    v2History     := v2History
  }

end NcdbReader
