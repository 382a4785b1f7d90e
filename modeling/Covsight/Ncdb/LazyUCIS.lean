import Covsight.Ncdb.Archive

-- A database that reads the units of its file when they are first needed.

-- The copy of a stored node that the lazy loader makes: that of the reader with fewer fields.
def HistoryNode.reload (hn : HistoryNode) : HistoryNode :=
  { hn with
    kind       := some (hn.kind.getD .test)
    attributes := ∅
    simTime    := if hn.simTime ≥ 0 then hn.simTime else -1
    cpuTime    := if hn.cpuTime ≥ 0 then hn.cpuTime else -1
    compulsory := none
    cost       := -1
    sameTests  := -1
  }

-- The units of a file that are read independently of each other.
inductive LazyUnit
  | history
  | scopes
  | v2History
  | testplan
  | waivers
  | issues
  deriving DecidableEq, Repr

-- The run history is loaded once there is one.
structure LazyUCIS extends LoadedUCIS where
  loadedHistory  : Bool := false
  loadedScopes   : Bool := false
  loadedTestplan : Bool := false
  loadedWaivers  : Bool := false
  loadedIssues   : Bool := false

namespace LazyUCIS

variable (a : Archive) (db : LazyUCIS)

def ensureHistory : LazyUCIS :=
  if db.loadedHistory then
    db
  else
    { db with
      loadedHistory := true
      toMemUCIS     := (a.history.map HistoryNode.reload).foldl MemUCIS.createHistoryNode db.toMemUCIS
    }

-- The members that are applied to the scope tree. Those that store flags, merge operators and runs
-- are not among them.
def applyMembers (db : MemUCIS) : MemUCIS :=
  let db := a.sources.foldl MemUCIS.createFileHandle db
  let db := db.applying a.attrs Attrs.apply
  let db := db.applying a.tags Tags.apply
  let db := db.applying a.crosses Crosses.apply
  let db := db.applying a.types CoveritemTypes.apply
  let db := db.applying a.itemSources fun sources => CoveritemSources.apply sources a.sources
  let db := Contributions.apply a.contrib db
  db.applying a.formal FormalResults.apply

-- The scopes before the members are applied to them. Attributes need the history nodes, so these are
-- loaded first if there are any attributes.
def setScopes (scopes : List Scope) (separator : Char) : LazyUCIS :=
  let db := { db with loadedScopes := true, scopes := scopes, pathSeparator := separator }
  if a.attrs.isSome then db.ensureHistory a else db

def ensureScopes : Except NcdbError LazyUCIS := do
  if db.loadedScopes then
    return db
  if a.manifest.format ≠ ncdbFormat then
    throw (.notNcdb a.manifest.format)
  let separator ← NcdbReader.readSeparator a.manifest.pathSeparator
  let counts ← a.counts.orRaise (.keyError "counts.bin")
  let scopes ← NcdbReader.readTree a counts
  let db := db.setScopes a scopes separator
  return { db with toMemUCIS := applyMembers a db.toMemUCIS }

def ensureV2History : Except NcdbError LazyUCIS :=
  match db.v2History with
  | some _ => .ok db
  | none   => do
    let s ← (V2State.load a.v2Members).orRaise (.unreadable "history/")
    return { db with v2History := some s }

def ensureTestplan : LazyUCIS :=
  if db.loadedTestplan then
    db
  else
    { db with loadedTestplan := true, testplan := a.testplan.or db.testplan }

def ensureWaivers : LazyUCIS :=
  if db.loadedWaivers then
    db
  else
    { db with loadedWaivers := true, waivers := a.waivers.or db.waivers }

def ensureIssues : LazyUCIS :=
  if db.loadedIssues then
    db
  else
    { db with
      loadedIssues  := true
      issues        := a.issues.or db.issues
      issuesMetaRaw := a.issuesMeta
      issuesHistory := a.issuesHistory.or db.issuesHistory
    }

def load : LazyUnit → Except NcdbError LazyUCIS
  | .history   => .ok (db.ensureHistory a)
  | .scopes    => db.ensureScopes a
  | .v2History => db.ensureV2History a
  | .testplan  => .ok (db.ensureTestplan a)
  | .waivers   => .ok (db.ensureWaivers a)
  | .issues    => .ok (db.ensureIssues a)

-- Writing needs the scopes and the history, and takes the rest as far as it is there.
def write (accel : Bool) : Except NcdbError Archive := do
  let db ← db.ensureScopes a
  let db := db.ensureHistory a
  match db.v2History with
  | none   => NcdbWriter.write accel db.toLoadedUCIS none
  | some s =>
    let m ← (s.getV2Members accel).orRaise .unserializable
    NcdbWriter.write accel db.toLoadedUCIS (some m)

-- A plan without an import time is stamped.
def setTestplan (tp : Testplan) (now : String) : LazyUCIS :=
  { db with
    testplan       := some (if tp.importTimestamp = "" then { tp with importTimestamp := now } else tp)
    loadedTestplan := true
  }

def setWaivers (ws : WaiverSet) : LazyUCIS :=
  { db with waivers := some ws, loadedWaivers := true }

def setIssues (issues : IssueSet) : LazyUCIS :=
  { db with issues := some issues, issuesDirty := true, loadedIssues := true }

-- Parses what was loaded on the first call.
def getIssuesMeta : LazyUCIS :=
  match db.issuesMeta, db.issuesMetaRaw with
  | none, some raw => { db with issuesMeta := some raw, issuesMetaRaw := none }
  | _,    _        => db

def setIssuesMeta (im : IssuesMeta) : LazyUCIS :=
  { db with issuesMeta := some im, issuesMetaDirty := true }

def setIssueHistoryData (history : IssuesHistory) : LazyUCIS :=
  { db with issuesHistory := some history, issuesHistoryDirty := true }

end LazyUCIS

-- What a caller does with a lazily opened database. Objects that were handed out can be edited in
-- place; the recording and squashing of test runs are the edits of the run history.
inductive LazyOp
  | load (unit : LazyUnit)
  | edit (f : MemUCIS → MemUCIS)
  | editV2History (f : V2State → V2State)
  | setTestplan (tp : Testplan) (now : String)
  | editTestplan (f : Testplan → Testplan)
  | setWaivers (ws : WaiverSet)
  | editWaivers (f : WaiverSet → WaiverSet)
  | setIssues (issues : IssueSet)
  | editIssues (f : IssueSet → IssueSet)
  | getIssuesMeta
  | setIssuesMeta (im : IssuesMeta)
  | editIssuesMeta (f : IssuesMeta → IssuesMeta)
  | setIssueHistoryData (history : IssuesHistory)

namespace LazyUCIS

def step (a : Archive) (db : LazyUCIS) : LazyOp → Except NcdbError LazyUCIS
  | .load unit                => db.load a unit
  | .edit f                   => .ok { db with toMemUCIS := f db.toMemUCIS }
  | .editV2History f          => do
    let db ← db.ensureV2History a
    return { db with v2History := db.v2History.map f }
  | .setTestplan tp now       => .ok (db.setTestplan tp now)
  | .editTestplan f           =>
    let db := db.ensureTestplan a
    .ok { db with testplan := db.testplan.map f }
  | .setWaivers ws            => .ok (db.setWaivers ws)
  | .editWaivers f            =>
    let db := db.ensureWaivers a
    .ok { db with waivers := db.waivers.map f }
  | .setIssues issues         => .ok (db.setIssues issues)
  | .editIssues f             =>
    let db := db.ensureIssues a
    .ok { db with issues := db.issues.map f }
  | .getIssuesMeta            => .ok db.getIssuesMeta
  | .setIssuesMeta im         => .ok (db.setIssuesMeta im)
  | .editIssuesMeta f         =>
    let db := db.getIssuesMeta
    .ok { db with issuesMeta := db.issuesMeta.map f }
  | .setIssueHistoryData data => .ok (db.setIssueHistoryData data)

end LazyUCIS
