import Covsight.Lib.Dict
import Covsight.NcdbTs.ScopeTree

-- A database of the TypeScript library with everything that an archive keeps of it. Members that
-- are JSON are given by the values that the readers look up in them.

structure TsTestData where
  userName     : JsString := []
  testPlanName : JsString := []
  date         : JsString := []
  simElapsed   : JsString := []
  runCwd       : JsString := []
  comment      : JsString := []
  userName2    : JsString := []
  toolCategory : JsString := []
  compulsory   : Bool := false
  date2        : JsString := []
  simCmd       : JsString := []
  elaborCmd    : JsString := []
  seed         : JsString := []
  goldenLog    : JsString := []
  randstate    : JsString := []
  attributes   : Dict JsString JsString := ∅

inductive TsHistoryNodeKind
  | none
  | all
  | test
  | merge
  deriving DecidableEq

structure TsHistoryNode where
  kind     : TsHistoryNodeKind
  testName : JsString
  testData : Option TsTestData := .none

-- A kind is stored as a word or as its number.
inductive KindValue
  | word (s : String)
  | number (n : Int)
  deriving DecidableEq

-- What is stored of test data. Fields that are missing or no strings are `none`.
structure RawTestData where
  userName     : Option JsString := none
  testPlanName : Option JsString := none
  date         : Option JsString := none
  simElapsed   : Option JsString := none
  runCwd       : Option JsString := none
  comment      : Option JsString := none
  userName2    : Option JsString := none
  toolCategory : Option JsString := none
  compulsory   : Option Bool := none
  date2        : Option JsString := none
  simCmd       : Option JsString := none
  elaborCmd    : Option JsString := none
  seed         : Option JsString := none
  goldenLog    : Option JsString := none
  randstate    : Option JsString := none
  attributes   : Option (Dict JsString JsString) := none

-- A history node as it is stored: with some fields of the test data by themselves, as the other
-- libraries have them, and with all of them together.
structure TsHistoryRecord where
  kind         : Option KindValue := none
  testName     : Option JsString := none
  logicalName  : Option JsString := none
  userName     : Option JsString := none
  seed         : Option JsString := none
  toolCategory : Option JsString := none
  comment      : Option JsString := none
  testData     : Option RawTestData := none

namespace TsHistoryNodeKind

def parse : Option KindValue → TsHistoryNodeKind
  | some (.word s)   =>
    if s = "MERGE" then merge else if s = "NONE" then none else if s = "ALL" then all else test
  | some (.number n) =>
    if n = 2 then merge else if n = -1 then none else if n = 0 then all else test
  | .none            => test

def toWord : TsHistoryNodeKind → String
  | merge => "MERGE"
  | none  => "NONE"
  | all   => "ALL"
  | test  => "TEST"

end TsHistoryNodeKind

namespace TsHistoryRecord

-- A field by itself goes before the one in the test data, unless it is empty.
def flatOr (flat raw : Option JsString) : JsString :=
  if flat.getD [] = [] then raw.getD [] else flat.getD []

def hasTestData (r : TsHistoryRecord) : Bool :=
  r.testData.isSome ∨ r.userName.isSome ∨ r.seed.isSome ∨ r.toolCategory.isSome ∨ r.comment.isSome

def readTestData (r : TsHistoryRecord) : TsTestData :=
  let raw := r.testData.getD {}
  {
    userName     := flatOr r.userName raw.userName
    testPlanName := raw.testPlanName.getD []
    date         := raw.date.getD []
    simElapsed   := raw.simElapsed.getD []
    runCwd       := raw.runCwd.getD []
    comment      := flatOr r.comment raw.comment
    userName2    := raw.userName2.getD []
    toolCategory := flatOr r.toolCategory raw.toolCategory
    compulsory   := raw.compulsory.getD false
    date2        := raw.date2.getD []
    simCmd       := raw.simCmd.getD []
    elaborCmd    := raw.elaborCmd.getD []
    seed         := flatOr r.seed raw.seed
    goldenLog    := raw.goldenLog.getD []
    randstate    := raw.randstate.getD []
    attributes   := raw.attributes.getD ∅
  }

def read (r : TsHistoryRecord) : TsHistoryNode where
  kind     := .parse r.kind
  testName := (r.logicalName.or r.testName).getD []
  testData := if r.hasTestData then some r.readTestData else none

end TsHistoryRecord

def TsTestData.raw (td : TsTestData) : RawTestData where
  userName     := td.userName
  testPlanName := td.testPlanName
  date         := td.date
  simElapsed   := td.simElapsed
  runCwd       := td.runCwd
  comment      := td.comment
  userName2    := td.userName2
  toolCategory := td.toolCategory
  compulsory   := td.compulsory
  date2        := td.date2
  simCmd       := td.simCmd
  elaborCmd    := td.elaborCmd
  seed         := td.seed
  goldenLog    := td.goldenLog
  randstate    := td.randstate
  attributes   := td.attributes

def TsHistoryNode.write (node : TsHistoryNode) : TsHistoryRecord where
  kind         := some (.word node.kind.toWord)
  logicalName  := some node.testName
  userName     := node.testData.map (·.userName)
  seed         := node.testData.map (·.seed)
  toolCategory := node.testData.map (·.toolCategory)
  comment      := node.testData.map (·.comment)
  testData     := node.testData.map (·.raw)

-- The issues and their links. Strings are told by their numbers in a table.

structure IssueRow where
  id       : UInt16
  ext      : UInt16
  enums    : UInt16
  created  : UInt32
  updated  : UInt32
  synced   : UInt32
  deriving DecidableEq

structure IssueRows where
  issues         : List IssueRow := []
  waiverLinks    : List (UInt16 × UInt16) := []
  testpointLinks : List (UInt16 × UInt16 × UInt8) := []
  coverageLinks  : List (UInt16 × UInt16 × UInt16 × UInt8) := []
  deriving DecidableEq

structure TsIssueSet extends IssueRows where
  strings : List JsString
  deriving DecidableEq

def issuesMagic : UInt32 := 0x49535342
def issuesVersion : UInt8 := 1

structure IssuesMember extends IssueRows where
  magic   : UInt32 := issuesMagic
  version : UInt8 := issuesVersion
  strings : List String

-- The strings are interned again.
def TsIssueSet.fromBytes (m : IssuesMember) : Option TsIssueSet :=
  if m.magic ≠ issuesMagic ∨ m.version ≠ issuesVersion then
    none
  else
    some { toIssueRows := m.toIssueRows, strings := internAll (m.strings.map textDecode) }

def TsIssueSet.serialize (set : TsIssueSet) : IssuesMember where
  toIssueRows := set.toIssueRows
  strings     := set.strings.map textEncode

-- Titles and addresses of the issues, by the position of the issue.
structure TsIssuesMeta where
  entries : List (Option (JsString × JsString))
  deriving DecidableEq

structure SerializedEntry where
  ti : Option JsString := none
  ur : Option JsString := none
  deriving DecidableEq

-- The text is kept until someone asks for what it says. It may be no JSON text at all.
inductive IssuesMetaText
  | malformed
  | json (m : Option (List (Option SerializedEntry)))
  deriving DecidableEq

namespace TsIssuesMeta

def fromJson : IssuesMetaText → Option TsIssuesMeta
  | .malformed => none
  | .json m    => some ⟨(m.getD []).map (Option.map fun e => (e.ti.getD [], e.ur.getD []))⟩

def unlessEmpty (s : JsString) : Option JsString :=
  if s = [] then none else some s

def serializeEntry (entry : JsString × JsString) : Option SerializedEntry :=
  if entry.fst = [] ∧ entry.snd = [] then
    none
  else
    some ⟨unlessEmpty entry.fst, unlessEmpty entry.snd⟩

def serialize (titles : TsIssuesMeta) : IssuesMetaText :=
  .json (some (titles.entries.map (Option.bind · serializeEntry)))

-- The title and the address of an issue; an empty one counts as none.
def titleAndUrl (titles : TsIssuesMeta) (i : Nat) : Option JsString × Option JsString :=
  let entry := (titles.entries[i]?.bind id).getD ([], [])
  (unlessEmpty entry.fst, unlessEmpty entry.snd)

end TsIssuesMeta

-- The states an issue went through. A reader and a writer of them are told by the bytes before they
-- are packed; a member that is packed in another way is not read.
structure IssueTransitions where
  magic    : UInt32 := 0x49535348
  version  : UInt8 := 1
  ids      : List String
  comments : List String
  index    : List (UInt16 × UInt32 × UInt16)
  tsBase   : UInt32
  rows     : List (Nat × UInt8 × UInt16)

inductive IssuesHistoryMember
  | lzma
  | deflate (transitions : IssueTransitions)

def IssuesHistoryMember.open? : IssuesHistoryMember → Option IssueTransitions
  | lzma                => none
  | deflate transitions =>
    if transitions.magic = 0x49535348 ∧ transitions.version = 1 then some transitions else none

-- Crosses and design units are found by their position in a walk over the scopes: what is looked up
-- of a scope there is its type, its name and those of its siblings.
structure WalkedScope where
  type     : ScopeTypeT
  name     : JsString
  siblings : List (ScopeTypeT × JsString)
  deriving DecidableEq

namespace TsScope

def key (s : TsScope) : ScopeTypeT × JsString :=
  (s.data.scopeType, s.data.logicalName)

mutual

-- The walk does not enter toggle pairs.
def dfsScope (siblings : List (ScopeTypeT × JsString)) : TsScope → List WalkedScope
  | mk d is ss =>
    ⟨d.scopeType, d.logicalName, siblings⟩ ::
      if (mk d is ss).isTogglePair then [] else dfsScopesIn (ss.map key) ss

def dfsScopesIn (siblings : List (ScopeTypeT × JsString)) : List TsScope → List WalkedScope
  | []      => []
  | s :: ss => s.dfsScope siblings ++ dfsScopesIn siblings ss

end

def dfsScopes (top : List TsScope) : List WalkedScope :=
  dfsScopesIn (top.map key) top

end TsScope

-- The points of a cross are told by their positions among its siblings.
abbrev CrossedPoints := List Nat

structure TsDatabase extends TsUCIS where
  crosses            : Dict Nat CrossedPoints := ∅
  duIndex            : Dict JsString Nat := ∅
  historyNodes       : List TsHistoryNode := []
  issues             : Option TsIssueSet := none
  issuesMeta         : Option TsIssuesMeta := none
  issuesMetaRaw      : Option IssuesMetaText := none
  issueHistory       : Option IssueTransitions := none
  issueHistoryWriter : Option IssueTransitions := none

namespace TsDatabase

def crossedPoints (db : TsDatabase) (i : Nat) : CrossedPoints :=
  (db.crosses.get? i).getD []

def getFileHandle (db : TsDatabase) (path : String) : TsDatabase :=
  { db with filePaths := (intern db.filePaths path).snd }

-- Parses the text on the first call; raises if it is malformed.
def getIssuesMeta (db : TsDatabase) : Option (Option TsIssuesMeta × TsDatabase) :=
  match db.issuesMeta, db.issuesMetaRaw with
  | none, some raw => do
    let titles ← TsIssuesMeta.fromJson raw
    return (some titles, { db with issuesMeta := some titles, issuesMetaRaw := none })
  | titles, _      => some (titles, db)

-- The accessors that change the state of a database. A call that raises leaves it as it is.
inductive Accessor
  | getFileHandle (path : String)
  | getIssuesMeta
  deriving DecidableEq

def call (db : TsDatabase) : Accessor → TsDatabase
  | .getFileHandle path => db.getFileHandle path
  | .getIssuesMeta      => (db.getIssuesMeta.map Prod.snd).getD db

def callAll (db : TsDatabase) (calls : List Accessor) : TsDatabase :=
  calls.foldl call db

end TsDatabase
