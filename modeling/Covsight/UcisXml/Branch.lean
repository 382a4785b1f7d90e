import Covsight.Lib.Interning
import Covsight.UcisXml.Key

-- Branches of one scope in the C++ writer: how they are recorded, and the elements that they become. Texts
-- of the arena are kept as their bytes.

open Xml

abbrev Text :=
  List UInt8

def unknownFileName : Text :=
  ascii "(unknown)".toList

-- The paths by their numbers from 1 on.
structure FileTable where
  order    : List Text := [unknownFileName]
  deferred : Bool      := false
  frozen   : Bool      := false
  nodup    : order.Nodup := by simp
  unknown  : unknownFileName ∈ order.head? := by rfl

namespace FileTable

local instance : LawfulBEq Text := inferInstance

def declare (t : FileTable) (path : Text) : Nat × FileTable :=
  if path = [] then (1, t)
  else
    have unknown : unknownFileName ∈ (intern t.order path).snd.head? :=
      have ⟨_, he⟩ := intern.extends_table t.order path
      he ▸ List.mem_head?_append_of_mem_head? t.unknown
    ((intern t.order path).fst + 1,
      { t with order := (intern t.order path).snd, nodup := intern.nodup t.nodup, unknown })

-- A path that comes late is an error, unless the sources are deferred.
def resolve (t : FileTable) (path : Text) : Nat × Bool × FileTable :=
  if path = [] then (1, true, t)
  else if path ∈ t.order then (t.order.idxOf path + 1, true, t)
  else if t.deferred ∨ ¬t.frozen then
    let (id, t) := t.declare path
    (id, true, t)
  else
    (1, false, t)

end FileTable

structure SLoc where
  file        : Nat
  line        : Nat
  inlineCount : Nat
  deriving DecidableEq

namespace SLoc

def before (a b : SLoc) : Bool :=
  if a.file ≠ b.file then a.file < b.file
  else if a.line ≠ b.line then a.line < b.line
  else a.inlineCount < b.inlineCount

end SLoc

structure RBrStmt where
  loc       : SLoc
  expr      : Text
  stmtType  : Text
  parentArm : Option Nat

structure RBrArm where
  stmt  : Nat
  loc   : SLoc
  name  : Text
  count : Nat

structure Stage where
  files   : FileTable
  ok      : Bool         := true
  brStmts : List RBrStmt := []
  brArms  : List RBrArm  := []

namespace Stage

def loc (sg : Stage) (file : Text) (line inlineCount : Nat) : SLoc × Stage :=
  let (id, ok, files) := sg.files.resolve file
  (⟨id, line, inlineCount⟩, { sg with files, ok := sg.ok && ok })

def nestedBranch (sg : Stage) (parentArm : Option Nat) (file : Text) (line : Nat) (stmtType expr : Text) :
    Nat × Stage :=
  let (loc, sg) := sg.loc file line 1
  (sg.brStmts.length, { sg with brStmts := sg.brStmts ++ [⟨loc, expr, stmtType, parentArm⟩] })

def branch (sg : Stage) (file : Text) (line : Nat) (stmtType expr : Text) : Nat × Stage :=
  sg.nestedBranch none file line stmtType expr

def arm (sg : Stage) (branch : Nat) (name : Text) (count : Nat) : Stage :=
  match sg.brStmts[branch]? with
  | none   => sg
  | some s => { sg with brArms := sg.brArms ++ [⟨branch, s.loc, name, count⟩] }

-- A branch point of a sink
def add (sg : Stage) (file : Text) (line : Nat) (name : Text) (count : Nat) : Stage :=
  let (b, sg) := sg.branch file line (ascii "if".toList) []
  sg.arm b name count

end Stage

-- What is recorded in a scope. Other facts only number their files.
inductive Record
  | branch (file : Text) (line : Nat) (stmtType expr : Text)
  | nestedBranch (parentArm : Option Nat) (file : Text) (line : Nat) (stmtType expr : Text)
  | arm (branch : Nat) (name : Text) (count : Nat)
  | point (file : Text) (line : Nat) (name : Text) (count : Nat)
  | other (file : Text)

namespace Stage

def record (sg : Stage) : Record → Stage
  | .branch file line stmtType expr           => (sg.branch file line stmtType expr).snd
  | .nestedBranch parent file line stmtType expr => (sg.nestedBranch parent file line stmtType expr).snd
  | .arm branch name count                    => sg.arm branch name count
  | .point file line name count               => sg.add file line name count
  | .other file                               => (sg.loc file 1 1).snd

end Stage

inductive BranchXml
  | statement (nested : Bool) (branchExpr statementType : Text) (id : SLoc) (branches : List BranchXml)
  | branch (id : SLoc) (nested : List BranchXml) (name : Text) (count : Nat)

def positive (v : Nat) : Nat :=
  if v = 0 then 1 else v

def SLoc.id (loc : SLoc) : SLoc :=
  ⟨positive loc.file, positive loc.line, positive loc.inlineCount⟩

namespace Stage

def sortInto (n : Nat) (less : Nat → Nat → Bool) : List Nat :=
  (List.range n).mergeSort fun a b => !less b a

-- The arms of a statement, by name
def armOrder (sg : Stage) (si : Nat) : List Nat :=
  let arm (i : Nat) := sg.brArms.getD i ⟨0, ⟨1, 1, 1⟩, [], 0⟩
  let mine := (List.range sg.brArms.length).filter fun i => (arm i).stmt = si
  let aord := sortInto mine.length fun a b =>
    let a := arm (mine.getD a 0)
    let b := arm (mine.getD b 0)
    if a.name ≠ b.name then a.name < b.name else a.loc.before b.loc
  aord.map (mine.getD · 0)

-- One statement. The depth is that of the statements in it.
def renderBranchStatement (sg : Stage) (sord : List Nat) : (depth : Nat) → (si : Nat) → (nested : Bool) → Option BranchXml
  | 0,         _,  _      => none
  | depth + 1, si, nested =>
    (sg.brStmts[si]?).map fun s =>
      .statement nested s.expr s.stmtType s.loc.id <| (sg.armOrder si).filterMap fun ai =>
        (sg.brArms[ai]?).map fun a =>
          let inner := sord.filter fun sj => (sg.brStmts[sj]?).any (·.parentArm = some ai)
          .branch a.loc.id (inner.filterMap fun sj => sg.renderBranchStatement sord depth sj true) a.name a.count

def stmtOrder (sg : Stage) : List Nat :=
  let stmt (i : Nat) := sg.brStmts.getD i ⟨⟨1, 1, 1⟩, [], [], none⟩
  sortInto sg.brStmts.length fun a b =>
    let a := stmt a
    let b := stmt b
    if a.loc ≠ b.loc then a.loc.before b.loc else a.expr < b.expr

def renderBranch (sg : Stage) : List BranchXml :=
  let ord := sg.stmtOrder
  let top := ord.filter fun si => (sg.brStmts[si]?).any (·.parentArm = none)
  top.filterMap fun si => sg.renderBranchStatement ord sg.brStmts.length si false

-- Nothing is written after an error.
def endScope (sg : Stage) : Option (List BranchXml) :=
  if sg.ok then some sg.renderBranch else none

end Stage

-- The scopes of a document of the C++ writer, up to what their elements tell of each other. The sink takes
-- all that is written, and numbers are kept without a bound.

inductive Err
  | scopeReopened
  deriving DecidableEq

-- A scope that is staged. It is told by its number.
structure StagedScope where
  name             : Text
  moduleName       : Text
  instanceId       : Nat
  parentInstanceId : Option Nat
  deriving DecidableEq

structure Doc where
  code           : Option Err := none
  message        : Text       := []
  scopeArena     : StrArena   := {}
  scopeNames     : StrMap     := {}
  -- The innermost scope comes first.
  stack          : List StagedScope := []
  nextInstanceId : Nat        := 1
  scopeCount     : Nat        := 0
  -- The elements that are written.
  body           : List StagedScope := []

namespace Doc

def quoted (t : Text) : Text :=
  ascii ['"'] ++ t ++ ascii ['"']

-- The first error is kept. A message has a bounded length.
def failWith (doc : Doc) (e : Err) (message : Text) : Doc :=
  match doc.code with
  | some _ => doc
  | none   => { doc with code := some e, message := message.take 511 }

def reopenedMessage (name : Text) : Text :=
  ascii "scope ".toList ++ quoted name ++ ascii (" was opened again after being closed; scopes must be " ++
    "contiguous, so emit all of a scope's coverage before moving " ++
    "on (ux::sortByScope() groups a flat record list for you)").toList

def closedMessage (name innermost : Text) : Text :=
  ascii "scope ".toList ++ quoted name ++ ascii " closed while ".toList ++ quoted innermost ++
    ascii " is still open; finish one scope before opening the next".toList

-- The scope that is opened next.
def newScope (doc : Doc) (name moduleName : Text) (parent : Option StagedScope) : StagedScope where
  name             := name
  moduleName       := moduleName
  instanceId       := doc.nextInstanceId
  parentInstanceId := parent.map (·.instanceId)

def beginScope (doc : Doc) (name moduleName : Text) (parent : Option StagedScope) : Option StagedScope × Doc :=
  if doc.code.isSome then
    (none, doc)
  else
    let (_, fresh, scopeArena, scopeNames) := doc.scopeNames.getOrAdd doc.scopeArena name doc.scopeCount
    let doc := { doc with scopeArena, scopeNames }
    if fresh then
      let s := doc.newScope name moduleName parent
      (some s, { doc with stack := s :: doc.stack, nextInstanceId := doc.nextInstanceId + 1 })
    else
      (none, doc.failWith .scopeReopened (reopenedMessage name))

-- A scope that is not the innermost one is an error, and a scope that is not open is left alone.
def endScope (doc : Doc) (s : StagedScope) : Doc :=
  match doc.stack.find? (·.instanceId = s.instanceId), doc.stack.head? with
  | some _, some innermost =>
    let doc :=
      if innermost.instanceId = s.instanceId then doc
      else doc.failWith .scopeReopened (closedMessage s.name innermost.name)
    { doc with
      body       := if doc.code.isNone then doc.body ++ [s] else doc.body
      scopeCount := doc.scopeCount + 1
      stack      := doc.stack.eraseP (·.instanceId = s.instanceId)
    }
  | _, _ => doc

end Doc

-- A caller holds a handle for each scope that it opened, the latest first. A handle of a scope that could
-- not be opened does nothing.
structure DocHandles where
  doc     : Doc                 := {}
  handles : List (Option StagedScope) := []

inductive DocStep
  | scope (name moduleName : Text)
  | child (handle : Nat) (name moduleName : Text)
  | close

namespace DocHandles

variable (ss : DocHandles)

def opening (name moduleName : Text) (parent : Option StagedScope) : DocHandles :=
  let (s, doc) := ss.doc.beginScope name moduleName parent
  { doc, handles := s :: ss.handles }

def closing : DocHandles :=
  match ss.handles with
  | []                => ss
  | none :: handles   => { ss with handles }
  | some s :: handles => { doc := ss.doc.endScope s, handles }

def apply (ss : DocHandles) : DocStep → DocHandles
  | .scope name moduleName        => ss.opening name moduleName none
  | .child handle name moduleName =>
    match ss.handles[handle]? with
    | none        => ss
    | some parent => ss.opening name moduleName parent
  | .close                        => ss.closing

end DocHandles
