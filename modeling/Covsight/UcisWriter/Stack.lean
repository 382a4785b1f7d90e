import Covsight.Lib.Hoare
import Covsight.Lib.Markup
import Covsight.UcisWriter.Buf
import Covsight.UcisWriter.Tables
import Mathlib.Data.Nat.Digits.Defs

-- The open elements of the C writer and what is put off until a start tag ends. Strings are given without
-- the zero byte at their end, and the stack with its innermost element first.

open Xml

-- The names of elements and attributes

inductive UwTag
  | ucis | sourceFiles | historyNodes | instanceCoverages | toggleCoverage | blockCoverage | conditionCoverage
  | branchCoverage | fsmCoverage | assertionCoverage | covergroupCoverage | userAttr | statement | bin | contents
  | expr | subExpr | branch | branchBin | toggleObject | toggleBit | index | toggle | id | options | crossExpr
  | cgId | cginstSourceId | cgSourceId | cgInstance | coverpoint | coverpointBin | range | cross | crossBin
  deriving DecidableEq

def lit (s : String) : List UInt8 :=
  ascii s.toList

namespace UwTag

def spelled : UwTag → List UInt8
  | ucis               => lit "UCIS"
  | sourceFiles        => lit "sourceFiles"
  | historyNodes       => lit "historyNodes"
  | instanceCoverages  => lit "instanceCoverages"
  | toggleCoverage     => lit "toggleCoverage"
  | blockCoverage      => lit "blockCoverage"
  | conditionCoverage  => lit "conditionCoverage"
  | branchCoverage     => lit "branchCoverage"
  | fsmCoverage        => lit "fsmCoverage"
  | assertionCoverage  => lit "assertionCoverage"
  | covergroupCoverage => lit "covergroupCoverage"
  | userAttr           => lit "userAttr"
  | statement          => lit "statement"
  | bin                => lit "bin"
  | contents           => lit "contents"
  | expr               => lit "expr"
  | subExpr            => lit "subExpr"
  | branch             => lit "branch"
  | branchBin          => lit "branchBin"
  | toggleObject       => lit "toggleObject"
  | toggleBit          => lit "toggleBit"
  | index              => lit "index"
  | toggle             => lit "toggle"
  | id                 => lit "id"
  | options            => lit "options"
  | crossExpr          => lit "crossExpr"
  | cgId               => lit "cgId"
  | cginstSourceId     => lit "cginstSourceId"
  | cgSourceId         => lit "cgSourceId"
  | cgInstance         => lit "cgInstance"
  | coverpoint         => lit "coverpoint"
  | coverpointBin      => lit "coverpointBin"
  | range              => lit "range"
  | cross              => lit "cross"
  | crossBin           => lit "crossBin"

def all : List UwTag := [
  ucis, sourceFiles, historyNodes, instanceCoverages, toggleCoverage, blockCoverage, conditionCoverage,
  branchCoverage, fsmCoverage, assertionCoverage, covergroupCoverage, userAttr, statement, bin, contents,
  expr, subExpr, branch, branchBin, toggleObject, toggleBit, index, toggle, id, options, crossExpr,
  cgId, cginstSourceId, cgSourceId, cgInstance, coverpoint, coverpointBin, range, cross, crossBin
]

theorem mem_all (t : UwTag) : t ∈ all := by
  cases t <;> decide

theorem all_spelled : (all.map spelled).Nodup ∧ ∀ s ∈ all.map spelled, s ≠ [] ∧ s.all Markup.isNameByte := by
  decide +kernel

theorem spelled_read (t : UwTag) : all.find? (·.spelled = t.spelled) = some t :=
  Markup.find_spelled all_spelled.left t.mem_all

theorem spelled_ne (t : UwTag) : t.spelled ≠ [] :=
  (all_spelled.right _ (List.mem_map_of_mem t.mem_all)).left

theorem spelled_named (t : UwTag) : ∀ b ∈ t.spelled, Markup.isNameByte b = true :=
  List.all_eq_true.mp (all_spelled.right _ (List.mem_map_of_mem t.mem_all)).right

instance : Markup.Spelled UwTag where
  spell      := spelled
  read s     := all.find? (·.spelled = s)
  read_spell := spelled_read
  spell_ne   := spelled_ne
  named      := spelled_named

end UwTag

inductive UwAttr
  | ucisVersion | writtenBy | writtenTime | fileName | id | historyNodeId | parentId | logicalName | physicalName
  | kind | testStatus | simtime | timeunit | runCwd | cpuTime | seed | cmd | args | compulsory | date | userName
  | cost | toolCategory | vendorId | vendorTool | vendorToolVersion | comment | name | key | moduleName
  | instanceId | file | line | inlineCount | «alias» | excluded | weight | coverageCountGoal | nameComponent
  | typeComponent | coverageCount | exprString | index | width | statementType | hasElse | type | portDirection
  | «from» | «to» | goal | atLeast | detectOverlap | autoBinMax | crossNumPrintMissing | perInstance
  | mergeInstances | cgName
  deriving DecidableEq

namespace UwAttr

def spelled : UwAttr → List UInt8
  | ucisVersion          => lit "ucisVersion"
  | writtenBy            => lit "writtenBy"
  | writtenTime          => lit "writtenTime"
  | fileName             => lit "fileName"
  | id                   => lit "id"
  | historyNodeId        => lit "historyNodeId"
  | parentId             => lit "parentId"
  | logicalName          => lit "logicalName"
  | physicalName         => lit "physicalName"
  | kind                 => lit "kind"
  | testStatus           => lit "testStatus"
  | simtime              => lit "simtime"
  | timeunit             => lit "timeunit"
  | runCwd               => lit "runCwd"
  | cpuTime              => lit "cpuTime"
  | seed                 => lit "seed"
  | cmd                  => lit "cmd"
  | args                 => lit "args"
  | compulsory           => lit "compulsory"
  | date                 => lit "date"
  | userName             => lit "userName"
  | cost                 => lit "cost"
  | toolCategory         => lit "toolCategory"
  | vendorId             => lit "vendorId"
  | vendorTool           => lit "vendorTool"
  | vendorToolVersion    => lit "vendorToolVersion"
  | comment              => lit "comment"
  | name                 => lit "name"
  | key                  => lit "key"
  | moduleName           => lit "moduleName"
  | instanceId           => lit "instanceId"
  | file                 => lit "file"
  | line                 => lit "line"
  | inlineCount          => lit "inlineCount"
  | «alias»              => lit "alias"
  | excluded             => lit "excluded"
  | weight               => lit "weight"
  | coverageCountGoal    => lit "coverageCountGoal"
  | nameComponent        => lit "nameComponent"
  | typeComponent        => lit "typeComponent"
  | coverageCount        => lit "coverageCount"
  | exprString           => lit "exprString"
  | index                => lit "index"
  | width                => lit "width"
  | statementType        => lit "statementType"
  | hasElse              => lit "hasElse"
  | type                 => lit "type"
  | portDirection        => lit "portDirection"
  | «from»               => lit "from"
  | «to»                 => lit "to"
  | goal                 => lit "goal"
  | atLeast              => lit "at_least"
  | detectOverlap        => lit "detect_overlap"
  | autoBinMax           => lit "auto_bin_max"
  | crossNumPrintMissing => lit "cross_num_print_missing"
  | perInstance          => lit "per_instance"
  | mergeInstances       => lit "merge_instances"
  | cgName               => lit "cgName"

def all : List UwAttr := [
  ucisVersion, writtenBy, writtenTime, fileName, id, historyNodeId, parentId, logicalName, physicalName, kind,
  testStatus, simtime, timeunit, runCwd, cpuTime, seed, cmd, args, compulsory, date, userName, cost, toolCategory,
  vendorId, vendorTool, vendorToolVersion, comment, name, key, moduleName, instanceId, file, line, inlineCount,
  «alias», excluded, weight, coverageCountGoal, nameComponent, typeComponent, coverageCount, exprString, index,
  width, statementType, hasElse, type, portDirection, «from», «to», goal, atLeast, detectOverlap, autoBinMax,
  crossNumPrintMissing, perInstance, mergeInstances, cgName
]

theorem mem_all (a : UwAttr) : a ∈ all := by
  cases a <;> decide

theorem all_spelled : (all.map spelled).Nodup ∧ ∀ s ∈ all.map spelled, s ≠ [] ∧ s.all Markup.isNameByte := by
  decide +kernel

theorem spelled_read (a : UwAttr) : all.find? (·.spelled = a.spelled) = some a :=
  Markup.find_spelled all_spelled.left a.mem_all

theorem spelled_ne (a : UwAttr) : a.spelled ≠ [] :=
  (all_spelled.right _ (List.mem_map_of_mem a.mem_all)).left

theorem spelled_named (a : UwAttr) : ∀ b ∈ a.spelled, Markup.isNameByte b = true :=
  List.all_eq_true.mp (all_spelled.right _ (List.mem_map_of_mem a.mem_all)).right

instance : Markup.Spelled UwAttr where
  spell      := spelled
  read s     := all.find? (·.spelled = s)
  read_spell := spelled_read
  spell_ne   := spelled_ne
  named      := spelled_named

end UwAttr

-- Text

namespace UwBuf

-- A failed write ends it.
def copyRuns (s : List UInt8) : (fuel i run : Nat) → UwBuf → (nwarn : Nat) → UwBuf × Nat
  | 0,        i, run, b, nwarn => (b.writeBytes (span s run i), nwarn)
  | fuel + 1, i, run, b, nwarn =>
    if i < s.length then
      match uwScan (s.drop i) with
      | .keep length       => copyRuns s fuel (i + length) run b nwarn
      | .replace text note =>
        let b := b.writeBytes (span s run i)
        if b.status ≠ .ok then
          (b, nwarn)
        else
          let b := b.writeBytes text
          if b.status ≠ .ok then (b, note nwarn) else copyRuns s fuel (i + 1) (i + 1) b (note nwarn)
    else
      (b.writeBytes (span s run i), nwarn)

def textEscape (b : UwBuf) (s : List UInt8) (nwarn : Nat) : UwBuf × Nat :=
  if b.status ≠ .ok then (b, nwarn) else copyRuns s s.length 0 0 b nwarn

end UwBuf

def uwDigits (v : Nat) : List UInt8 :=
  if v = 0 then lit "0" else (Nat.digits 10 v).reverse.map fun d => .ofNat (0x30 + d)

def uwInteger (v : Int) : List UInt8 :=
  if v < 0 then lit "-" ++ uwDigits v.natAbs else uwDigits v.natAbs

-- A number of which only the printed text is known
structure UwDouble where
  printed : List UInt8
  plain   : ∀ b ∈ printed, b ∈ lit "0123456789+-.e"

-- The database

abbrev UcisScopeType := UInt64

def ucisToggle : UcisScopeType := 0x1
def ucisBranch : UcisScopeType := 0x2
def ucisExpr : UcisScopeType := 0x4
def ucisCond : UcisScopeType := 0x8
def ucisInstance : UcisScopeType := 0x10
def ucisCovergroup : UcisScopeType := 0x1000
def ucisCoverinstance : UcisScopeType := 0x2000
def ucisCoverpoint : UcisScopeType := 0x4000
def ucisCross : UcisScopeType := 0x8000
def ucisDuAny : UcisScopeType := 0x1F000000

inductive UwOpt
  | none | cginst | coverpoint | cross
  deriving DecidableEq

-- A virtual element has no tag.
structure UwElem where
  tag          : Option UwTag
  type         : UcisScopeType
  stage        : Nat    := 0
  pending      : Bool   := false
  haskids      : Bool   := false
  owned        : Bool   := false
  needsId      : Bool   := false
  idFile       : UInt32 := 0
  idLine       : UInt32 := 0
  idInline     : UInt32 := 0
  needsExpr    : Bool   := false
  exprIndex    : UInt32 := 0
  needsOptions : UwOpt  := .none
  needsCgid    : Bool   := false

-- The options that were set
structure UwOpts where
  weight          : Option Int := none
  goal            : Option Int := none
  atLeast         : Option Int := none
  autoBinMax      : Option Int := none
  numPrintMissing : Option Int := none
  detectOverlap   : Option Int := none
  perInstance     : Option Int := none
  mergeInstances  : Option Int := none

inductive UcisTestStatus
  | ok | warning | error | fatal | missing | mergeError
  deriving DecidableEq

structure UwHist where
  id            : Nat
  parentId      : Option Nat         := none
  kind          : Int
  hasTestdata   : Bool               := false
  teststatus    : UcisTestStatus     := .ok
  compulsory    : Int                := 0
  simtime       : UwDouble
  cputime       : UwDouble
  cost          : UwDouble
  logicalname   : Option (List UInt8)
  physicalname  : Option (List UInt8)
  timeunit      : Option (List UInt8) := none
  runcwd        : Option (List UInt8) := none
  seed          : Option (List UInt8) := none
  cmd           : Option (List UInt8) := none
  args          : Option (List UInt8) := none
  date          : Option (List UInt8) := none
  username      : Option (List UInt8) := none
  toolcategory  : Option (List UInt8) := none
  vendorId      : Option (List UInt8) := none
  vendorTool    : Option (List UInt8) := none
  vendorVersion : Option (List UInt8) := none
  comment       : Option (List UInt8) := none

inductive UwPhase
  | tables | body | closed
  deriving DecidableEq

-- The kinds of coverage, by their place in the instance
inductive UwKind
  | none | toggle | block | cond | branch | fsm | assert | cvg | userattr
  deriving DecidableEq

namespace UwKind

def place : UwKind → Nat
  | none     => 0
  | toggle   => 1
  | block    => 2
  | cond     => 3
  | branch   => 4
  | fsm      => 5
  | assert   => 6
  | cvg      => 7
  | userattr => 8

def tag : UwKind → UwTag
  | toggle => .toggleCoverage
  | block  => .blockCoverage
  | cond   => .conditionCoverage
  | branch => .branchCoverage
  | fsm    => .fsmCoverage
  | assert => .assertionCoverage
  | cvg    => .covergroupCoverage
  | _      => .userAttr

end UwKind

-- A crossed coverpoint is told by its ordinal and its name.
structure UwDb where
  buf               : UwBuf
  warnings          : Nat                        := 0
  pretty            : Bool                       := false
  err               : UcisWriterStatus           := .ok
  errctx            : List UInt8                 := []
  stack             : List UwElem                := []
  phase             : UwPhase                    := .tables
  writtenBy         : Option (List UInt8)        := none
  writtenTime       : Option (List UInt8)        := none
  instDepth         : Nat                        := 0
  curKind           : UwKind                     := .none
  blockMode         : UInt64                     := 0
  curDu             : Option (List UInt8)        := none
  exprTerms         : List UInt8                 := []
  exprTermsExplicit : Bool                       := false
  metric            : List UInt8                 := []
  exprCount         : UInt32                     := 0
  opts              : UwOpts                     := {}
  cgName            : List UInt8                 := []
  cgFile            : UInt32                     := 0
  cgLine            : UInt32                     := 0
  cgModule          : List UInt8                 := []
  crossed           : List (UInt32 × List UInt8) := []
  cvpbins           : UwCvptab                   := {}
  vendorId          : Option (List UInt8)        := none
  vendorTool        : Option (List UInt8)        := none
  vendorVersion     : Option (List UInt8)        := none
  files             : UwFiletab                  := {}
  hists             : List UwHist                := []
  instCount         : UInt32                     := 0

abbrev Uw := StateM UwDb

-- The status of the buffer is what most functions return.
def uwStatus : Uw UcisWriterStatus :=
  return (← get).buf.status

-- A status that is not good is passed on, as it is or as that of the buffer.

def uwTry (m rest : Uw UcisWriterStatus) : Uw UcisWriterStatus :=
  Hoare.andThen (· = .ok) m rest

def uwTryBuf (m rest : Uw UcisWriterStatus) : Uw UcisWriterStatus := do
  if (← m) = .ok then rest else uwStatus

def uwBuf (f : UwBuf → UwBuf) : Uw UcisWriterStatus := do
  modify fun db => { db with buf := f db.buf }
  uwStatus

def uwBufPutc (c : Char) : Uw UcisWriterStatus :=
  uwBuf (·.putc c.toUInt8)

def uwBufWrite (s : List UInt8) : Uw UcisWriterStatus :=
  uwBuf (·.writeBytes s)

def uwTextEscapeCstr (s : List UInt8) : Uw UcisWriterStatus := do
  modify fun db =>
    let (buf, warnings) := db.buf.textEscape s db.warnings
    { db with buf, warnings }
  uwStatus

-- An attribute around what writes its value
def uwTextAttrOf (attr : UwAttr) (value : Uw UcisWriterStatus) : Uw UcisWriterStatus :=
  uwTryBuf (uwBufPutc ' ') <|
  uwTryBuf (uwBufWrite attr.spelled) <|
  uwTryBuf (uwBufWrite (lit "=\"")) <|
  uwTryBuf value <|
  uwBufPutc '"'

def uwTextAttr (attr : UwAttr) : Option (List UInt8) → Uw UcisWriterStatus
  | none       => uwStatus
  | some value => uwTextAttrOf attr (uwTextEscapeCstr value)

-- A number that is zero is written as one character.
def uwBufU64 (v : Nat) : Uw UcisWriterStatus :=
  if v = 0 then uwBufPutc '0' else uwBufWrite (uwDigits v)

def uwBufI64 (v : Int) : Uw UcisWriterStatus :=
  if v < 0 then uwTryBuf (uwBufPutc '-') (uwBufU64 v.natAbs) else uwBufU64 v.natAbs

def uwTextAttrU64 (attr : UwAttr) (v : Nat) : Uw UcisWriterStatus :=
  uwTextAttrOf attr (uwBufU64 v)

def uwTextAttrI64 (attr : UwAttr) (v : Int) : Uw UcisWriterStatus :=
  uwTextAttrOf attr (uwBufI64 v)

def uwTextAttrDouble (attr : UwAttr) (v : UwDouble) : Uw UcisWriterStatus :=
  uwTextAttrOf attr (uwBufWrite v.printed)

-- Errors

def uwCtxCap : Nat :=
  191

def uwCtx (what : List UInt8) (detail : Option (List UInt8)) : List UInt8 :=
  let what := what.take uwCtxCap
  match detail with
  | none        => what
  | some detail => if what.length + 2 < uwCtxCap then (what ++ lit ": " ++ detail).take uwCtxCap else what

-- The first error is kept. Only those of the output stop it.
def uwFail (status : UcisWriterStatus) (what : String) (detail : Option (List UInt8)) : Uw UcisWriterStatus := do
  modify fun db => if db.err = .ok then { db with err := status, errctx := uwCtx (lit what) detail } else db
  modify fun db =>
    if status = .errIo ∨ status = .errAlloc then { db with buf := db.buf.fail status } else db
  return status

def uwWarn : Uw Unit :=
  modify fun db => { db with warnings := db.warnings + 1 }

-- What fits in a store of so many bytes, the zero byte included
def uwCopyBounded (cap : Nat) : Option (List UInt8) → Uw (List UInt8)
  | none     => return []
  | some src => do
    if src.length ≥ cap then
      uwWarn
    return src.take (cap - 1)

-- The stack of elements

def uwMaxDepth : Nat :=
  64

def uwIndentMax : Nat :=
  64

-- Only what has a tag is counted.
def uwRealDepth (stack : List UwElem) : Nat :=
  stack.countP (·.tag.isSome)

def uwNewline (pretty : Bool) (stack : List UwElem) : Uw UcisWriterStatus :=
  if ¬pretty then
    uwStatus
  else
    uwTryBuf (uwBufPutc '\n') <|
    uwBufWrite (List.replicate (min (uwRealDepth stack * 2) uwIndentMax) ' '.toUInt8)

def uwElTop : Uw (Option UwElem) :=
  return (← get).stack.head?

def uwSetTop (f : UwElem → UwElem) : Uw Unit :=
  modify fun db => { db with stack := db.stack.modifyHead f }

-- Up to the nearest element with a tag
def uwMarkKids : List UwElem → List UwElem
  | []            => []
  | e :: elements => { e with haskids := true } :: if e.tag.isSome then elements else uwMarkKids elements

-- The operands are what stands between the separators.
def uwExprOperands : (fuel : Nat) → List UInt8 → List (List UInt8)
  | 0,        _ => []
  | fuel + 1, p =>
    let p := p.dropWhile (· = '#'.toUInt8)
    if p = [] then []
    else p.takeWhile (· ≠ '#'.toUInt8) :: uwExprOperands fuel (p.dropWhile (· ≠ '#'.toUInt8))

def UwDb.operands (db : UwDb) : List (List UInt8) :=
  uwExprOperands db.exprTerms.length db.exprTerms

def uwExprTermCount (db : UwDb) : Nat :=
  if ¬db.exprTermsExplicit then 1 else max db.operands.length 1

def uwElSetId (file line inlinecount : UInt32) (warnOnClamp : Bool) : Uw Unit := do
  match ← uwElTop with
  | none   => return
  | some _ =>
    if warnOnClamp ∧ (file = 0 ∨ line = 0 ∨ inlinecount = 0) then
      uwWarn
    uwSetTop fun top =>
      { top with
        needsId  := true
        idFile   := if file = 0 then 1 else file
        idLine   := if line = 0 then 1 else line
        idInline := if inlinecount = 0 then 1 else inlinecount }

section

-- What ends a start tag also writes what was put off, and for its elements comes back to this. They have nothing
-- put off themselves, so that it comes back once.
variable (commit : Uw UcisWriterStatus)

def uwElBeginWith (tag : UwTag) (type : UcisScopeType) : Uw UcisWriterStatus := do
  if (← get).stack.length ≥ uwMaxDepth then
    uwFail .errDepth "scope nesting too deep" (some tag.spelled)
  else
    uwTryBuf commit do
    modify fun db => { db with stack := uwMarkKids db.stack }
    let db ← get
    uwTryBuf (uwNewline db.pretty db.stack) <|
      uwTryBuf (uwBufPutc '<') <|
      uwTryBuf (uwBufWrite tag.spelled) do
      modify fun db =>
        { db with stack := { tag := some tag, type, pending := true, owned := type = 0 : UwElem } :: db.stack }
      uwStatus

def uwElEndWith : Uw UcisWriterStatus := do
  match ← uwElTop with
  | none    => uwFail .errUnbalanced "no scope is open" none
  | some el =>
    uwTryBuf (if el.needsId ∨ el.needsOptions ≠ .none ∨ el.needsCgid then commit else return .ok) do
    let db ← get
    match db.stack with
    | []          => uwStatus
    | el :: below =>
      modify fun db => { db with stack := below }
      match el.tag with
      | none     =>
        modify fun db => { db with metric := [] }
        uwStatus
      | some tag =>
        if el.type = ucisInstance then
          modify fun db => { db with instDepth := 0, curKind := .none, blockMode := 0 }
        if el.type = ucisCoverinstance then
          modify fun db => { db with cvpbins := {} }
        if el.pending then
          uwBufWrite (lit "/>")
        else
          uwTryBuf (if el.haskids then uwNewline db.pretty below else uwStatus) <|
          uwTryBuf (uwBufWrite (lit "</")) <|
          uwTryBuf (uwBufWrite tag.spelled) <|
          uwBufPutc '>'

-- A negative value is put to zero.
def uwOptAttrNn (attr : UwAttr) : Option Int → Uw Unit
  | none       => return
  | some value => do
    if value < 0 then
      uwWarn
    discard <| uwTextAttrU64 attr value.toNat

def uwOptAttrBool (attr : UwAttr) : Option Int → Uw Unit
  | none       => return
  | some value => discard <| uwTextAttr attr (some (if value ≠ 0 then lit "true" else lit "false"))

def uwEmitCrossExprs : List (List UInt8) → Uw UcisWriterStatus
  | []          => uwStatus
  | cvp :: cvps =>
    uwTry (uwElBeginWith commit .crossExpr 0) <|
    uwTry commit do
    discard <| uwTextEscapeCstr cvp
    uwTry (uwElEndWith commit) (uwEmitCrossExprs cvps)

def uwEmitOptions (variant : UwOpt) : Uw UcisWriterStatus :=
  uwTry (uwElBeginWith commit .options 0) do
  let o := (← get).opts
  uwOptAttrNn .weight o.weight
  uwOptAttrNn .goal o.goal
  uwOptAttrNn .atLeast o.atLeast
  if variant ≠ .cross then
    uwOptAttrBool .detectOverlap o.detectOverlap
  if variant ≠ .cross then
    uwOptAttrNn .autoBinMax o.autoBinMax
  if variant ≠ .coverpoint then
    uwOptAttrNn .crossNumPrintMissing o.numPrintMissing
  if variant = .cginst then
    uwOptAttrBool .perInstance o.perInstance
    uwOptAttrBool .mergeInstances o.mergeInstances
  uwTry (uwElEndWith commit) do
  if variant ≠ .cross then uwStatus else uwEmitCrossExprs commit ((← get).crossed.map (·.snd))

def uwEmitStmtId (tag : UwTag) (file line : UInt32) : Uw UcisWriterStatus :=
  uwTry (uwElBeginWith commit tag 0) do
  discard <| uwTextAttrU64 .file (if file = 0 then 1 else file.toNat)
  discard <| uwTextAttrU64 .line (if line = 0 then 1 else line.toNat)
  discard <| uwTextAttrU64 .inlineCount 1
  uwElEndWith commit

def uwEmitCgid (el : UwElem) : Uw UcisWriterStatus :=
  uwTry (uwElBeginWith commit .cgId 0) do
  let db ← get
  discard <| uwTextAttr .cgName (some (if db.cgName ≠ [] then db.cgName else lit "(unnamed)"))
  discard <| uwTextAttr .moduleName (some (if db.cgModule ≠ [] then db.cgModule else lit "(unknown)"))
  uwTry (uwEmitStmtId commit .cginstSourceId el.idFile el.idLine) <|
  uwTry (uwEmitStmtId commit .cgSourceId db.cgFile db.cgLine) <|
  uwElEndWith commit

def uwEmitOperands : List (List UInt8) → Uw UcisWriterStatus
  | []       => uwStatus
  | p :: ops =>
    uwTry (uwElBeginWith commit .subExpr 0) do
    discard commit
    discard <| uwTextEscapeCstr p
    uwTry (uwElEndWith commit) (uwEmitOperands ops)

def uwEmitSubExprs : Uw UcisWriterStatus := do
  let db ← get
  if ¬db.exprTermsExplicit then
    uwTry (uwElBeginWith commit .subExpr 0) do
    discard commit
    discard <| uwTextEscapeCstr db.exprTerms
    uwElEndWith commit
  else if db.operands = [] then
    uwTry (uwElBeginWith commit .subExpr 0) <|
    uwTry (uwElEndWith commit) uwStatus
  else
    uwEmitOperands commit db.operands

def uwEmitId (top : UwElem) : Uw UcisWriterStatus := do
  let db ← get
  uwTryBuf (uwNewline db.pretty db.stack) do
  discard <| uwBufWrite (lit "<id file=\"")
  discard <| uwBufU64 top.idFile.toNat
  discard <| uwBufWrite (lit "\" line=\"")
  discard <| uwBufU64 top.idLine.toNat
  discard <| uwBufWrite (lit "\" inlineCount=\"")
  discard <| uwBufU64 top.idInline.toNat
  uwBufWrite (lit "\"/>")

-- Something that was put off is written once, and the element has children from then on.
def uwDeferred (due : Bool) (clear : UwElem → UwElem) (emit : Uw UcisWriterStatus) : Uw UcisWriterStatus :=
  if due then do
    uwSetTop fun top => { clear top with haskids := true }
    emit
  else
    return .ok

-- The attributes of an expression are known last.
def uwEndStart (db : UwDb) (top : UwElem) : Uw UcisWriterStatus := do
  if top.needsExpr then
    discard <| uwTextAttr .exprString (some db.exprTerms)
    discard <| uwTextAttrU64 .index top.exprIndex.toNat
    discard <| uwTextAttrU64 .width (uwExprTermCount db)
  uwBufPutc '>'

-- What was put off follows in its order.
def uwPutOff (top : UwElem) : Uw UcisWriterStatus :=
  uwTryBuf (uwDeferred (top.needsOptions ≠ .none) (fun top => { top with needsOptions := .none })
    (uwEmitOptions commit top.needsOptions)) <|
  uwTryBuf (uwDeferred top.needsCgid (fun top => { top with needsCgid := false }) (uwEmitCgid commit top)) <|
  uwTryBuf (uwDeferred top.needsId (fun top => { top with needsId := false }) (uwEmitId top)) <|
  uwTryBuf (uwDeferred top.needsExpr (fun top => { top with needsExpr := false }) (uwEmitSubExprs commit)) <|
  uwStatus

end

def uwElCommitWith (putOff : UwElem → Uw UcisWriterStatus) : Uw UcisWriterStatus := do
  let db ← get
  match db.stack.head? with
  | none     => uwStatus
  | some top =>
    if ¬top.pending then
      uwStatus
    else
      uwSetTop fun top => { top with pending := false }
      uwTryBuf (uwEndStart db top) (putOff top)

def uwElCommit : Uw UcisWriterStatus :=
  uwElCommitWith (uwPutOff (uwElCommitWith fun _ => uwStatus))

def uwElBegin (tag : UwTag) (type : UcisScopeType) : Uw UcisWriterStatus :=
  uwElBeginWith uwElCommit tag type

def uwElEnd : Uw UcisWriterStatus :=
  uwElEndWith uwElCommit

def uwElBeginVirtual (type : UcisScopeType) : Uw UcisWriterStatus := do
  if (← get).stack.length ≥ uwMaxDepth then
    uwFail .errDepth "scope nesting too deep" (some (lit "metric scope"))
  else
    uwTry uwElCommit do
    modify fun db => { db with stack := { tag := none, type : UwElem } :: db.stack }
    uwStatus

-- Elements are closed until so many are open. Each one that is closed leaves one less.
def uwUnwindFrom : (fuel depth : Nat) → Uw UcisWriterStatus
  | 0,        _     => uwStatus
  | fuel + 1, depth => do
    if (← get).stack.length > depth then
      uwTryBuf uwElEnd (uwUnwindFrom fuel depth)
    else
      uwStatus

def uwElUnwind (depth : Nat) : Uw UcisWriterStatus := do
  uwUnwindFrom (← get).stack.length depth

def uwStage (stage : Nat) (what : UwTag) : Uw UcisWriterStatus := do
  match ← uwElTop with
  | none     => uwFail .errState "no scope is open" (some what.spelled)
  | some top =>
    if stage < top.stage then
      uwFail .errOrder "out of order within the enclosing scope" (some what.spelled)
    else
      uwSetTop fun top => { top with stage }
      return .ok
