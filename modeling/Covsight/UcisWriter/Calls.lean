import Covsight.UcisWriter.Emit

-- What is called of the C writer.

open Xml

-- Construction and closing. The time is told by how it is printed.

def uwBufsz : Nat :=
  65536

def uwDbNew (write : Accepts UInt8) (close : Option Bool) (now : List UInt8) : UwDb :=
  (Hoare.run (uwElBegin .ucis 0)
    { buf         := .init uwBufsz (some write) close
      writtenTime := some now
      writtenBy   := some (lit "covsight ucis_writer") }).snd

def uwRootSeal : Uw UcisWriterStatus := do
  let db ← get
  if db.stack.getLast?.any (·.pending) then
    discard <| uwTextAttr .ucisVersion (some (lit "1.0"))
    discard <| uwTextAttr .writtenBy (some (db.writtenBy.getD (lit "ucis_writer")))
    discard <| uwTextAttr .writtenTime
      (if uwIsDatetime db.writtenTime then db.writtenTime else some (lit "1970-01-01T00:00:00Z"))
    uwStatus
  else
    uwStatus

def uwBody : Uw UcisWriterStatus :=
  uwTryBuf uwRootSeal uwTablesFlush

-- What is returned where nothing failed so far
def uwRc : Uw Int := do
  let db ← get
  return if db.err ≠ .ok ∨ db.buf.status ≠ .ok then -1 else 0

def uwFailed (status : UcisWriterStatus) (what : String) (detail : Option (List UInt8)) : Uw Int := do
  discard <| uwFail status what detail
  return -1

def ucisWriterSetWrittenBy : Option (List UInt8) → Uw Int
  | none     => return -1
  | some who => do
    let db ← get
    if db.phase ≠ .tables ∨ ¬db.stack.getLast?.any (·.pending) then
      uwFailed .errState "writtenBy set after the document body started" none
    else
      modify fun db => { db with writtenBy := some who }
      uwRc

def ucisWriterSetWrittenTime : Option (List UInt8) → Uw Int
  | none          => return -1
  | some datetime => do
    if ¬uwIsDatetime datetime then
      uwFailed .errUsage "not an xsd:dateTime" (some datetime)
    else if ¬(← get).stack.getLast?.any (·.pending) then
      uwFailed .errState "writtenTime set after the document body started" none
    else
      modify fun db => { db with writtenTime := some datetime }
      uwRc

def ucisWriterSetPretty (enable : Bool) : Uw Int := do
  modify fun db => { db with pretty := enable }
  return 0

def ucisWriteStream : Uw Int := do
  discard uwElCommit
  uwRc

-- What the writer opened itself is closed with the scope.
def uwCloseScope : (fuel : Nat) → Uw Unit
  | 0        => return
  | fuel + 1 => do
    match (← get).stack with
    | top :: _ :: _ =>
      if (← uwElEnd) = .ok ∧ top.owned then
        uwCloseScope fuel
    | _             => return

def ucisWriteStreamScope : Uw Int := do
  let depth := (← get).stack.length
  if depth ≤ 1 then
    uwFailed .errUnbalanced "ucis_WriteStreamScope with no scope open" none
  else
    uwCloseScope depth
    uwRc

def ucisClose : Uw Int := do
  let db ← get
  let unbalanced := if db.stack.length > 1 then db.stack.head?.bind (·.tag) else none
  discard uwBody
  if (← get).instCount = 0 then
    discard uwPlaceholderInstance
  discard <| uwElUnwind 0
  if (← get).pretty then
    discard <| uwBufPutc '\n'
  discard <| uwBuf (·.finish)
  if let some tag := unbalanced then
    discard <| uwFail .errUnbalanced "scope still open at ucis_Close" (some tag.spelled)
  uwRc

-- Files and history nodes

def uwFilehandle (filename workdir : Option (List UInt8)) : Uw (Option UwFile) := do
  match filename with
  | none          =>
    discard <| uwFail .errUsage "file name is NULL" none
    return none
  | some filename =>
    let (f, files) := (← get).files.intern { filename, workdir }
    modify fun db => { db with files }
    if f.isNone then
      discard <| uwFail .errSealed "source file created after the first instance" (some filename)
    return f

-- A history node is told by its place among them.
def uwHistCreate (logicalname physicalname : Option (List UInt8)) (kind : Int) : Uw Nat := do
  let id := (← get).hists.length
  modify fun db =>
    { db with
      hists := db.hists ++
        [{ id, kind, simtime := zeroDouble, cputime := zeroDouble, cost := zeroDouble, logicalname, physicalname }] }
  return id

def uwSetHist (i : Nat) (f : UwHist → UwHist) : Uw Unit :=
  modify fun db => { db with hists := db.hists.modify i f }

def ucisCreateHistoryNode (parent : Option Nat) (logicalname physicalname : Option (List UInt8)) (kind : Int) :
    Uw (Option Nat) := do
  if (← get).phase ≠ .tables then
    discard <| uwFail .errSealed "history node created after the first instance" logicalname
    return none
  else
    let h ← uwHistCreate logicalname physicalname kind
    if let some parent := parent then
      let parentId := (← get).hists[parent]?.map (·.id)
      uwSetHist h fun h => { h with parentId }
    return some h

structure UcisTestData where
  teststatus   : UcisTestStatus
  simtime      : UwDouble
  timeunit     : Option (List UInt8)
  runcwd       : Option (List UInt8)
  cputime      : UwDouble
  seed         : Option (List UInt8)
  cmd          : Option (List UInt8)
  args         : Option (List UInt8)
  compulsory   : Int
  date         : Option (List UInt8)
  username     : Option (List UInt8)
  cost         : UwDouble
  toolcategory : Option (List UInt8)

def ucisSetTestData : Option Nat → Option UcisTestData → Uw Int
  | some node, some data => do
    uwSetHist node fun h =>
      { h with
        hasTestdata  := true
        teststatus   := data.teststatus
        simtime      := data.simtime
        cputime      := data.cputime
        cost         := data.cost
        compulsory   := data.compulsory
        timeunit     := data.timeunit
        runcwd       := data.runcwd
        seed         := data.seed
        cmd          := data.cmd
        args         := data.args
        date         := data.date
        username     := data.username
        toolcategory := data.toolcategory }
    uwRc
  | _,         _         => uwFailed .errUsage "ucis_SetTestData" none

structure UwTestDesc where
  name          : Option (List UInt8)
  physicalName  : Option (List UInt8)
  kind          : Int
  passed        : Bool
  compulsory    : Int
  simTime       : UwDouble
  cpuTime       : UwDouble
  cost          : UwDouble
  timeUnit      : Option (List UInt8)
  runCwd        : Option (List UInt8)
  seed          : Option (List UInt8)
  cmd           : Option (List UInt8)
  args          : Option (List UInt8)
  date          : Option (List UInt8)
  userName      : Option (List UInt8)
  toolCategory  : Option (List UInt8)
  comment       : Option (List UInt8)
  vendorId      : Option (List UInt8)
  vendorTool    : Option (List UInt8)
  vendorVersion : Option (List UInt8)

def uwTest : Option UwTestDesc → Uw (Option Nat)
  | none   => do
    discard <| uwFail .errUsage "uw_test with NULL descriptor" none
    return none
  | some d => do
    if (← get).phase ≠ .tables then
      discard <| uwFail .errSealed "test record created after the first instance" d.name
      return none
    else
      let h ← uwHistCreate d.name d.physicalName (if d.kind ≠ 0 then d.kind else 1)
      uwSetHist h fun h =>
        { h with
          hasTestdata   := true
          teststatus    := if d.passed then .ok else .error
          compulsory    := d.compulsory
          simtime       := d.simTime
          cputime       := d.cpuTime
          cost          := d.cost
          timeunit      := d.timeUnit
          runcwd        := d.runCwd
          seed          := d.seed
          cmd           := d.cmd
          args          := d.args
          date          := d.date
          username      := d.userName
          toolcategory  := d.toolCategory
          comment       := d.comment
          vendorId      := d.vendorId
          vendorTool    := d.vendorTool
          vendorVersion := d.vendorVersion }
      return some h

-- Instances and scopes. A scope that is returned is the current one, and only that there is one is told.

def ucisCreateInstanceByName (parent : Bool) (name : Option (List UInt8)) (srcinfo : Option UwSourceInfo)
    (type : UcisScopeType) (duName : Option (List UInt8)) : Uw Bool := do
  if parent then
    discard <| uwFail .errUsage "write-streaming requires a NULL parent" name
    return false
  else if type ≠ ucisInstance then
    discard <| uwFail .errUsage "ucis_CreateInstanceByName expects UCIS_INSTANCE" name
    return false
  else
    let rc ← uwTry uwBody <| uwTry (uwElUnwind 1) <| uwTry (uwElBegin .instanceCoverages ucisInstance) do
      uwNameAttrs name
      discard <| uwTextAttr .moduleName duName
      discard <| uwTextAttrU64 .instanceId ((← get).instCount + 1).toNat
      uwElSetId (uwFileid srcinfo) (uwLine srcinfo) 1 false
      modify fun db =>
        { db with
          instCount := db.instCount + 1, instDepth := db.stack.length, curKind := .none, blockMode := 0 }
      let cgModule ← uwCopyBounded 128 duName
      modify fun db => { db with cgModule }
      return .ok
    return rc = .ok

def ucisCreateScope (parent : Bool) (name : Option (List UInt8)) (srcinfo : Option UwSourceInfo)
    (type : UcisScopeType) : Uw Bool := do
  if parent then
    discard <| uwFail .errUsage "write-streaming requires a NULL parent" name
    return false
  else if type &&& ucisDuAny ≠ 0 then
    modify fun db => { db with curDu := name }
    return true
  else if type = ucisInstance then
    ucisCreateInstanceByName false name srcinfo type (← get).curDu
  else if type = ucisExpr ∨ type = ucisCond then
    return (← uwOpenExpr name srcinfo) = .ok
  else if type = ucisBranch then
    return (← uwOpenBranchStatement name srcinfo) = .ok
  else if type = ucisCovergroup then
    return (← uwOpenCovergroup name srcinfo) = .ok
  else if type = ucisCoverinstance then
    return (← uwOpenCoverinstance name srcinfo) = .ok
  else if type = ucisCoverpoint then
    return (← uwOpenCoverpoint name) = .ok
  else if type = ucisCross then
    return (← uwOpenCross name) = .ok
  else
    discard <| uwFail .errUsage "scope type not supported by this backend yet" name
    return false

def ucisCreateNextCover (name : Option (List UInt8)) (data : Option UwCoverData)
    (sourceinfo : Option UwSourceInfo) : Uw Int := do
  match data with
  | none      => uwFailed .errUsage "ucis_CreateNextCover with NULL data" name
  | some data =>
    if data.type &&& ucisStmtbin ≠ 0 then
      discard <| uwEmitStatement name data sourceinfo
    else if data.type &&& ucisBranchbin ≠ 0 then
      discard <| uwEmitBranch name data sourceinfo
    else if data.type &&& ucisTogglebin ≠ 0 then
      discard <| uwEmitToggleBin name data
    else if data.type &&& (ucisExprbin ||| ucisCondbin) ≠ 0 then
      discard <| uwEmitExprBin name data
    else if data.type &&& (ucisCvgbin ||| ucisIgnorebin ||| ucisIllegalbin ||| ucisDefaultbin) ≠ 0 then
      discard <| uwEmitCvgBin name data
    else
      discard <| uwFail .errUsage "coveritem type not supported by this backend yet" name
    uwRc

def ucisCreateToggle (parent : Bool) (name canonicalName : Option (List UInt8)) (type dir : Int) : Uw Bool := do
  if parent then
    discard <| uwFail .errUsage "write-streaming requires a NULL parent" name
    return false
  else
    return (← uwOpenToggle name canonicalName type dir) = .ok

-- The calls that take a descriptor

structure UwInstanceDesc where
  name   : Option (List UInt8)
  duName : Option (List UInt8)
  src    : UwSourceInfo

def uwInstance : Option UwInstanceDesc → Uw Int
  | none   => uwFailed .errUsage "uw_instance with NULL descriptor" none
  | some d => do
    discard <| ucisCreateInstanceByName false d.name (some d.src) ucisInstance d.duName
    uwRc

inductive UwBinKind
  | normal | default | ignore | illegal
  deriving DecidableEq

structure UwBinDesc where
  name     : Option (List UInt8) := none
  count    : UInt64              := 0
  kind     : UwBinKind           := .normal
  goal     : Int                 := 0
  weight   : Int                 := 0
  excluded : Bool                := false
  src      : UwSourceInfo      := ⟨none, 0⟩

def uwBinCoverType : UwBinKind → UcisCoverType
  | .default => ucisDefaultbin
  | .ignore  => ucisIgnorebin
  | .illegal => ucisIllegalbin
  | .normal  => ucisCvgbin

def uwCoverOf (d : UwBinDesc) (type : UcisCoverType) : UwCoverData where
  type   := type
  flags  := ucisIs64Bit ||| (if d.goal > 0 then ucisHasGoal else 0) ||| (if d.weight > 0 then ucisHasWeight else 0) |||
    (if d.excluded then ucisExcluded else 0)
  data   := d.count
  goal   := if d.goal > 0 then d.goal else 0
  weight := if d.weight > 0 then d.weight else 0

structure UwStatementDesc where
  name     : Option (List UInt8)
  count    : UInt64
  src      : UwSourceInfo
  weight   : Int
  excluded : Bool

def uwStatement : Option UwStatementDesc → Uw Int
  | none   => uwFailed .errUsage "uw_statement with NULL descriptor" none
  | some d => do
    let b : UwBinDesc := { count := d.count, weight := d.weight, excluded := d.excluded }
    discard <| uwEmitStatement d.name (uwCoverOf b ucisStmtbin) (some d.src)
    uwRc

structure UwBranchDesc where
  name    : Option (List UInt8)
  src     : UwSourceInfo
  isCase  : Bool
  hasElse : Bool

def uwBranch : Option UwBranchDesc → Uw Int
  | none   => uwFailed .errUsage "uw_branch with NULL descriptor" none
  | some d => do
    if (← uwOpenBranchStatement d.name (some d.src)) ≠ .ok then
      return -1
    else
      if d.isCase then
        discard <| uwTextAttr .statementType (some (lit "case"))
      if d.hasElse then
        discard <| uwTextAttr .hasElse (some (lit "true"))
      uwRc

structure UwToggleDesc where
  name          : Option (List UInt8)
  canonicalName : Option (List UInt8)
  type          : Int
  dir           : Int

def uwToggle : Option UwToggleDesc → Uw Int
  | none   => uwFailed .errUsage "uw_toggle with NULL descriptor" none
  | some d => do
    discard <| uwOpenToggle d.name d.canonicalName d.type d.dir
    uwRc

def uwToggleBit (name : Option (List UInt8)) : Uw Int := do
  if (← uwElTop).all (·.type ≠ ucisToggle) then
    uwFailed .errState "uw_toggle_bit outside a toggle object" name
  else
    discard <| uwOpenToggle name none 1 1
    uwRc

structure UwExprDesc where
  name  : Option (List UInt8)
  terms : Option (List UInt8)
  src   : UwSourceInfo

def uwSetExprTerms (terms : Option (List UInt8)) : Uw Unit := do
  let exprTerms ← uwCopyBounded 256 terms
  modify fun db => { db with exprTerms, exprTermsExplicit := true }

def uwExpr : Option UwExprDesc → Uw Int
  | none   => uwFailed .errUsage "uw_expr with NULL descriptor" none
  | some d => do
    if (← uwOpenExpr d.name (some d.src)) ≠ .ok then
      return -1
    else
      if d.terms.isSome then
        uwSetExprTerms d.terms
      uwRc

def uwExprMetric (name : Option (List UInt8)) : Uw Int := do
  if (← uwElTop).all fun top => top.type ≠ ucisExpr ∧ top.type ≠ ucisCond then
    uwFailed .errState "uw_expr_metric outside an expression" name
  else
    discard <| uwOpenExpr name none
    uwRc

-- Only what was set is staged.
def uwStageOpts (weight goal atLeast autoBinMax : Int) (detectOverlap : Bool) (numPrintMissing : Int)
    (perInstance mergeInstances : Bool) : Uw Unit :=
  modify fun db =>
    let o := db.opts
    { db with
      opts :=
        { weight          := if weight > 0 then some weight else o.weight
          goal            := if goal > 0 then some goal else o.goal
          atLeast         := if atLeast > 0 then some atLeast else o.atLeast
          autoBinMax      := if autoBinMax > 0 then some autoBinMax else o.autoBinMax
          detectOverlap   := if detectOverlap then some 1 else o.detectOverlap
          numPrintMissing := if numPrintMissing > 0 then some numPrintMissing else o.numPrintMissing
          perInstance     := if perInstance then some 1 else o.perInstance
          mergeInstances  := if mergeInstances then some 1 else o.mergeInstances } }

structure UwCovergroupDesc where
  name : Option (List UInt8)
  src  : UwSourceInfo

def uwCovergroup : Option UwCovergroupDesc → Uw Int
  | none   => uwFailed .errUsage "uw_covergroup with NULL descriptor" none
  | some d => do
    discard <| uwOpenCovergroup d.name (some d.src)
    uwRc

structure UwCginstanceDesc where
  name            : Option (List UInt8)
  src             : UwSourceInfo
  weight          : Int
  goal            : Int
  atLeast         : Int
  autoBinMax      : Int
  detectOverlap   : Bool
  numPrintMissing : Int
  perInstance     : Bool
  mergeInstances  : Bool

def uwCginstance : Option UwCginstanceDesc → Uw Int
  | none   => uwFailed .errUsage "uw_cginstance with NULL descriptor" none
  | some d => do
    if (← uwOpenCoverinstance d.name (some d.src)) ≠ .ok then
      return -1
    else
      uwStageOpts d.weight d.goal d.atLeast d.autoBinMax d.detectOverlap d.numPrintMissing d.perInstance
        d.mergeInstances
      uwRc

structure UwCoverpointDesc where
  name          : Option (List UInt8)
  exprString    : Option (List UInt8)
  weight        : Int
  goal          : Int
  atLeast       : Int
  autoBinMax    : Int
  detectOverlap : Bool

def uwCoverpoint : Option UwCoverpointDesc → Uw Int
  | none   => uwFailed .errUsage "uw_coverpoint with NULL descriptor" none
  | some d => do
    if (← uwOpenCoverpoint d.name) ≠ .ok then
      return -1
    else
      discard <| uwTextAttr .exprString d.exprString
      uwStageOpts d.weight d.goal d.atLeast d.autoBinMax d.detectOverlap 0 false false
      uwRc

structure UwCrossDesc where
  name            : Option (List UInt8)
  crossed         : List (Option (List UInt8))
  weight          : Int
  goal            : Int
  atLeast         : Int
  numPrintMissing : Int

def uwCrossAddCvps : List (Option (List UInt8)) → Uw UcisWriterStatus
  | []             => return .ok
  | name :: crossed => uwTry (uwCrossAddCvp name) (uwCrossAddCvps crossed)

def uwCross : Option UwCrossDesc → Uw Int
  | none   => uwFailed .errUsage "uw_cross with NULL descriptor" none
  | some d => do
    if (← uwTry (uwOpenCross d.name) (uwCrossAddCvps d.crossed)) ≠ .ok then
      return -1
    else
      uwStageOpts d.weight d.goal d.atLeast 0 false d.numPrintMissing false false
      uwRc

-- A bin goes where it is.
def uwBin : Option UwBinDesc → Uw Int
  | none   => uwFailed .errUsage "uw_bin with NULL descriptor" none
  | some d => do
    match ← uwElTop with
    | none     => uwFailed .errState "uw_bin with no scope open" d.name
    | some top =>
      if top.type = ucisBranch then
        discard <| uwEmitBranch d.name (uwCoverOf d ucisBranchbin) (some d.src)
        uwRc
      else if top.type = ucisToggle then
        discard <| uwEmitToggleBin d.name (uwCoverOf d ucisTogglebin)
        uwRc
      else if top.type = ucisExpr ∨ top.type = ucisCond then
        discard <| uwEmitExprBin d.name (uwCoverOf d ucisExprbin)
        uwRc
      else if top.type = ucisCoverpoint ∨ top.type = ucisCross then
        discard <| uwEmitCvgBin d.name (uwCoverOf d (uwBinCoverType d.kind))
        uwRc
      else
        uwFailed .errState "no scope open that can hold a bin" d.name

-- Properties

inductive UcisObj
  | database
  | hist (i : Nat)
  | scope

inductive UwStringProperty
  | instanceDuName | uniqueId | verVendorId | verVendorTool | verVendorVersion | ithCrossedCvpName | histCmdline
  | histRuncwd | comment | testTimeunit | testDate | testSimargs | testUsername | testSeed | exprTerms
  | toggleCanonName | uniqueIdAlias | histToolcategory | histLogName | histPhysName | other
  deriving DecidableEq

-- What is there of a history node
def uwHistSlot (value : Option (List UInt8)) : UwStringProperty → Option (UwHist → UwHist)
  | .histLogName      => some fun h => { h with logicalname := value }
  | .histPhysName     => some fun h => { h with physicalname := value }
  | .histToolcategory => some fun h => { h with toolcategory := value }
  | .histCmdline      => some fun h => { h with cmd := value }
  | .histRuncwd       => some fun h => { h with runcwd := value }
  | .comment          => some fun h => { h with comment := value }
  | .testTimeunit     => some fun h => { h with timeunit := value }
  | .testDate         => some fun h => { h with date := value }
  | .testSimargs      => some fun h => { h with args := value }
  | .testUsername     => some fun h => { h with username := value }
  | .testSeed         => some fun h => { h with seed := value }
  | .verVendorId      => some fun h => { h with vendorId := value }
  | .verVendorTool    => some fun h => { h with vendorTool := value }
  | .verVendorVersion => some fun h => { h with vendorVersion := value }
  | _                 => none

def uwDbSlot (value : Option (List UInt8)) : UwStringProperty → Option (UwDb → UwDb)
  | .verVendorId      => some fun db => { db with vendorId := value }
  | .verVendorTool    => some fun db => { db with vendorTool := value }
  | .verVendorVersion => some fun db => { db with vendorVersion := value }
  | _                 => none

-- The history node that an object is, if it is one
def UwDb.histOf (db : UwDb) : UcisObj → Option Nat
  | .hist i => if i < db.hists.length then some i else none
  | _       => none

def uwPendingScope : Uw (Option UwElem) :=
  return (← uwElTop).filter (·.pending)

def uwSetHistProperty (i : Nat) (what : String) (slot : Option (UwHist → UwHist)) (rc : Uw Int) : Uw Int := do
  if (← get).phase ≠ .tables then
    uwFailed .errSealed "history node modified after it was written" none
  else
    match slot with
    | none   => uwFailed .errUsage what none
    | some f =>
      uwSetHist i f
      rc

def uwScopeString (top : UwElem) (value : Option (List UInt8)) : UwStringProperty → Uw Int
  | .ithCrossedCvpName => do
    if top.type ≠ ucisCross then
      uwFailed .errUsage "crossed coverpoint named on a scope that is not a cross" value
    else
      return if (← uwCrossAddCvp value) = .ok then 0 else -1
  | .instanceDuName    => do
    discard <| uwTextAttr .moduleName value
    return 0
  | .toggleCanonName   => do
    discard <| uwTextAttr .key value
    return 0
  | .uniqueId          => do
    discard <| uwTextAttr .key value
    return 0
  | .uniqueIdAlias     => do
    discard <| uwTextAttr .«alias» value
    return 0
  | .exprTerms         => do
    uwSetExprTerms value
    return 0
  | _                  => uwFailed .errUsage "unsupported scope string property" none

def ucisSetStringProperty (obj : UcisObj) (coverindex : Int) (property : UwStringProperty)
    (value : Option (List UInt8)) : Uw Int := do
  if coverindex ≥ 0 then
    uwFailed .errOrder "coveritem properties must be set in ucisCoverDataT" none
  else if let .database := obj then
    match uwDbSlot value property with
    | none   => uwFailed .errUsage "unsupported database string property" none
    | some f =>
      modify f
      uwRc
  else if let some i := (← get).histOf obj then
    uwSetHistProperty i "unsupported history-node string property" (uwHistSlot value property) uwRc
  else
    match ← uwPendingScope with
    | none     => uwFailed .errOrder "scope property set after the scope's attributes were written" none
    | some top => uwScopeString top value property

inductive UwIntProperty
  | scopeWeight | scopeGoal | testStatus | testCompulsory | cvgAtleast | cvgAutobinmax | cvgDetectoverlap
  | cvgNumprintmissing | cvgPerinstance | cvgMergeinstances | other
  deriving DecidableEq

-- What is staged for the element, if the property is one of its options
def uwOptsSet (o : UwOpts) (variant : UwOpt) (value : Int) : UwIntProperty → Option UwOpts
  | .scopeWeight        => some { o with weight := some value }
  | .scopeGoal          => some { o with goal := some value }
  | .cvgAtleast         => some { o with atLeast := some value }
  | .cvgAutobinmax      =>
    if variant = .cginst ∨ variant = .coverpoint then some { o with autoBinMax := some value } else none
  | .cvgDetectoverlap   =>
    if variant = .cginst ∨ variant = .coverpoint then some { o with detectOverlap := some value } else none
  | .cvgNumprintmissing =>
    if variant = .cginst ∨ variant = .cross then some { o with numPrintMissing := some value } else none
  | .cvgPerinstance     => if variant = .cginst then some { o with perInstance := some value } else none
  | .cvgMergeinstances  => if variant = .cginst then some { o with mergeInstances := some value } else none
  | _                   => none

def uwTestStatusOf (value : Int) : UcisTestStatus :=
  if value = 0 then .ok else if value = 1 then .warning else if value = 2 then .error
  else if value = 3 then .fatal else if value = 4 then .missing else .mergeError

def uwHistInt (value : Int) : UwIntProperty → Option (UwHist → UwHist)
  | .testStatus     => some fun h => { h with teststatus := uwTestStatusOf value, hasTestdata := true }
  | .testCompulsory => some fun h => { h with compulsory := value, hasTestdata := true }
  | _               => none

def ucisSetIntProperty (obj : UcisObj) (coverindex : Int) (property : UwIntProperty) (value : Int) : Uw Int := do
  if coverindex ≥ 0 then
    uwFailed .errOrder "coveritem properties must be set in ucisCoverDataT" none
  else if let some i := (← get).histOf obj then
    uwSetHistProperty i "unsupported history-node int property" (uwHistInt value property) (return 0)
  else if let .database := obj then
    uwFailed .errUsage "unsupported database int property" none
  else
    match ← uwPendingScope with
    | none     => uwFailed .errOrder "scope property set after the scope's attributes were written" none
    | some top =>
      let o := (← get).opts
      match if top.needsOptions ≠ .none then uwOptsSet o top.needsOptions value property else none with
      | some opts =>
        modify fun db => { db with opts }
        return 0
      | none      =>
        if property = .scopeWeight then
          if value ≠ 1 then
            discard <| uwTextAttrI64 .weight value
          return 0
        else
          uwFailed .errUsage "unsupported scope int property" none

inductive UwRealProperty
  | histCputime | testSimtime | testCost | other

def uwHistReal (value : UwDouble) : UwRealProperty → Option (UwHist → UwHist)
  | .histCputime => some fun h => { h with cputime := value }
  | .testSimtime => some fun h => { h with simtime := value }
  | .testCost    => some fun h => { h with cost := value }
  | .other       => none

-- The node has test data from then on, also where the property is not one of it.
def ucisSetRealProperty (obj : UcisObj) (coverindex : Int) (property : UwRealProperty) (value : UwDouble) :
    Uw Int := do
  if coverindex ≥ 0 then
    uwFailed .errOrder "coveritem properties must be set in ucisCoverDataT" none
  else if let some i := (← get).histOf obj then
    if (← get).phase ≠ .tables then
      uwFailed .errSealed "history node modified after it was written" none
    else
      uwSetHist i fun h => { h with hasTestdata := true }
      uwSetHistProperty i "unsupported real property" (uwHistReal value property) (return 0)
  else
    uwFailed .errUsage "real properties apply to history nodes only" none

-- What a caller does while the database is open
inductive UwApiCall
  | setPretty (enable : Bool)
  | setWrittenBy (who : Option (List UInt8))
  | setWrittenTime (datetime : Option (List UInt8))
  | file (path workdir : Option (List UInt8))
  | test (d : Option UwTestDesc)
  | historyNode (parent : Option Nat) (logicalname physicalname : Option (List UInt8)) (kind : Int)
  | testData (node : Option Nat) (data : Option UcisTestData)
  | instance (d : Option UwInstanceDesc)
  | statement (d : Option UwStatementDesc)
  | branch (d : Option UwBranchDesc)
  | toggle (d : Option UwToggleDesc)
  | toggleBit (name : Option (List UInt8))
  | expr (d : Option UwExprDesc)
  | exprMetric (name : Option (List UInt8))
  | covergroup (d : Option UwCovergroupDesc)
  | cginstance (d : Option UwCginstanceDesc)
  | coverpoint (d : Option UwCoverpointDesc)
  | cross (d : Option UwCrossDesc)
  | bin (d : Option UwBinDesc)
  | writeStream
  | writeStreamScope
  | createInstanceByName (parent : Bool) (name : Option (List UInt8)) (srcinfo : Option UwSourceInfo)
      (type : UcisScopeType) (duName : Option (List UInt8))
  | createScope (parent : Bool) (name : Option (List UInt8)) (srcinfo : Option UwSourceInfo) (type : UcisScopeType)
  | createNextCover (name : Option (List UInt8)) (data : Option UwCoverData) (sourceinfo : Option UwSourceInfo)
  | createToggle (parent : Bool) (name canonicalName : Option (List UInt8)) (type dir : Int)
  | setStringProperty (obj : UcisObj) (coverindex : Int) (property : UwStringProperty) (value : Option (List UInt8))
  | setIntProperty (obj : UcisObj) (coverindex : Int) (property : UwIntProperty) (value : Int)
  | setRealProperty (obj : UcisObj) (coverindex : Int) (property : UwRealProperty) (value : UwDouble)

def uwCall : UwApiCall → Uw Unit
  | .setPretty enable                                        => discard <| ucisWriterSetPretty enable
  | .setWrittenBy who                                        => discard <| ucisWriterSetWrittenBy who
  | .setWrittenTime datetime                                 => discard <| ucisWriterSetWrittenTime datetime
  | .file path workdir                                       => discard <| uwFilehandle path workdir
  | .test d                                                  => discard <| uwTest d
  | .historyNode parent logicalname physicalname kind        =>
    discard <| ucisCreateHistoryNode parent logicalname physicalname kind
  | .testData node data                                      => discard <| ucisSetTestData node data
  | .instance d                                              => discard <| uwInstance d
  | .statement d                                             => discard <| uwStatement d
  | .branch d                                                => discard <| uwBranch d
  | .toggle d                                                => discard <| uwToggle d
  | .toggleBit name                                          => discard <| uwToggleBit name
  | .expr d                                                  => discard <| uwExpr d
  | .exprMetric name                                         => discard <| uwExprMetric name
  | .covergroup d                                            => discard <| uwCovergroup d
  | .cginstance d                                            => discard <| uwCginstance d
  | .coverpoint d                                            => discard <| uwCoverpoint d
  | .cross d                                                 => discard <| uwCross d
  | .bin d                                                   => discard <| uwBin d
  | .writeStream                                             => discard ucisWriteStream
  | .writeStreamScope                                        => discard ucisWriteStreamScope
  | .createInstanceByName parent name srcinfo type duName    =>
    discard <| ucisCreateInstanceByName parent name srcinfo type duName
  | .createScope parent name srcinfo type                    => discard <| ucisCreateScope parent name srcinfo type
  | .createNextCover name data sourceinfo                    => discard <| ucisCreateNextCover name data sourceinfo
  | .createToggle parent name canonicalName type dir         =>
    discard <| ucisCreateToggle parent name canonicalName type dir
  | .setStringProperty obj coverindex property value         =>
    discard <| ucisSetStringProperty obj coverindex property value
  | .setIntProperty obj coverindex property value            =>
    discard <| ucisSetIntProperty obj coverindex property value
  | .setRealProperty obj coverindex property value           =>
    discard <| ucisSetRealProperty obj coverindex property value

-- The database after some calls, and what is returned and left once it is closed

def uwRun (write : Accepts UInt8) (close : Option Bool) (now : List UInt8) (calls : List UwApiCall) : UwDb :=
  Hoare.runAll uwCall calls (uwDbNew write close now)

def uwClosed (write : Accepts UInt8) (close : Option Bool) (now : List UInt8) (calls : List UwApiCall) : Int × UwDb :=
  Hoare.run ucisClose (uwRun write close now calls)
