import Covsight.NcdbC.UcisCover
import Covsight.UcisWriter.Stack

-- What the C writer makes of scopes, bins and the resident tables.

open Xml

-- The line is none if it is not positive.
structure UwSourceInfo where
  filehandle : Option UwFile
  line       : Int

abbrev UcisCoverType := UInt64

def ucisCvgbin : UcisCoverType := 0x1
def ucisStmtbin : UcisCoverType := 0x20
def ucisBranchbin : UcisCoverType := 0x40
def ucisExprbin : UcisCoverType := 0x80
def ucisCondbin : UcisCoverType := 0x100
def ucisTogglebin : UcisCoverType := 0x200
def ucisIgnorebin : UcisCoverType := 0x80000
def ucisIllegalbin : UcisCoverType := 0x100000
def ucisDefaultbin : UcisCoverType := 0x200000

def ucisExcluded : UInt32 := 0x1E0

-- The low half of `data` is the value of 32 bits.
structure UwCoverData where
  type   : UcisCoverType
  flags  : UInt32
  data   : UInt64
  goal   : Int
  weight : Int

def UwCoverData.has (data : UwCoverData) (flag : UInt32) : Bool :=
  data.flags &&& flag ≠ 0

def uwFileid : Option UwSourceInfo → UInt32
  | none         => 0
  | some srcinfo => srcinfo.filehandle.elim 0 fun f => .ofNat f.id

def uwLine : Option UwSourceInfo → UInt32
  | none         => 0
  | some srcinfo => if srcinfo.line > 0 then .ofNat srcinfo.line.toNat else 0

def uwKindOpen (kind : UwKind) : Uw UcisWriterStatus := do
  let db ← get
  if db.instDepth = 0 then
    uwFail .errState "coverage created outside any instance" (some kind.tag.spelled)
  else if db.curKind = kind then
    uwElUnwind (db.instDepth + 1)
  else
    uwTry (uwElUnwind db.instDepth) <|
      uwTry (uwStage kind.place kind.tag) do
      modify fun db => { db with curKind := kind, blockMode := 0 }
      uwElBegin kind.tag 0

-- A vector has no value that could be written.
def uwCoverCount (data : UwCoverData) : Uw Nat := do
  if data.has ucisIsVector then
    uwWarn
    return 0
  else if data.has ucisIs64Bit then
    return data.data.toNat
  else
    return data.data.toUInt32.toNat

def uwEmitObjAttrs (aliased : Option (List UInt8)) (data : Option UwCoverData) : Uw UcisWriterStatus := do
  discard <| uwTextAttr .«alias» aliased
  match data with
  | none      => uwStatus
  | some data =>
    if data.has ucisExcluded then
      discard <| uwTextAttr .excluded (some (lit "true"))
    if data.has ucisHasWeight ∧ data.weight ≠ 1 then
      discard <| uwTextAttrI64 .weight data.weight
    uwStatus

def uwGoalAttr : Option UwCoverData → Uw Unit
  | none      => return
  | some data => do
    if data.has ucisHasGoal ∧ data.goal > 0 then
      discard <| uwTextAttrI64 .coverageCountGoal data.goal

def uwCountAttr : Option UwCoverData → Uw Unit
  | none      => discard <| uwTextAttrU64 .coverageCount 0
  | some data => do discard <| uwTextAttrU64 .coverageCount (← uwCoverCount data)

def uwEmitBin (tag : UwTag) (nameComponent : Option (List UInt8)) (data : Option UwCoverData) :
    Uw UcisWriterStatus :=
  uwTryBuf (uwElBegin tag 0) do
  uwGoalAttr data
  uwTryBuf (uwElBegin .contents 0) do
  discard <| uwTextAttr .nameComponent nameComponent
  uwCountAttr data
  uwTryBuf uwElEnd uwElEnd

def uwEmitStatement (name : Option (List UInt8)) (data : UwCoverData) (srcinfo : Option UwSourceInfo) :
    Uw UcisWriterStatus :=
  uwTry (uwKindOpen .block) do
  let blockMode := (← get).blockMode
  if blockMode ≠ 0 ∧ blockMode ≠ ucisStmtbin then
    uwFail .errOrder "blockCoverage already contains a different block form" (some (lit "statement"))
  else
    modify fun db => { db with blockMode := ucisStmtbin }
    uwTry (uwElBegin .statement 0) do
    discard <| uwEmitObjAttrs name data
    uwElSetId (uwFileid srcinfo) (uwLine srcinfo) 1 true
    uwTry (uwEmitBin .bin none data) uwElEnd

-- Conditions and expressions

def uwOpenExpr (name : Option (List UInt8)) (srcinfo : Option UwSourceInfo) : Uw UcisWriterStatus := do
  match ← uwElTop with
  | some top =>
    if top.type = ucisExpr ∨ top.type = ucisCond then
      let metric ← uwCopyBounded 64 name
      modify fun db => { db with metric }
      uwElBeginVirtual top.type
    else
      openExpr
  | none     => openExpr
where
  openExpr : Uw UcisWriterStatus :=
    uwTry (uwKindOpen .cond) <|
    uwTry (uwElBegin .expr ucisExpr) do
    discard <| uwTextAttr .name name
    discard <| uwTextAttr .key name
    let exprTerms ← uwCopyBounded 256 name
    modify fun db =>
      { db with exprTerms, exprTermsExplicit := false, metric := [], exprCount := db.exprCount + 1 }
    let exprIndex := (← get).exprCount
    uwSetTop fun el => { el with needsExpr := true, exprIndex }
    uwElSetId (uwFileid srcinfo) (uwLine srcinfo) 1 true
    uwStatus

def uwEmitExprBin (name : Option (List UInt8)) (data : UwCoverData) : Uw UcisWriterStatus := do
  let top ← uwElTop
  if top.all fun top => top.type ≠ ucisExpr ∧ top.type ≠ ucisCond then
    uwFail .errState "expression bin outside an expression scope" name
  else
    uwTry (uwElBegin .bin 0) do
    uwGoalAttr data
    uwTry (uwElBegin .contents 0) do
    discard <| uwTextAttr .nameComponent name
    let metric := (← get).metric
    if metric ≠ [] then
      discard <| uwTextAttr .typeComponent metric
    uwCountAttr data
    uwTry uwElEnd uwElEnd

-- Branches

def uwOpenBranchStatement (name : Option (List UInt8)) (srcinfo : Option UwSourceInfo) : Uw UcisWriterStatus :=
  uwTry (uwKindOpen .branch) <|
  uwTry (uwElBegin .statement ucisBranch) do
  discard <| uwTextAttr .statementType (some (lit "if"))
  discard <| uwEmitObjAttrs name none
  uwElSetId (uwFileid srcinfo) (uwLine srcinfo) 1 true
  uwStatus

-- An arm without a place has that of its statement.
def uwEmitBranch (name : Option (List UInt8)) (data : UwCoverData) (srcinfo : Option UwSourceInfo) :
    Uw UcisWriterStatus := do
  match (← uwElTop).filter (·.type = ucisBranch) with
  | none     => uwFail .errState "branch bin outside a branch scope" name
  | some top =>
    uwTry (uwElBegin .branch 0) do
    let fileid := uwFileid srcinfo
    let line := uwLine srcinfo
    if fileid = 0 ∨ line = 0 then
      uwElSetId (if top.idFile ≠ 0 then top.idFile else fileid) (if top.idLine ≠ 0 then top.idLine else line) 1 false
    else
      uwElSetId fileid line 1 false
    uwTry (uwEmitBin .branchBin name data) uwElEnd

-- Toggles

def uwToggleTypeName : Int → Option (List UInt8)
  | 1 => some (lit "net")
  | 2 => some (lit "reg")
  | _ => none

def uwToggleDirName : Int → Option (List UInt8)
  | 1 => some (lit "internal")
  | 2 => some (lit "in")
  | 3 => some (lit "out")
  | 4 => some (lit "inout")
  | _ => none

def isDecimal (b : UInt8) : Bool :=
  '0'.toUInt8 ≤ b ∧ b ≤ '9'.toUInt8

def uwAllDigits : Option (List UInt8) → Option Nat
  | none   => none
  | some s =>
    if s = [] ∨ ¬s.all isDecimal ∨ s.length > 19 then none
    else some (s.foldl (fun v b => v * 10 + (b.toNat - 0x30)) 0)

def uwOpenToggleBit (name : Option (List UInt8)) : Uw UcisWriterStatus :=
  uwTry (uwElBegin .toggleBit ucisToggle) do
  discard <| uwTextAttr .name name
  discard <| uwTextAttr .key name
  match uwAllDigits name with
  | none       => uwStatus
  | some index =>
    uwTry (uwElBegin .index 0) do
    discard uwElCommit
    discard <| uwBufU64 index
    uwElEnd

def UwElem.isToggleObject (el : UwElem) : Bool :=
  el.type = ucisToggle ∧ el.tag = some .toggleObject

-- A toggle in a toggle object is one of its bits.
def uwOpenToggle (name canonicalName : Option (List UInt8)) (type dir : Int) : Uw UcisWriterStatus := do
  if (← uwElTop).any (·.isToggleObject) then
    uwOpenToggleBit name
  else
    uwTry (uwKindOpen .toggle) <|
      uwTry (uwElBegin .toggleObject ucisToggle) do
      discard <| uwTextAttr .name name
      discard <| uwTextAttr .key (canonicalName <|> name)
      discard <| uwTextAttr .type (uwToggleTypeName type)
      discard <| uwTextAttr .portDirection (uwToggleDirName dir)
      uwElSetId 0 0 1 false
      uwStatus

-- What stands before and after the first arrow
def uwArrow : List UInt8 → Option (List UInt8 × List UInt8)
  | a :: b :: s =>
    if a = '-'.toUInt8 ∧ b = '>'.toUInt8 then some ([], s)
    else (uwArrow (b :: s)).map fun (before, after) => (a :: before, after)
  | _           => none

-- A name that is no transition is the state that is reached.
def uwTransition (name : Option (List UInt8)) : List UInt8 × List UInt8 :=
  match name.bind uwArrow with
  | some (before, after) =>
    ((before.reverse.dropWhile (· = ' '.toUInt8)).reverse, after.dropWhile (· = ' '.toUInt8))
  | none                 => ([], name.getD [])

def uwEmitToggleBin (name : Option (List UInt8)) (data : UwCoverData) : Uw UcisWriterStatus := do
  match (← uwElTop).filter (·.type = ucisToggle) with
  | none     => uwFail .errState "toggle bin outside a toggle scope" name
  | some top =>
    if top.isToggleObject then
      uwTry (uwOpenToggleBit (some (lit "0"))) do
      uwSetTop fun top => { top with owned := true }
      emitToggle
    else
      emitToggle
where
  emitToggle : Uw UcisWriterStatus :=
    uwTry (uwElBegin .toggle 0) do
    discard <| uwTextAttr .«from» (uwTransition name).fst
    discard <| uwTextAttr .«to» (uwTransition name).snd
    uwTry (uwEmitBin .bin name data) uwElEnd

-- Covergroups

def uwOpenCovergroup (name : Option (List UInt8)) (srcinfo : Option UwSourceInfo) : Uw UcisWriterStatus :=
  uwTry (uwKindOpen .cvg) do
  let cgName ← uwCopyBounded 128 name
  modify fun db => { db with cgName, cgFile := uwFileid srcinfo, cgLine := uwLine srcinfo }
  uwElBeginVirtual ucisCovergroup

def uwNameAttrs (name : Option (List UInt8)) : Uw Unit := do
  discard <| uwTextAttr .name (some (name.getD (lit "(unnamed)")))
  discard <| uwTextAttr .key (some (name.getD (lit "(unnamed)")))

def uwOpenCgi (name : Option (List UInt8)) (srcinfo : Option UwSourceInfo) (owned : Bool) : Uw UcisWriterStatus :=
  uwTry (uwElBegin .cgInstance ucisCoverinstance) do
  uwNameAttrs name
  let db ← get
  let (idFile, idLine) :=
    if srcinfo.isSome then (uwFileid srcinfo, uwLine srcinfo) else (db.cgFile, db.cgLine)
  uwSetTop fun el => { el with owned, needsOptions := .cginst, needsCgid := true, idFile, idLine }
  modify fun db => { db with opts := {}, cvpbins := {} }
  uwStatus

def uwOpenCoverinstance (name : Option (List UInt8)) (srcinfo : Option UwSourceInfo) : Uw UcisWriterStatus := do
  let top ← uwElTop
  uwTry (if top.any (·.type = ucisCoverinstance) then uwElEnd else return .ok) do
  if (← uwElTop).all (·.type ≠ ucisCovergroup) then
    uwFail .errState "coverinstance outside a covergroup" name
  else
    uwOpenCgi name srcinfo false

def uwCgiEnsure : Uw UcisWriterStatus := do
  let top ← uwElTop
  if top.any (·.type = ucisCoverinstance) then
    return .ok
  else
    uwTry (if top.any fun top => top.type = ucisCoverpoint ∨ top.type = ucisCross then uwElEnd else return .ok) do
    let top ← uwElTop
    if top.any (·.type = ucisCoverinstance) then
      return .ok
    else if top.any (·.type = ucisCovergroup) then
      uwOpenCgi (some (← get).cgName) none true
    else
      uwFail .errState "coverpoint or cross outside a covergroup" none

def uwOpenCoverpoint (name : Option (List UInt8)) : Uw UcisWriterStatus :=
  uwTry uwCgiEnsure <|
  uwTry (uwStage 1 .coverpoint) do
  modify fun db =>
    let t := db.cvpbins.put uwCvpNamespace (name.getD []) db.cvpbins.cvpCount
    { db with cvpbins := { t with cvpCount := t.cvpCount + 1, binCount := 0 } }
  uwTry (uwElBegin .coverpoint ucisCoverpoint) do
  uwNameAttrs name
  uwSetTop fun el => { el with needsOptions := .coverpoint }
  modify fun db => { db with opts := {} }
  uwStatus

def uwOpenCross (name : Option (List UInt8)) : Uw UcisWriterStatus :=
  uwTry uwCgiEnsure <|
  uwTry (uwStage 2 .cross) <|
  uwTry (uwElBegin .cross ucisCross) do
  uwNameAttrs name
  uwSetTop fun el => { el with needsOptions := .cross }
  modify fun db => { db with opts := {}, crossed := [] }
  uwStatus

def uwCrossAddCvp (name : Option (List UInt8)) : Uw UcisWriterStatus := do
  let db ← get
  if db.crossed.length ≥ uwMaxCrossed then
    uwWarn
    return .ok
  else
    match db.cvpbins.get uwCvpNamespace (name.getD []) with
    | none     => uwFail .errOrder "cross names a coverpoint that was not written first" name
    | some ord =>
      let name ← uwCopyBounded 64 name
      modify fun db => { db with crossed := db.crossed ++ [(ord, name)] }
      return .ok

-- Bins of coverpoints and crosses

def uwCvgbinType (type : UcisCoverType) : List UInt8 :=
  if type &&& ucisIgnorebin ≠ 0 then lit "ignore"
  else if type &&& ucisIllegalbin ≠ 0 then lit "illegal"
  else if type &&& ucisDefaultbin ≠ 0 then lit "default"
  else lit "bins"

-- A number that is too long is none.
def uwScanDigits : List UInt8 → (v : Int) → (any : Bool) → Option Int × List UInt8
  | [],     v, any => (if any then some v else none, [])
  | b :: s, v, any =>
    if isDecimal b then
      if v > 2 ^ 55 then (none, b :: s) else uwScanDigits s (v * 10 + (b.toNat - 0x30)) true
    else
      (if any then some v else none, b :: s)

def uwScanInt (p : List UInt8) : Option Int × List UInt8 :=
  match p with
  | []     => (none, [])
  | b :: s =>
    if b = '-'.toUInt8 then
      let (v, p) := uwScanDigits s 0 false
      (v.map (-·), p)
    else if b = '+'.toUInt8 then
      uwScanDigits s 0 false
    else
      uwScanDigits p 0 false

-- What is left is at most one bracket.
def uwRangeEnds (p : List UInt8) : Bool :=
  p = [] ∨ p = [']'.toUInt8]

def uwParseBinRange (name : List UInt8) : Option (Int × Int) := do
  let p := match name.dropWhile (· ≠ '['.toUInt8) with
    | []     => name
    | _ :: p => p
  let (first, p) := uwScanInt p
  let first ← first
  if p.head? = some ':'.toUInt8 then
    let (last, p) := uwScanInt p.tail
    let last ← last
    if uwRangeEnds p then some (first, last) else none
  else
    if uwRangeEnds p then some (first, first) else none

def uwBinAttrs (name : Option (List UInt8)) (data : UwCoverData) : Uw Unit := do
  uwNameAttrs name
  discard <| uwTextAttr .type (some (uwCvgbinType data.type))

def uwContents (name : Option (List UInt8)) (data : UwCoverData) (rest : Uw UcisWriterStatus) :
    Uw UcisWriterStatus :=
  uwTry (uwElBegin .contents 0) do
  discard <| uwTextAttr .nameComponent name
  uwCountAttr data
  uwTry uwElEnd rest

-- The range of a bin without values is its place in the coverpoint.
def uwEmitCoverpointBin (name : Option (List UInt8)) (data : UwCoverData) : Uw UcisWriterStatus := do
  let index := (← get).cvpbins.binCount
  modify fun db =>
    let t := db.cvpbins.put (db.cvpbins.cvpCount - 1) (name.getD []) index
    { db with cvpbins := { t with binCount := t.binCount + 1 } }
  uwTry (uwElBegin .coverpointBin 0) do
  uwBinAttrs name data
  if data.has ucisExcluded then
    discard <| uwTextAttr .«alias» (some (lit "excluded"))
  let parsed := name.bind uwParseBinRange
  if parsed.isNone then
    uwWarn
  let (first, last) := parsed.getD (index.toNat, index.toNat)
  uwTry (uwElBegin .range 0) do
  discard <| uwTextAttrI64 .«from» first
  discard <| uwTextAttrI64 .«to» last
  uwContents name data <|
    uwTry uwElEnd uwElEnd

def comma : UInt8 :=
  ','.toUInt8

-- The indices for the components from the i-th one on
def uwEmitCrossIndices : (fuel i : Nat) → List UInt8 → Uw UcisWriterStatus
  | 0,        _, _ => uwStatus
  | fuel + 1, i, p => do
    let db ← get
    let cvp := (db.crossed[i]?.map (·.fst)).getD (.ofNat i)
    let ord := db.cvpbins.get cvp (p.takeWhile (· ≠ comma))
    if ord.isNone then
      uwWarn
    uwTry (uwElBegin .index 0) <|
      uwTry uwElCommit do
      discard <| uwBufI64 (ord.elim (-1) fun ord => ord.toNat)
      uwTry uwElEnd <|
      match p.dropWhile (· ≠ comma) with
      | []     => uwStatus
      | _ :: p => uwEmitCrossIndices fuel (i + 1) p

def uwEmitCrossBin (name : Option (List UInt8)) (data : UwCoverData) : Uw UcisWriterStatus :=
  uwTry (uwElBegin .crossBin 0) do
  uwBinAttrs name data
  uwTry (uwEmitCrossIndices uwMaxCrossed 0 (name.getD [])) <|
    uwContents name data uwElEnd

def uwEmitCvgBin (name : Option (List UInt8)) (data : UwCoverData) : Uw UcisWriterStatus := do
  match ← uwElTop with
  | none     => uwFail .errState "covergroup bin outside any scope" name
  | some top =>
    if top.type = ucisCoverpoint then
      uwEmitCoverpointBin name data
    else if top.type = ucisCross then
      uwEmitCrossBin name data
    else
      uwFail .errState "covergroup bin outside a coverpoint or cross" name

-- The resident tables

def uwIsDatetime : Option (List UInt8) → Bool
  | none   => false
  | some s => s.length ≥ 19 ∧ s[4]? = some '-'.toUInt8 ∧ s[7]? = some '-'.toUInt8 ∧ s[10]? = some 'T'.toUInt8 ∧
    s[13]? = some ':'.toUInt8 ∧ s[16]? = some ':'.toUInt8

def uwHistKindName : Int → Option (List UInt8)
  | 1 => some (lit "TEST")
  | 2 => some (lit "MERGE")
  | 0 => some (lit "ALL")
  | _ => none

def uwEmitSourceFilesFrom : List UwFile → Uw UcisWriterStatus
  | []      => uwStatus
  | f :: fs =>
    uwTryBuf (uwElBegin .sourceFiles 0) <|
    uwTryBuf (uwBufWrite (lit " fileName=\"")) do
    discard <| uwTextEscapeCstr f.name
    discard <| uwBufPutc '"'
    discard <| uwTextAttrU64 .id f.id
    uwTryBuf uwElEnd (uwEmitSourceFilesFrom fs)

def uwEmitSourceFiles : Uw UcisWriterStatus := do
  let byid := (← get).files.byid
  if byid = [] then
    uwWarn
    uwTryBuf (uwElBegin .sourceFiles 0) do
    discard <| uwTextAttr .fileName (some (lit "(unknown)"))
    discard <| uwTextAttrU64 .id 1
    uwElEnd
  else
    uwEmitSourceFilesFrom byid

def uwHistParent : Option Nat → Uw Unit
  | none        => return
  | some parent => discard <| uwTextAttrU64 .parentId parent

-- What is there only with test data
def uwHistTestdata (h : UwHist) : Uw Unit := do
  if h.hasTestdata then
    discard <| uwTextAttrDouble .simtime h.simtime
    discard <| uwTextAttr .timeunit h.timeunit
    discard <| uwTextAttr .runCwd h.runcwd
    discard <| uwTextAttrDouble .cpuTime h.cputime
    discard <| uwTextAttr .seed h.seed
    discard <| uwTextAttr .cmd h.cmd
    discard <| uwTextAttr .args h.args
    if h.compulsory ≠ 0 then
      discard <| uwTextAttr .compulsory (some (lit "1"))

def uwHistCost (h : UwHist) : Uw Unit := do
  if h.hasTestdata then
    discard <| uwTextAttrDouble .cost h.cost

-- The time of writing stands for what is no time.
def uwHistDate (date writtenTime : Option (List UInt8)) : Uw Unit := do
  if ¬uwIsDatetime date ∧ date.isSome then
    uwWarn
  discard <| uwTextAttr .date (if uwIsDatetime date then date else writtenTime)

def uwEmitOneHistory (h : UwHist) : Uw UcisWriterStatus :=
  uwTryBuf (uwElBegin .historyNodes 0) do
  let db ← get
  discard <| uwTextAttrU64 .historyNodeId h.id
  uwHistParent h.parentId
  discard <| uwTextAttr .logicalName (some (h.logicalname.getD (lit "(unnamed)")))
  discard <| uwTextAttr .physicalName h.physicalname
  discard <| uwTextAttr .kind (uwHistKindName h.kind)
  discard <| uwTextAttr .testStatus (some (if h.teststatus = .ok then lit "true" else lit "false"))
  uwHistTestdata h
  uwHistDate h.date db.writtenTime
  discard <| uwTextAttr .userName h.username
  uwHistCost h
  discard <| uwTextAttr .toolCategory (some (h.toolcategory.getD (lit "UCIS:Simulator")))
  discard <| uwTextAttr .ucisVersion (some (lit "1.0"))
  discard <| uwTextAttr .vendorId (some ((h.vendorId <|> db.vendorId).getD (lit "covsight")))
  discard <| uwTextAttr .vendorTool (some ((h.vendorTool <|> db.vendorTool).getD (lit "ucis_writer")))
  discard <| uwTextAttr .vendorToolVersion (some ((h.vendorVersion <|> db.vendorVersion).getD (lit "0.1.0")))
  discard <| uwTextAttr .comment h.comment
  uwElEnd

def uwEmitHistoryNodesFrom : List UwHist → Uw UcisWriterStatus
  | []      => uwStatus
  | h :: hs => uwTryBuf (uwEmitOneHistory h) (uwEmitHistoryNodesFrom hs)

def zeroDouble : UwDouble where
  printed := lit "0"
  plain   := by
    have h : (lit "0").all (· ∈ lit "0123456789+-.e") := by decide
    simpa using h

def uwEmitHistoryNodes : Uw UcisWriterStatus := do
  let hists := (← get).hists
  if hists.isEmpty then
    uwWarn
    uwEmitOneHistory
      { id := 0, kind := 0, simtime := zeroDouble, cputime := zeroDouble, cost := zeroDouble, logicalname := none,
        physicalname := none }
  else
    uwEmitHistoryNodesFrom hists

def uwPlaceholderInstance : Uw UcisWriterStatus := do
  uwWarn
  uwTryBuf (uwElBegin .instanceCoverages ucisInstance) do
  discard <| uwTextAttr .name (some (lit "(none)"))
  discard <| uwTextAttr .key (some (lit "(none)"))
  uwElSetId 1 1 1 false
  uwElEnd

def uwTablesFlush : Uw UcisWriterStatus := do
  if (← get).phase ≠ .tables then
    uwStatus
  else
    modify fun db => { db with phase := .body, files := { db.files with isSealed := true } }
    uwTryBuf uwEmitSourceFiles uwEmitHistoryNodes
