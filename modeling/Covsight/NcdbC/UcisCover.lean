import Covsight.NcdbC.Covers

-- The calls of the UCIS interface on the covers of a scope, and those that set something of the scope
-- itself. A cover is addressed by its position in the logical view.

def ucisIs32Bit : UInt32 := 0x1
def ucisIs64Bit : UInt32 := 0x2
def ucisIsVector : UInt32 := 0x4
def ucisHasGoal : UInt32 := 0x8
def ucisHasWeight : UInt32 := 0x10
def ucisHasLimit : UInt32 := 0x400
def ucisHasCount : UInt32 := 0x800

-- The value is a union, whose low half is a number of 32 bits.
structure UcisCoverData where
  type   : UInt64
  flags  : UInt32
  data   : UInt64
  goal   : Int32 := 0
  weight : Int32 := 0
  limit  : Int32 := 0

-- A location with a file handle.
structure UcisSourceInfo where
  filename : String
  line     : Int32
  token    : Int32

inductive UcisIntProperty
  | isModified | modifiedSinceSim | numTests | scopeWeight | scopeGoal | scopeSourceType
  | numCrossedCvps | scopeIsUnderDu | scopeIsUnderCoverinstance | scopeNumCoveritems
  | scopeNumExprTerms | toggleType | toggleDir | toggleCovered | branchHasElse | branchIscase
  | coverGoal | coverLimit | coverWeight | testStatus | testCompulsory | stmtIndex | branchCount
  | fsmStateval | cvgAtleast | cvgAutobinmax | cvgDetectoverlap | cvgNumprintmissing | cvgStrobe
  | cvgPerinstance | cvgGetinstcov | cvgMergeinstances | toggleMetric

inductive UcisStringProperty
  | fileName | scopeName | scopeHierName | instanceDuName | uniqueId | verStandard
  | verStandardVersion | verVendorId | verVendorTool | verVendorVersion | generic
  | ithCrossedCvpName | histCmdline | histRuncwd | comment | testTimeunit | testDate | testSimargs
  | testUsername | testName | testSeed | testHostname | testHostos | exprTerms | toggleCanonName
  | uniqueIdAlias | designVersionId | duSignature | histToolcategory | histLogName | histPhysName
  | fsmStatevar

def ucisIntToPropId : UcisIntProperty → Option UInt16
  | .stmtIndex          => some 0x1
  | .branchCount        => some 0x2
  | .branchHasElse      => some 0x3
  | .branchIscase       => some 0x4
  | .fsmStateval        => some 0x5
  | .cvgAutobinmax      => some 0x6
  | .cvgDetectoverlap   => some 0x7
  | .cvgNumprintmissing => some 0x8
  | .cvgStrobe          => some 0x9
  | .cvgPerinstance     => some 0xA
  | .cvgGetinstcov      => some 0xB
  | .cvgMergeinstances  => some 0xC
  | _                   => none

def ucisStrToPropId : UcisStringProperty → Option UInt16
  | .generic         => some 0x40
  | .testName        => some 0x41
  | .testHostname    => some 0x42
  | .testHostos      => some 0x43
  | .designVersionId => some 0x44
  | .fsmStatevar     => some 0x45
  | .uniqueIdAlias   => some 0x46
  | _                => none

-- The properties that may be attributes of the database.
def intPropName : UcisIntProperty → Option String
  | .stmtIndex          => some "UCIS_INT_STMT_INDEX"
  | .branchCount        => some "UCIS_INT_BRANCH_COUNT"
  | .fsmStateval        => some "UCIS_INT_FSM_STATEVAL"
  | .cvgAutobinmax      => some "UCIS_INT_CVG_AUTOBINMAX"
  | .cvgDetectoverlap   => some "UCIS_INT_CVG_DETECTOVERLAP"
  | .cvgNumprintmissing => some "UCIS_INT_CVG_NUMPRINTMISSING"
  | .cvgStrobe          => some "UCIS_INT_CVG_STROBE"
  | .cvgPerinstance     => some "UCIS_INT_CVG_PERINSTANCE"
  | .cvgGetinstcov      => some "UCIS_INT_CVG_GETINSTCOV"
  | .cvgMergeinstances  => some "UCIS_INT_CVG_MERGEINSTANCES"
  | _                   => none

namespace UcisCoverData

-- A cover without a scalar count starts at zero.
def initialCount (d : UcisCoverData) : UInt64 :=
  if d.flags &&& ucisIs64Bit ≠ 0 then d.data
  else if d.flags &&& ucisIs32Bit ≠ 0 then d.data.toUInt32.toUInt64
  else 0

-- What a cover gets besides its name and its count.
def applyTo (d : UcisCoverData) (sourceinfo : Option UcisSourceInfo) (c : NcdbCover) : NcdbCover where
  type    := c.type
  name    := c.name
  count   := c.count
  flags   := d.flags
  atLeast := if d.flags &&& ucisHasLimit ≠ 0 then d.limit.toInt64.toUInt64 else c.atLeast
  source  := match sourceinfo with
    | some si => some ⟨si.filename, si.line.toInt64.toUInt64, si.token.toInt64.toUInt64⟩
    | none    => c.source
  weight  := if d.flags &&& ucisHasWeight ≠ 0 then d.weight.toInt64.toUInt64 else c.weight
  goal    := if d.flags &&& ucisHasGoal ≠ 0 then d.goal.toInt64 else c.goal
  comment := c.comment
  attrs   := c.attrs
  props   := c.props
  assoc   := c.assoc

end UcisCoverData

namespace NcdbScope

def modifyCover (s : NcdbScope) (loc : CoverLoc) (f : NcdbCover → NcdbCover) : NcdbScope :=
  match loc.child with
  | none   => mk s.data (s.covers.modify loc.index f) s.children
  | some i =>
    mk s.data s.covers (s.children.modify i fun c => mk c.data (c.covers.modify loc.index f) c.children)

-- The index of the new cover is the last one of the logical view.
def createNextCover (s : NcdbScope) (name : Option String) (data : UcisCoverData)
    (sourceinfo : Option UcisSourceInfo) : NcdbScope × Int32 :=
  let (s, loc) := s.createCover data.type (name.getD "") data.initialCount
  let s := s.modifyCover loc (data.applyTo sourceinfo)
  (s, Int32.ofNat (s.logicalCoverCount - 1))

-- A call on the cover at an index. It fails where there is none, and where the call itself does.
def updateCover (s : NcdbScope) (coverindex : Int32) (f : NcdbCover → Option NcdbCover) :
    Option NcdbScope :=
  if coverindex < 0 then
    none
  else do
    let loc ← s.logicalCoverAt coverindex.toInt.toNat
    let c ← s.coverAt loc
    let c ← f c
    return s.modifyCover loc fun _ => c

def incrementCover (s : NcdbScope) (coverindex : Int32) (increment : Int64) : Option NcdbScope :=
  s.updateCover coverindex fun c =>
    if c.flags &&& ucisIsVector ≠ 0 then none
    else some { c with count := c.count + increment.toUInt64 }

def setCoverFlag (s : NcdbScope) (coverindex : Int32) (mask : UInt32) (bitvalue : Bool) :
    Option NcdbScope :=
  s.updateCover coverindex fun c =>
    some { c with flags := if bitvalue then c.flags ||| mask else c.flags &&& ~~~mask }

def setCoverIntProperty (s : NcdbScope) (coverindex : Int32) (property : UcisIntProperty)
    (value : Int32) : Option NcdbScope :=
  s.updateCover coverindex fun c =>
    match property with
    | .coverGoal   => some { c with goal := value.toInt64 }
    | .coverWeight => some { c with weight := value.toInt64.toUInt64 }
    | .coverLimit  => some { c with atLeast := value.toInt64.toUInt64 }
    | property     => (ucisIntToPropId property).map fun propId =>
      { c with props := propTableSet c.props ⟨propId, .int32 value⟩ }

def setCoverStringProperty (s : NcdbScope) (coverindex : Int32) (property : UcisStringProperty)
    (value : Option String) : Option NcdbScope :=
  s.updateCover coverindex fun c =>
    match property with
    | .comment => some { c with comment := some (value.getD "") }
    | property => (ucisStrToPropId property).map fun propId =>
      { c with props := propTableSet c.props ⟨propId, .string (value.getD "")⟩ }

def updateData (s : NcdbScope) (f : NcdbScopeData → Option NcdbScopeData) : Option NcdbScope :=
  (f s.data).map fun d => mk d s.covers s.children

def setScopeSourceInfo (s : NcdbScope) (si : UcisSourceInfo) : Option NcdbScope :=
  s.updateData fun d =>
    some { d with source := some ⟨si.filename, si.line.toInt64.toUInt64, si.token.toInt64.toUInt64⟩ }

-- The kind of a toggle and the at_least of a covergroup are not part of the tree.
def setScopeIntProperty (s : NcdbScope) (property : UcisIntProperty) (value : Int32) :
    Option NcdbScope :=
  s.updateData fun d =>
    match property with
    | .scopeWeight     => some { d with weight := value.toInt64.toUInt64 }
    | .scopeGoal       => some { d with goal := value.toInt64 }
    | .scopeSourceType => some { d with sourceType := value }
    | .toggleType | .toggleDir | .toggleMetric | .cvgAtleast => some d
    | property         => (ucisIntToPropId property).map fun propId =>
      { d with props := propTableSet d.props ⟨propId, .int32 value⟩ }

def setScopeStringProperty (s : NcdbScope) (property : UcisStringProperty) (value : Option String) :
    Option NcdbScope :=
  s.updateData fun d =>
    match property with
    | .duSignature     => some { d with duSignature := some (value.getD "") }
    | .toggleCanonName => some d
    | .exprTerms       => some { d with exprTerms := some (value.getD "") }
    | property         => (ucisStrToPropId property).map fun propId =>
      { d with props := propTableSet d.props ⟨propId, .string (value.getD "")⟩ }

end NcdbScope

namespace Ncdb

-- A call on a scope that fails, or whose scope is not there, changes nothing.
def callOn (db : Ncdb) (p : NcdbScopePath) (f : NcdbScope → Option NcdbScope) : Ncdb :=
  match (db.scopeAt p).bind f with
  | none   => db
  | some s => db.modifyScope p fun _ => s

-- An index of -1 stands for the scope itself, a smaller one for the database.
def setIntProperty (db : Ncdb) (p : NcdbScopePath) (coverindex : Int32) (property : UcisIntProperty)
    (value : Int32) : Ncdb :=
  if 0 ≤ coverindex then
    db.callOn p (·.setCoverIntProperty coverindex property value)
  else if coverindex = -1 then
    db.callOn p (·.setScopeIntProperty property value)
  else
    match intPropName property with
    | none   => db
    | some k => { db with attrs := attrTableSet db.attrs ⟨k, .int64 value.toInt64⟩ }

def setStringProperty (db : Ncdb) (p : NcdbScopePath) (coverindex : Int32)
    (property : UcisStringProperty) (value : Option String) : Ncdb :=
  if 0 ≤ coverindex then
    db.callOn p (·.setCoverStringProperty coverindex property value)
  else
    db.callOn p (·.setScopeStringProperty property value)

end Ncdb
