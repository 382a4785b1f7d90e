import Covsight.Mem.UCIS

-- What a database answers through the object API, whichever backend holds it. A question that the
-- backend does not support is answered `none`, as one without an answer is.

inductive IntProperty
  | isModified
  | modifiedSinceSim
  | suppressModified
  | numTests
  | scopeWeight
  | scopeGoal
  | scopeSourceType
  | numCrossedCvps
  | scopeIsUnderDu
  | scopeIsUnderCoverinstance
  | scopeNumCoveritems
  | scopeNumExprTerms
  | toggleType
  | toggleDir
  | toggleCovered
  | toggleMetric
  | branchHasElse
  | branchIscase
  | coverGoal
  | coverLimit
  | coverWeight
  | testStatus
  | testCompulsory
  | stmtIndex
  | branchCount
  | fsmStateval
  | cvgAtleast
  | cvgAutobinmax
  | cvgDetectoverlap
  | cvgNumprintmissing
  | cvgStrobe
  | cvgPerinstance
  | cvgGetinstcov
  | cvgMergeinstances
  deriving DecidableEq, Repr

inductive StrProperty
  | fileName
  | scopeName
  | scopeHierName
  | instanceDuName
  | uniqueId
  | verStandard
  | verStandardVersion
  | verVendorId
  | verVendorTool
  | verVendorVersion
  | generic
  | ithCrossedCvpName
  | comment
  | histCmdline
  | histRuncwd
  | histToolcategory
  | histLogName
  | histPhysName
  | testTimeunit
  | testDate
  | testSimargs
  | testUsername
  | testName
  | testSeed
  | testHostname
  | testHostos
  | exprTerms
  | toggleCanonName
  | uniqueIdAlias
  | designVersionId
  | duSignature
  deriving DecidableEq, Repr

inductive RealProperty
  | simtime
  | cputime
  | cost
  | cvgInstAverage
  deriving DecidableEq, Repr

inductive HandleProperty
  | d
  deriving DecidableEq, Repr

-- The properties in the order of the enumerations.

def IntProperty.all : List IntProperty :=
  [isModified, modifiedSinceSim, suppressModified, numTests, scopeWeight, scopeGoal, scopeSourceType,
    numCrossedCvps, scopeIsUnderDu, scopeIsUnderCoverinstance, scopeNumCoveritems, scopeNumExprTerms,
    toggleType, toggleDir, toggleCovered, toggleMetric, branchHasElse, branchIscase, coverGoal,
    coverLimit, coverWeight, testStatus, testCompulsory, stmtIndex, branchCount, fsmStateval,
    cvgAtleast, cvgAutobinmax, cvgDetectoverlap, cvgNumprintmissing, cvgStrobe, cvgPerinstance,
    cvgGetinstcov, cvgMergeinstances]

def StrProperty.all : List StrProperty :=
  [fileName, scopeName, scopeHierName, instanceDuName, uniqueId, verStandard, verStandardVersion,
    verVendorId, verVendorTool, verVendorVersion, generic, ithCrossedCvpName, comment, histCmdline,
    histRuncwd, histToolcategory, histLogName, histPhysName, testTimeunit, testDate, testSimargs,
    testUsername, testName, testSeed, testHostname, testHostos, exprTerms, toggleCanonName,
    uniqueIdAlias, designVersionId, duSignature]

def RealProperty.all : List RealProperty :=
  [simtime, cputime, cost, cvgInstAverage]

def HandleProperty.all : List HandleProperty :=
  [.d]

-- The kinds in the order of the enumeration.
def HistoryNodeKind.each : List HistoryNodeKind :=
  [none, all, test, merge]

namespace Api

structure SourceInfo where
  fileName : Option String
  line     : Option Int
  token    : Option Int
  deriving DecidableEq

structure CoverIndex where
  name       : Option String
  type       : CoverTypeT
  flags      : Option Int
  data       : Nat
  atLeast    : Option Int
  weight     : Option Int
  goal       : Option Int
  limit      : Option Int
  bitlen     : Option Int
  srcinfo    : Option SourceInfo
  attributes : Dict String (Option String)

-- An object is known by a number.
abbrev Handle := Nat

-- What an object answers about its properties as a whole.
structure Properties where
  getIntProperty    : IntProperty → Option Int
  getStringProperty : StrProperty → Option String
  getRealProperty   : RealProperty → Option Rat
  getHandleProperty : HandleProperty → Option Handle
  getAttributes     : Dict String (Option String)
  getTags           : List String

structure Crossed where
  handle : Handle
  name   : Option String

structure ScopeData where
  handle                : Handle
  type                  : ScopeTypeT
  name                  : String
  flags                 : Option Int
  weight                : Option Int
  goal                  : Option Int
  srcinfo               : Option SourceInfo
  properties            : Properties
  instanceDu            : Option Handle
  numCrossedCoverpoints : Option Nat
  ithCrossedCoverpoint  : Nat → Option Crossed
  -- The name of a crossed coverpoint, as a string property.
  ithCrossedCvpName     : Nat → Option String

inductive Scope
  | mk (data : ScopeData) (coverItems : List CoverIndex) (scopes : List Scope)

namespace Scope

def data : Scope → ScopeData
  | mk data _ _ => data

def coverItems : Scope → List CoverIndex
  | mk _ items _ => items

def scopes : Scope → List Scope
  | mk _ _ scopes => scopes

@[simp]
theorem data_mk (d : ScopeData) (is : List CoverIndex) (ss : List Scope) : (mk d is ss).data = d :=
  rfl

@[simp]
theorem coverItems_mk (d : ScopeData) (is : List CoverIndex) (ss : List Scope) :
    (mk d is ss).coverItems = is :=
  rfl

@[simp]
theorem scopes_mk (d : ScopeData) (is : List CoverIndex) (ss : List Scope) :
    (mk d is ss).scopes = ss :=
  rfl

end Scope

structure HistoryNode where
  handle            : Handle
  properties        : Properties
  parent            : Option Handle
  kind              : Option HistoryNodeKind
  logicalName       : Option String
  physicalName      : Option String
  toolCategory      : Option String
  ucisVersion       : Option String
  vendorId          : Option String
  vendorTool        : Option String
  vendorToolVersion : Option String
  cmd               : Option String
  args              : Option String
  runCwd            : Option String
  userName          : Option String
  seed              : Option String
  timeUnit          : Option String
  comment           : Option String
  -- The date is a text or a number.
  date              : Option (String ⊕ Int)
  compulsory        : Option Int
  sameTests         : Option Int
  simTime           : Option Rat
  cpuTime           : Option Rat
  cost              : Option Rat
  testStatus        : Option TestStatusT

structure UCIS where
  scopes        : List Scope
  historyNodes  : HistoryNodeKind → List HistoryNode
  -- The hits of each test, where the database holds them itself.
  perTestData   : Option (Dict Nat (Dict Nat Nat))
  getFormalData : Option (Nat → Option FormalData)

end Api
