import Covsight.Api.UCIS
import Covsight.Ncdb.DfsUtil
import Covsight.Ncdb.ScopeTreeCodec

-- The in-memory database with what its objects hold besides their data: references to other objects
-- and properties. Scopes are known by their position in depth-first order, history nodes by theirs.

-- A scope that is referred to; it may have been removed from the database.
inductive ScopeRef
  | scope (ordinal : Nat)
  | removed (name : String)
  deriving DecidableEq

structure ToggleProperties where
  canonicalName : String
  toggleType    : Int
  toggleDir     : Int
  toggleMetric  : Int
  deriving DecidableEq

-- The classes of scopes that answer more than `MemScope` does.
inductive ScopeClass
  | scope
  | instanceScope (du : Option ScopeRef)
  | cvgScope (comment : String)
  | cross (comment : String) (coverpoints : List ScopeRef)
  | toggle (props : ToggleProperties)

structure ItemLinks where
  weight : Int := 0
  limit  : Int := 0
  bitlen : Int := 0

structure ScopeLinks where
  cls           : ScopeClass := .scope
  strProperties : Dict StrProperty String := ∅
  items         : Nat → ItemLinks := fun _ => {}

structure LinkedUCIS extends MemUCIS where
  links          : Nat → ScopeLinks := fun _ => {}
  historyParents : Nat → Option Nat := fun _ => none

-- What the objects answer.

def SourceInfo.api (srcinfo : SourceInfo) : Api.SourceInfo where
  fileName := srcinfo.file
  line     := some srcinfo.line
  token    := some srcinfo.token

def CoverIndex.api (links : ItemLinks) (ci : CoverIndex) : Api.CoverIndex where
  name       := some ci.name
  type       := ci.data.type
  flags      := some ci.data.flags
  data       := ci.data.data
  atLeast    := some ci.data.atLeast
  weight     := some links.weight
  goal       := some ci.data.goal
  limit      := some links.limit
  bitlen     := some links.bitlen
  srcinfo    := ci.srcinfo.map (·.api)
  attributes := ci.attributes.mapVal fun _ value => some value

-- A toggle is covered when both directions have been seen.
def toggled (items : List CoverIndex) (names : List String) : Bool :=
  items.any fun ci =>
    ci.data.type = .toggleBin ∧ 0 < ci.data.data ∧ names.any fun name => name.toList <:+: ci.name.toList

def toggleCovered (items : List CoverIndex) : Int :=
  if toggled items ["0->1", "01"] ∧ toggled items ["1->0", "10"] then 1 else 0

def ScopeData.getIntProperty (d : ScopeData) (items : List CoverIndex) (cls : ScopeClass) :
    IntProperty → Option Int
  | .scopeWeight     => some d.weight
  | .coverGoal       => some d.goal
  | .scopeSourceType => some d.source.value
  | .scopeIsUnderDu  => some 0
  | .toggleType      => if let .toggle props := cls then some props.toggleType else none
  | .toggleDir       => if let .toggle props := cls then some props.toggleDir else none
  | .toggleMetric    => if let .toggle props := cls then some props.toggleMetric else none
  | .toggleCovered   => if let .toggle _ := cls then some (toggleCovered items) else none
  | .numCrossedCvps  => if let .cross _ points := cls then some points.length else none
  | _                => none

namespace ScopeLinks

-- The name of a crossed coverpoint; without coverpoints it is one that was set.
def ithCrossedCvpName (links : ScopeLinks) (nameOf : ScopeRef → Option String) (i : Nat) :
    Option String :=
  match links.cls with
  | .cross _ points =>
    if points.isEmpty then links.strProperties.get? .ithCrossedCvpName else points[i]?.bind nameOf
  | _ => links.strProperties.get? .ithCrossedCvpName

def getStringProperty (links : ScopeLinks) (nameOf : ScopeRef → Option String) (name : String) :
    StrProperty → Option String
  | .scopeName         => some name
  | .comment           =>
    match links.cls with
    | .cvgScope comment | .cross comment _ => some comment
    | _                                    => links.strProperties.get? .comment
  | .toggleCanonName   =>
    match links.cls with
    | .toggle props => some props.canonicalName
    | _             => links.strProperties.get? .toggleCanonName
  | .ithCrossedCvpName => links.ithCrossedCvpName nameOf 0
  | property           => links.strProperties.get? property

-- A cross without coverpoints that has a name crosses that one.
def numCrossedCoverpoints (links : ScopeLinks) : Option Nat :=
  match links.cls with
  | .cross _ points =>
    if points.isEmpty then
      some <| if (links.strProperties.get? .ithCrossedCvpName).isSome then 1 else 0
    else
      some points.length
  | _ => none

def instanceDu (links : ScopeLinks) : Option ScopeRef :=
  match links.cls with
  | .instanceScope du => du
  | _                 => none

def ithCrossedCoverpoint (links : ScopeLinks) (i : Nat) : Option ScopeRef :=
  match links.cls with
  | .cross _ points => points[i]?
  | _               => none

end ScopeLinks

-- The scopes of a tree in depth-first order: the handle of each is its position.
structure ScopeNames where
  names : List String

namespace ScopeNames

-- Scopes that were removed are known by a number that no scope of the tree has.
def handle (sn : ScopeNames) : ScopeRef → Api.Handle
  | .scope ordinal => ordinal
  | .removed _     => sn.names.length

def name (sn : ScopeNames) : ScopeRef → Option String
  | .scope ordinal => sn.names[ordinal]?
  | .removed name  => some name

end ScopeNames

def ScopeData.api (d : ScopeData) (items : List CoverIndex) (links : ScopeLinks) (sn : ScopeNames)
    (ordinal : Nat) : Api.ScopeData where
  handle                := ordinal
  type                  := d.type
  name                  := d.name
  flags                 := some d.flags
  weight                := some d.weight
  goal                  := some d.goal
  srcinfo               := some d.srcinfo.api
  properties            := {
    getIntProperty    := d.getIntProperty items links.cls
    getStringProperty := links.getStringProperty sn.name d.name
    getRealProperty   := fun _ => none
    getHandleProperty := fun _ => none
    getAttributes     := d.attributes.mapVal fun _ value => some value
    getTags           := d.tags
  }
  instanceDu            := links.instanceDu.map sn.handle
  numCrossedCoverpoints := links.numCrossedCoverpoints
  ithCrossedCoverpoint  := fun i =>
    (links.ithCrossedCoverpoint i).map fun point => ⟨sn.handle point, sn.name point⟩
  ithCrossedCvpName     := links.ithCrossedCvpName sn.name

namespace Scope

mutual

-- The scope as the object API shows it, where `n` is its position.
def api (links : Nat → ScopeLinks) (sn : ScopeNames) (n : Nat) : Scope → Api.Scope
  | mk d is ss =>
    .mk (d.api is (links n) sn n) (is.mapIdx fun i ci => ci.api ((links n).items i))
      (apiAll links sn (n + 1) ss)

def apiAll (links : Nat → ScopeLinks) (sn : ScopeNames) (n : Nat) : List Scope → List Api.Scope
  | []      => []
  | s :: ss => s.api links sn n :: apiAll links sn (n + s.dfs.length) ss

end

end Scope

def HistoryNode.getStringProperty (hn : HistoryNode) : StrProperty → Option String
  | .histCmdline      => hn.cmd
  | .testUsername     => hn.userName
  | .histRuncwd       => hn.runCwd
  | .comment          => hn.comment
  | .verVendorId      => some hn.vendorId
  | .verVendorTool    => some hn.vendorTool
  | .verVendorVersion => some hn.vendorToolVersion
  | _                 => none

-- A compulsory mark is a text here, not a number. Every status is a nonzero number. The real properties
-- are asked for in a way that the node does not understand.
def HistoryNode.api (hn : HistoryNode) (handle : Api.Handle) (parent : Option Api.Handle) :
    Api.HistoryNode where
  handle
  properties        := {
    getIntProperty    := fun
      | .testStatus => some 1
      | _           => none
    getStringProperty := hn.getStringProperty
    getRealProperty   := fun _ => none
    getHandleProperty := fun _ => none
    getAttributes     := hn.attributes.mapVal fun _ value => some value
    getTags           := []
  }
  parent
  kind              := hn.kind
  logicalName       := some hn.logicalName
  physicalName      := hn.physicalName
  toolCategory      := some hn.toolCategory
  ucisVersion       := some "1.0"
  vendorId          := some hn.vendorId
  vendorTool        := some hn.vendorTool
  vendorToolVersion := some hn.vendorToolVersion
  cmd               := hn.cmd
  args              := hn.args
  runCwd            := hn.runCwd
  userName          := hn.userName
  seed              := hn.seed
  timeUnit          := hn.timeUnit
  comment           := hn.comment
  date              := some (.inr hn.date)
  compulsory        := none
  sameTests         := some hn.sameTests
  simTime           := some hn.simTime
  cpuTime           := some hn.cpuTime
  cost              := some hn.cost
  testStatus        := some hn.testStatus

namespace LinkedUCIS

def names (db : LinkedUCIS) : ScopeNames :=
  ⟨db.dfsScopeList.map (·.name)⟩

-- Associations and formal results are the database's own.
def api (db : LinkedUCIS) : Api.UCIS where
  scopes            := Scope.apiAll db.links db.names 0 db.scopes
  historyNodes kind :=
    (db.historyNodes.mapIdx fun i hn => hn.api i (db.historyParents i)).filter fun node =>
      kind = .all ∨ node.kind = some kind
  perTestData       := some db.perTestData
  getFormalData     := some db.formalData.get?

end LinkedUCIS
