import Covsight.Lib.Interning
import Covsight.Ncdb.Archive

-- Merging databases into a new one: the union of their scope trees, with the counts of matching
-- items summed.

mutual

def Scope.height : Scope → Nat
  | mk _ _ ss => heightAll ss + 1

def Scope.heightAll : List Scope → Nat
  | []      => 0
  | s :: ss => max s.height (heightAll ss)

end

namespace DbMerger

-- Scopes match by type and name, items by name and cover type.

def scopeKey (s : Scope) : ScopeTypeT × String :=
  (s.type, s.name)

def itemKey (ci : CoverIndex) : String × CoverTypeT :=
  (ci.name, ci.data.type)

-- Where scopes are created. The root has no type; only the class for covergroups and their
-- instances can create crosses.
structure Parent where
  type         : Option ScopeTypeT := none
  isCovergroup : Bool := false

-- The class of a new scope. Below an instance scope a covergroup instance is a plain scope.
def Parent.child (parent : Parent) (type : ScopeTypeT) : Parent where
  type         := some type
  isCovergroup :=
    type = .covergroup ∨ (type = .coverInstance ∧ parent.type ≠ some .instanceScope)

-- The items of a group become one: the first, with the counts added up, the first location there is
-- and the attributes of all, an earlier one before a later one.
def mergeItem : List CoverIndex → Option CoverIndex
  | []        => none
  | ci :: cis => some {
      ci with
      data       := { ci.data with data := ((ci :: cis).map (·.data.data)).sum }
      srcinfo    := (ci :: cis).findSome? (·.srcinfo)
      attributes := (ci :: cis).reverse.foldl (fun attrs ci => attrs.update ci.attributes) ∅
    }

def mergeItems (items : List (List CoverIndex)) : List CoverIndex :=
  (matching itemKey items).filterMap mergeItem

-- What a scope takes over from the first of its group; attributes and tags come from all.
def scopeData (parent : Parent) (src : ScopeData) (srcs : List ScopeData) : ScopeData where
  type       := src.type
  name       := src.name
  srcinfo    := src.srcinfo
  weight     := src.weight
  source     := src.source
  flags      := if takesFlags parent.type src.type then src.flags else 0
  goal       := src.goal
  attributes := srcs.reverse.foldl (fun attrs d => attrs.update d.attributes) ∅
  tags       := (srcs.flatMap (·.tags)).foldl Tags.addTag []
  crossed    := if src.type = .cross then src.crossed else []

-- A scope of one of the mandatory types of an FSM scope is the one that is there. It is renamed and
-- what is set and created on it is added.
def Scope.mergeInto (old new : Scope) : Scope :=
  .mk { old.data with
    name       := new.name
    goal       := if new.data.goal = -1 then old.data.goal else new.data.goal
    attributes := old.data.attributes.update new.data.attributes
    tags       := new.data.tags.foldl Tags.addTag old.data.tags
  } (old.coverItems ++ new.coverItems) (old.scopes ++ new.scopes)

def mergeIntoIn (new : Scope) : List Scope → List Scope
  | []      => [new]
  | s :: ss =>
    if s.type = new.type then Scope.mergeInto s new :: ss else s :: mergeIntoIn new ss

def createScope (parent : Parent) (siblings : List Scope) (new : Scope) : List Scope :=
  if parent.type = some .fsm ∧ (new.type = .fsmStates ∨ new.type = .fsmTrans) then
    mergeIntoIn new siblings
  else
    siblings ++ [new]

-- A cross can only be created on a covergroup that already has the coverpoints; the root does not
-- create covergroup instances from scopes.
def checkScope (parent : Parent) (siblings : List Scope) (d : ScopeData) : Except NcdbError Unit :=
  let isThere (cp : String) : Bool := siblings.any fun s => s.type = .coverpoint ∧ s.name = cp
  match d.type with
  | .cross =>
    match d.crossed.find? (!isThere ·) with
    | some cp => .error (.noCoverpoint cp d.name)
    | none    => if parent.isCovergroup then .ok () else .error (.noCreateCross d.name)
  | .coverInstance => if parent.type = none then .error (.noCoverInstance d.name) else .ok ()
  | _              => .ok ()

-- The sub-scopes that a new scope is created with.
def initialScopes (d : ScopeData) (items : List CoverIndex) : List Scope :=
  if d.type = .fsm then fsmSubScopes d items else []

-- The groups of design units come first.
def designUnitsFirst (groups : List (List Scope)) : List (List Scope) :=
  let isDesignUnit (srcs : List Scope) : Bool := srcs.head?.any (·.type.duAny)
  groups.filter isDesignUnit ++ groups.filter (!isDesignUnit ·)

-- The source files of a scope and its items, in the order in which they are registered.
def filesOf (d : ScopeData) (items : List CoverIndex) : List String :=
  d.srcinfo.file.toList ++ items.filterMap fun ci => ci.srcinfo.bind (·.file)

-- Merging the scopes of a group onto the sub-scopes that are there, given how their own sub-scopes
-- are merged. The names of the source files are collected.
def mergeGroup
    (mergeSub : Parent → List Scope → List (List Scope) → Except NcdbError (List Scope × List String))
    (parent : Parent) (state : List Scope × List String) (srcs : List Scope) :
    Except NcdbError (List Scope × List String) :=
  match srcs with
  | []       => .ok state
  | src :: _ => do
    checkScope parent state.fst src.data
    let d := scopeData parent src.data (srcs.map (·.data))
    let items := mergeItems (srcs.map (·.coverItems))
    let sub ← mergeSub (parent.child src.type) (initialScopes d items) (srcs.map (·.scopes))
    return (createScope parent state.fst (.create d items sub.fst),
      state.snd ++ filesOf d items ++ sub.snd)

-- Merging the sub-scopes of matching scopes onto those that are there. The fuel is the height of the
-- sub-scopes.
def mergeChildren : (fuel : Nat) → Parent → List Scope → List (List Scope) →
    Except NcdbError (List Scope × List String)
  | 0,        _,      siblings, _        => .ok (siblings, [])
  | fuel + 1, parent, siblings, children =>
    (designUnitsFirst (matching scopeKey children)).foldlM (mergeGroup (mergeChildren fuel) parent)
      (siblings, [])

-- The copy of a history node; what is not copied gets its default.
def mergeHistoryNode (hn : HistoryNode) : HistoryNode where
  logicalName       := hn.logicalName
  physicalName      := hn.physicalName
  kind              := hn.kind
  testStatus        := hn.testStatus
  simTime           := hn.simTime
  timeUnit          := hn.timeUnit
  runCwd            := hn.runCwd
  cpuTime           := hn.cpuTime
  seed              := hn.seed
  cmd               := hn.cmd
  date              := hn.date
  userName          := hn.userName
  toolCategory      := hn.toolCategory
  vendorId          := hn.vendorId
  vendorTool        := hn.vendorTool
  vendorToolVersion := hn.vendorToolVersion
  comment           := hn.comment

-- Merging into an empty database.
def merge (dbs : List MemUCIS) : Except NcdbError MemUCIS := do
  let children := dbs.map (·.scopes)
  let fuel := (children.map Scope.heightAll).foldr max 0
  let (scopes, files) ← mergeChildren fuel {} [] children
  let db := files.foldl MemUCIS.createFileHandle { scopes := scopes }
  return ((dbs.flatMap (·.historyNodes)).map mergeHistoryNode).foldl MemUCIS.createHistoryNode db

end DbMerger
