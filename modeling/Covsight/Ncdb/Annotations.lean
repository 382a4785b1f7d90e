import Covsight.Ncdb.ScopeTree

-- The members that store something for single items, keyed by the flat index of the item.

-- The flags of the items whose flags differ from the default of their cover type.
abbrev CoveritemFlags := Dict Nat Nat

namespace CoveritemFlags

def write (db : MemUCIS) : Option CoveritemFlags :=
  let entries := db.coverItems.zipIdx.filterMap fun (ci, index) =>
    if ci.data.flags = defaultFlags ci.data.type then none else some (index, ci.data.flags)
  if entries.isEmpty then none else some (Dict.ofList entries)

-- The items without an entry get the default of their type, unless nothing is stored at all.
def apply (flags : CoveritemFlags) (db : MemUCIS) : MemUCIS :=
  if flags.entries.isEmpty then
    db
  else
    db.mapCoverItems fun index ci =>
      ci.setCoverFlags <| (flags.get? index).getD (defaultFlags ci.data.type)

end CoveritemFlags

-- What the scope tree loses of an item when the items of a scope differ.
structure ItemValues where
  type    : CoverTypeT
  atLeast : Nat
  goal    : Nat
  deriving DecidableEq, Repr

def CoverData.values (cd : CoverData) : ItemValues where
  type    := cd.type
  atLeast := cd.atLeast.toNat
  goal    := cd.goal.toNat

-- A run of consecutive items with the same values.
structure TypeRun where
  start  : Nat
  length : Nat
  values : ItemValues
  deriving DecidableEq, Repr

abbrev CoveritemTypes := List TypeRun

namespace CoveritemTypes

-- The values that the scope tree alone rebuilds for the items of a scope.
def rebuilt (items : List CoverIndex) : Option ItemValues :=
  items.head?.map fun ci => { ci.data.values with goal := 0 }

def scopeEntries (first : Nat) (items : List CoverIndex) : List (Nat × ItemValues) :=
  (items.zipIdx first).filterMap fun (ci, index) =>
    if some ci.data.values = rebuilt items then none else some (index, ci.data.values)

def entriesFrom (first : Nat) : List Scope → List (Nat × ItemValues)
  | []      => []
  | s :: ss =>
    (if s.isTogglePair then [] else scopeEntries first s.coverItems) ++
      entriesFrom (first + s.coverItems.length) ss

-- Adds an item to the runs so far, the last one first.
def push : List TypeRun → Nat × ItemValues → List TypeRun
  | [],           (index, values) => [⟨index, 1, values⟩]
  | last :: runs, (index, values) =>
    if last.start + last.length = index ∧ last.values = values then
      { last with length := last.length + 1 } :: runs
    else
      ⟨index, 1, values⟩ :: last :: runs

def write (db : MemUCIS) : Option CoveritemTypes :=
  let runs := ((entriesFrom 0 db.dfsScopeList).foldl push []).reverse
  if runs.isEmpty then none else some runs

-- The runs are in the order of the items, so the first that ends after an item is the one to look
-- at.
def valuesAt (runs : CoveritemTypes) (index : Nat) : Option ItemValues :=
  match runs.find? fun run => index < run.start + run.length with
  | none     => none
  | some run => if run.start ≤ index then some run.values else none

-- The flags fall back to the default when the type changes.
def setValues (values : ItemValues) (ci : CoverIndex) : CoverIndex :=
  { ci with data := { ci.data with
    flags   := if ci.data.type = values.type then ci.data.flags else defaultFlags values.type
    type    := values.type
    atLeast := values.atLeast
    goal    := values.goal
  } }

def apply (runs : CoveritemTypes) (db : MemUCIS) : MemUCIS :=
  db.mapLooseItems fun index ci =>
    match runs.valuesAt index with
    | none        => ci
    | some values => setValues values ci

end CoveritemTypes

-- The source locations of the items that have a file.
abbrev CoveritemSources := Dict Nat SourceRef

namespace CoveritemSources

def looseItemsFrom (first : Nat) : List Scope → List (CoverIndex × Nat)
  | []      => []
  | s :: ss =>
    (if s.isTogglePair then [] else s.coverItems.zipIdx first) ++
      looseItemsFrom (first + s.coverItems.length) ss

-- The files are numbered on from the ones of the scope tree.
def writeEntries (w : ScopeTreeWriter) :
    List (CoverIndex × Nat) → List (Nat × SourceRef) × ScopeTreeWriter
  | []                   => ([], w)
  | (ci, index) :: items =>
    match ci.srcinfo with
    | none         => writeEntries w items
    | some srcinfo =>
      match srcinfo.file with
      | none      => writeEntries w items
      | some file =>
        let (fileId, w) := w.getFileId file
        let (entries, w) := writeEntries w items
        ((index, ⟨fileId, srcinfo.line.toNat, srcinfo.token.toNat⟩) :: entries, w)

def write (w : ScopeTreeWriter) (db : MemUCIS) : Option CoveritemSources × ScopeTreeWriter :=
  let (entries, w) := writeEntries w (looseItemsFrom 0 db.dfsScopeList)
  (if entries.isEmpty then none else some (Dict.ofList entries), w)

def apply (sources : CoveritemSources) (files : List String) (db : MemUCIS) : MemUCIS :=
  db.mapLooseItems fun index ci =>
    match sources.get? index with
    | none     => ci
    | some ref =>
      match files[ref.fileId]? with
      | none      => ci
      | some file => { ci with srcinfo := some ⟨some file, ref.line, ref.token⟩ }

end CoveritemSources

-- The members that store attributes, tags, crossed coverpoints, formal results and the
-- contributions of single tests.

-- Attributes of scopes, items, history nodes and the database. An item is told by its scope and its
-- position there, a history node by its position among those of its kind; a node without a kind
-- counts as a test.
structure Attrs where
  scopes     : List (Nat × Dict String String) := []
  coveritems : List ((Nat × Nat) × Dict String String) := []
  history    : List ((Option HistoryNodeKind × Nat) × Dict String String) := []
  global     : Dict String String := ∅
  deriving DecidableEq

namespace Attrs

-- The attributes that are not empty, each with a key.
def entriesOf {κ : Type} (xs : List (Dict String String × κ)) : List (κ × Dict String String) :=
  xs.filterMap fun (attrs, key) => if attrs.entries.isEmpty then none else some (key, attrs)

def isEmpty (a : Attrs) : Bool :=
  a.scopes.isEmpty ∧ a.coveritems.isEmpty ∧ a.history.isEmpty ∧ a.global.entries.isEmpty

def ofDb (db : MemUCIS) : Attrs where
  scopes     := entriesOf <| (db.dfsScopeList.map (·.data.attributes)).zipIdx
  coveritems := db.dfsScopeList.zipIdx.flatMap fun (s, i) =>
    entriesOf <| s.coverItems.zipIdx.map fun (ci, j) => (ci.attributes, (i, j))
  history    := [.test, .merge].flatMap fun kind =>
    entriesOf <| (historyNodesOf db.historyNodes kind).zipIdx.map fun (hn, i) =>
      (hn.attributes, (some kind, i))
  global     := db.attributes

def write (db : MemUCIS) : Option Attrs :=
  if (ofDb db).isEmpty then none else some (ofDb db)

-- What the entries of a key set, one after the other, on top of some attributes.
def setAll {κ : Type} [DecidableEq κ] (entries : List (κ × Dict String String)) (key : κ)
    (attrs : Dict String String) : Dict String String :=
  entries.foldl (fun attrs e => if e.fst = key then attrs.update e.snd else attrs) attrs

-- Rewriting the nodes of a kind by their position among them.
def mapOfKind (kind : HistoryNodeKind) (f : Nat → HistoryNode → HistoryNode) :
    (i : Nat) → List HistoryNode → List HistoryNode
  | _, []        => []
  | i, hn :: hns =>
    if hn.kind = some kind then
      f i hn :: mapOfKind kind f (i + 1) hns
    else
      hn :: mapOfKind kind f i hns

def applyHistory (a : Attrs) (nodes : List HistoryNode) : List HistoryNode :=
  let entries := a.history.map fun e => ((e.fst.fst.getD .test, e.fst.snd), e.snd)
  [.test, .merge].foldl (fun nodes kind =>
    mapOfKind kind (fun i hn =>
      { hn with attributes := setAll entries (kind, i) hn.attributes }) 0 nodes) nodes

def apply (a : Attrs) (db : MemUCIS) : MemUCIS :=
  let db := db.mapScopeData fun i d => { d with attributes := setAll a.scopes i d.attributes }
  let db := db.mapScopeItems fun i _ s => s.coverItems.mapIdx fun j ci =>
    { ci with attributes := setAll a.coveritems (i, j) ci.attributes }
  { db with
    historyNodes := a.applyHistory db.historyNodes
    attributes   := db.attributes.update a.global
  }

end Attrs

-- The tags of the scopes that have any.
abbrev Tags := List (Nat × List String)

namespace Tags

def write (db : MemUCIS) : Option Tags :=
  let entries := (db.dfsScopeList.map (·.data.tags)).zipIdx.filterMap fun (tags, i) =>
    if tags.isEmpty then none else some (i, tags)
  if entries.isEmpty then none else some entries

def addTag (tags : List String) (tag : String) : List String :=
  if tag ∈ tags then tags else tags ++ [tag]

def apply (entries : Tags) (db : MemUCIS) : MemUCIS :=
  db.mapScopeData fun i d => { d with
    tags := entries.foldl (fun tags e => if e.fst = i then e.snd.foldl addTag tags else tags) d.tags
  }

end Tags

-- The names of the crossed coverpoints of the crosses that have any.
abbrev Crosses := List (Nat × List String)

namespace Crosses

def write (db : MemUCIS) : Option Crosses :=
  let entries := db.dfsScopeList.zipIdx.filterMap fun (s, i) =>
    if s.type = .cross ∧ ¬s.data.crossed.isEmpty then some (i, s.data.crossed) else none
  if entries.isEmpty then none else some entries

-- A name is resolved among the siblings; below an instance a cross has no list of coverpoints.
def crossedOf (entries : Crosses) (parent : Option ScopeTypeT) (siblings : List Scope) (i : Nat)
    (d : ScopeData) : List String :=
  entries.foldl (fun crossed (index, names) =>
    if index = i ∧ d.type = .cross ∧ ¬names.isEmpty ∧ parent ≠ some .instanceScope then
      names.filter fun name => siblings.any (·.name = name)
    else
      crossed) d.crossed

def apply (entries : Crosses) (db : MemUCIS) : MemUCIS :=
  { db with
    scopes := Scope.rewriteAll (fun parent siblings i _ s =>
      ({ s.data with crossed := entries.crossedOf parent siblings i s.data }, s.coverItems))
      none db.scopes 0 0 db.scopes
  }

end Crosses

-- The formal results that differ from the default.
abbrev FormalResults := Dict Nat FormalData

namespace FormalResults

-- A status or radius of zero is not stored.
def normalize (fd : FormalData) : FormalData where
  status  := fd.status.filter (· ≠ 0)
  radius  := fd.radius.filter (· ≠ 0)
  witness := fd.witness

def write (db : MemUCIS) : Option FormalResults :=
  let entries := db.formalData.entries.filterMap fun (index, fd) =>
    if normalize fd = {} then none else some (index, normalize fd)
  if entries.isEmpty then none else some (Dict.ofList entries)

def apply (results : FormalResults) (db : MemUCIS) : MemUCIS :=
  results.entries.foldl (fun db (index, fd) => db.setFormalData index fd) db

end FormalResults

-- The hits that each history node contributed to each bin, one member for each node.
abbrev Contributions := Dict Nat (Dict Nat Nat)

namespace Contributions

def write (db : MemUCIS) : Contributions :=
  Dict.ofList <| db.perTestData.entries.filter fun (_, binCounts) => ¬binCounts.entries.isEmpty

def apply (members : Contributions) (db : MemUCIS) : MemUCIS :=
  members.entries.foldl (fun db (historyIdx, binCounts) =>
    binCounts.entries.foldl (fun db (binIndex, count) =>
      db.recordTestAssociation historyIdx binIndex count) db) db

end Contributions
