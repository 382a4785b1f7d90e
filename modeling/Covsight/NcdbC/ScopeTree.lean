import Covsight.Lib.Interning
import Covsight.NcdbC.ScopeTreeCodec
import Mathlib.Tactic.Common

-- The database of the C library. A pointer to a scope is the position of the scope in the
-- depth-first order of the database it is used with; a position past the last scope points
-- elsewhere. Floating point numbers are kept as their bits.

def ncdbScopeBranch : UInt64 := 0x2

-- Any of the design unit types.
def ncdbDuTypeMask : UInt64 := 0x1F000000

def ncdbCoverCvgBin : UInt64 := 0x1
def ncdbCoverToggleBin : UInt64 := 0x200

def ncdbSourceNone : Int32 := 10

def ncdbHistoryNone : UInt32 := -1
def ncdbHistoryAll : UInt32 := 0
def ncdbHistoryTest : UInt32 := 1
def ncdbHistoryMerge : UInt32 := 2

def ncdbToggleBin0To1 : String := "0 -> 1"
def ncdbToggleBin1To0 : String := "1 -> 0"

-- A location, where there is one: its file, line and token are set together.
structure NcdbSource where
  path  : String
  line  : UInt64
  token : UInt64
  deriving DecidableEq, Repr

-- Numeric-keyed properties. A table has at most one entry for a key.

inductive NcdbPropValue
  | int32 (v : Int32)
  | int64 (v : Int64)
  | double (bits : UInt64)
  | string (s : String)
  deriving DecidableEq

structure NcdbProp where
  propId : UInt16
  value  : NcdbPropValue
  deriving DecidableEq

-- Setting replaces the entry of the key, or adds one at the end.
def propTableSet (table : List NcdbProp) (p : NcdbProp) : List NcdbProp :=
  if table.any (·.propId = p.propId) then
    table.map fun e => if e.propId = p.propId then p else e
  else
    table ++ [p]

-- Attributes are keyed by a string.

inductive NcdbAttrValue
  | int32 (v : Int32)
  | int64 (v : Int64)
  | float (bits : UInt32)
  | double (bits : UInt64)
  | string (s : String)
  | bytes (blob : List UInt8)
  deriving DecidableEq

structure NcdbAttr where
  key   : String
  value : NcdbAttrValue
  deriving DecidableEq

def attrTableSet (table : List NcdbAttr) (a : NcdbAttr) : List NcdbAttr :=
  if table.any (·.key = a.key) then
    table.map fun e => if e.key = a.key then a else e
  else
    table ++ [a]

-- A cover is associated with tests by their slots, in ascending order.
structure NcdbCover where
  type    : UInt64
  name    : String
  count   : UInt64 := 0
  flags   : UInt32
  atLeast : UInt64
  source  : Option NcdbSource := none
  weight  : UInt64 := 0
  goal    : Int64 := -1
  comment : Option String := none
  attrs   : List NcdbAttr := []
  props   : List NcdbProp := []
  assoc   : List Nat := []
  deriving DecidableEq

def coverDefaultFlags (type : UInt64) : UInt32 :=
  if type = ncdbCoverCvgBin then 0x19 else 0x01

def coverDefaultAtLeast (type : UInt64) : UInt64 :=
  if type = ncdbCoverCvgBin then 1 else 0

-- A cover as it is created.
def NcdbCover.create (type : UInt64) (name : String) (count : UInt64) : NcdbCover where
  type    := type
  name    := name
  count   := count
  flags   := coverDefaultFlags type
  atLeast := coverDefaultAtLeast type

structure NcdbScopeData where
  type        : UInt64
  name        : String
  flags       : UInt64 := 0
  sourceType  : Int32 := ncdbSourceNone
  weight      : UInt64 := 1
  goal        : Int64 := -1
  source      : Option NcdbSource := none
  duScope     : Option Nat := none
  duSignature : Option String := none
  exprTerms   : Option String := none
  duFiles     : List UInt32 := []
  attrs       : List NcdbAttr := []
  props       : List NcdbProp := []
  deriving DecidableEq

inductive NcdbScope
  | mk (data : NcdbScopeData) (covers : List NcdbCover) (children : List NcdbScope)

namespace NcdbScope

def data : NcdbScope → NcdbScopeData
  | mk d _ _ => d

def covers : NcdbScope → List NcdbCover
  | mk _ cs _ => cs

def children : NcdbScope → List NcdbScope
  | mk _ _ ss => ss

mutual

-- The scopes of a tree in depth-first order.
def dfs : NcdbScope → List NcdbScope
  | mk d cs ss => mk d cs ss :: dfsAll ss

def dfsAll : List NcdbScope → List NcdbScope
  | []      => []
  | s :: ss => s.dfs ++ dfsAll ss

end

end NcdbScope

structure NcdbHistoryNode where
  kind  : UInt32
  attrs : List NcdbAttr := []
  deriving DecidableEq

structure Ncdb where
  roots        : List NcdbScope := []
  sources      : List String := []
  attrs        : List NcdbAttr := []
  historyNodes : List NcdbHistoryNode := []

namespace Ncdb

-- The scopes in the order that scope pointers count.
def dfsFlatten (db : Ncdb) : List NcdbScope :=
  NcdbScope.dfsAll db.roots

-- Looking for the target of a pointer.
def scopeDfsIndex (db : Ncdb) (target : Nat) : Option Nat :=
  if target < db.dfsFlatten.length then some target else none

end Ncdb

-- Writing the scope tree stream of the C library, and reading it back.

namespace NcdbScope

-- A branch scope without children whose two covers are the two transitions of a bit.
def isTogglePair (s : NcdbScope) : Bool :=
  s.data.type = ncdbScopeBranch && s.children.isEmpty && s.covers.length = 2 &&
  s.covers.all (·.type = ncdbCoverToggleBin) &&
  s.covers.any (·.name = ncdbToggleBin0To1) && s.covers.any (·.name = ncdbToggleBin1To0)

end NcdbScope

-- The tables that a stream refers to. Numbers of entries are non-negative `int`s.
structure NcdbTables where
  strings : List String
  sources : List String

def intLimit : Nat := 2 ^ 31

structure NcdbWriter extends NcdbTables where
  counts : List UInt64 := []

namespace NcdbWriter

def addString (w : NcdbWriter) (s : String) : Option (UInt64 × NcdbWriter) :=
  let (ref, strings) := intern w.strings s
  if ref < intLimit then some (UInt64.ofNat ref, { w with strings := strings }) else none

def getSourceId (w : NcdbWriter) (path : String) : Option (UInt64 × NcdbWriter) :=
  let (sourceId, sources) := intern w.sources path
  if sourceId < intLimit then some (UInt64.ofNat sourceId, { w with sources := sources }) else none

def appendCount (w : NcdbWriter) (count : UInt64) : NcdbWriter :=
  { w with counts := w.counts ++ [count] }

-- A string that is missing or empty is not stored.
def addNonempty (w : NcdbWriter) : Option String → Option (Option UInt64 × NcdbWriter)
  | none   => some (none, w)
  | some s =>
    if s = "" then some (none, w) else (w.addString s).map fun (ref, w) => (some ref, w)

def addSource (w : NcdbWriter) : Option NcdbSource → Option (Option NcdbSourceRef × NcdbWriter)
  | none     => some (none, w)
  | some src =>
    (w.getSourceId src.path).map fun (sourceId, w) => (some ⟨sourceId, src.line, src.token⟩, w)

def addPropValue (w : NcdbWriter) : NcdbPropValue → Option (NcdbPropPayload × NcdbWriter)
  | .int32 v     => some (.int32 (UInt64.ofNat (zigzag v.toInt)), w)
  | .int64 v     => some (.int64 (UInt64.ofNat (zigzag v.toInt)), w)
  | .double bits => some (.double bits, w)
  | .string s    => (w.addString s).map fun (ref, w) => (.string ref, w)

def addProps (w : NcdbWriter) : List NcdbProp → Option (List NcdbPropRecord × NcdbWriter)
  | []      => some ([], w)
  | p :: ps => do
    let (payload, w) ← w.addPropValue p.value
    let (records, w) ← w.addProps ps
    return (⟨p.propId.toUInt64, payload⟩ :: records, w)

-- A table without entries is not stored.
def addPropTable (w : NcdbWriter) (ps : List NcdbProp) :
    Option (Option (List NcdbPropRecord) × NcdbWriter) :=
  if ps = [] then some (none, w) else (w.addProps ps).map fun (records, w) => (some records, w)

-- A number that is stored unless it has its default value.
def unlessDefault {α : Type} [DecidableEq α] (default v : α) : Option α :=
  if v = default then none else some v

end NcdbWriter

-- A cover with anything that its name, its count and the type of the covers do not tell.
def NcdbCover.isExtended (c : NcdbCover) : Bool :=
  c.source.isSome || c.weight ≠ 0 || c.goal ≠ -1 || c.comment.isSome || c.props ≠ [] ||
  c.atLeast ≠ coverDefaultAtLeast c.type

-- The at_least of the first cover, where it is not the default of its type.
def atLeastOverride (covers : List NcdbCover) : Option UInt64 :=
  covers.head?.bind fun c => NcdbWriter.unlessDefault (coverDefaultAtLeast c.type) c.atLeast

namespace NcdbWriter

def writeToggleCounts (w : NcdbWriter) (covers : List NcdbCover) : NcdbWriter :=
  let countNamed (name : String) : UInt64 := ((covers.find? (·.name = name)).map (·.count)).getD 0
  (w.appendCount (countNamed ncdbToggleBin0To1)).appendCount (countNamed ncdbToggleBin1To0)

def writeHeader (db : Ncdb) (w : NcdbWriter) (d : NcdbScopeData) (covers : List NcdbCover) :
    Option (NcdbScopeHeader × NcdbWriter) := do
  let (nameRef, w) ← w.addString d.name
  let (source, w) ← w.addSource d.source
  let duLink ← d.duScope.mapM db.scopeDfsIndex
  let (duSig, w) ← w.addNonempty d.duSignature
  let (exprTerms, w) ← w.addNonempty d.exprTerms
  let (props, w) ← w.addPropTable d.props
  return ({
    type       := d.type
    nameRef    := nameRef
    flags      := unlessDefault 0 d.flags
    source     := source
    weight     := unlessDefault 1 d.weight
    atLeast    := atLeastOverride covers
    goal       := (unlessDefault (-1) d.goal).map (·.toUInt64)
    sourceType := (unlessDefault ncdbSourceNone d.sourceType).map (·.toInt64.toUInt64)
    duLink     := duLink.map UInt64.ofNat
    duSig      := duSig
    exprTerms  := exprTerms
    duFiles    := if d.duFiles = [] then none else some (d.duFiles.map (·.toUInt64))
    props      := props
    extCovers  := covers.any (·.isExtended)
  }, w)

def writeCoverExt (w : NcdbWriter) (nameRef : UInt64) (c : NcdbCover) :
    Option (NcdbCoverRecord × NcdbWriter) := do
  let (source, w) ← w.addSource c.source
  let (comment, w) ← w.addNonempty c.comment
  let (props, w) ← w.addPropTable c.props
  return ({
    nameRef := nameRef
    source  := source
    weight  := unlessDefault 0 c.weight
    goal    := (unlessDefault (-1) c.goal).map (·.toUInt64)
    comment := comment
    atLeast := unlessDefault (coverDefaultAtLeast c.type) c.atLeast
    props   := props
  }, w)

def writeCovers (w : NcdbWriter) (ext : Bool) :
    List NcdbCover → Option (List NcdbCoverRecord × NcdbWriter)
  | []      => some ([], w)
  | c :: cs => do
    let (nameRef, w) ← w.addString c.name
    let w := w.appendCount c.count
    let (record, w) ← (if ext then w.writeCoverExt nameRef c else some ({ nameRef }, w))
    let (records, w) ← w.writeCovers ext cs
    return (record :: records, w)

mutual

def writeScope (db : Ncdb) (w : NcdbWriter) : NcdbScope → Option (NcdbScopeRecord × NcdbWriter)
  | .mk d cs ss =>
    if (NcdbScope.mk d cs ss).isTogglePair then
      (w.addString d.name).map fun (nameRef, w) => (.togglePair nameRef, w.writeToggleCounts cs)
    else do
      let (header, w) ← w.writeHeader db d cs
      let (covers, w) ← w.writeCovers header.extCovers cs
      let (children, w) ← w.writeScopes db ss
      return (.regular header (cs.head?.map (·.type)) covers children, w)

def writeScopes (db : Ncdb) (w : NcdbWriter) :
    List NcdbScope → Option (List NcdbScopeRecord × NcdbWriter)
  | []      => some ([], w)
  | s :: ss => do
    let (record, w) ← w.writeScope db s
    let (records, w) ← w.writeScopes db ss
    return (record :: records, w)

end

end NcdbWriter

namespace Ncdb

-- The design units with their positions.
def collectDus (db : Ncdb) : List (String × Nat) :=
  db.dfsFlatten.zipIdx.filterMap fun (s, n) =>
    if s.data.type &&& ncdbDuTypeMask ≠ 0 then some (s.data.name, n) else none

end Ncdb

namespace NcdbWriter

-- A failure to add a name is not noticed.
def addDuNames (w : NcdbWriter) : List (String × Nat) → List (UInt64 × String × Nat) × NcdbWriter
  | []                => ([], w)
  | (name, dfs) :: dus =>
    let (nameIdx, w) := (w.addString name).getD (-1, w)
    let (entries, w) := w.addDuNames dus
    ((nameIdx, name, dfs) :: entries, w)

-- Nothing is appended to a tree without design units. The order of equal names is not specified.
def writeScopeTrailer (db : Ncdb) (w : NcdbWriter) (offset : Nat) : List UInt8 × NcdbWriter :=
  let dus := db.collectDus
  if dus = [] then
    ([], w)
  else
    let (entries, w) := w.addDuNames dus
    let sorted := entries.mergeSort fun a b => decide (a.2.1 ≤ b.2.1)
    (encodeTrailer offset (sorted.map fun (nameIdx, _, dfs) => (nameIdx, UInt64.ofNat dfs)), w)

end NcdbWriter

-- The stream with the counts and the tables that go with it.
structure NcdbScopeTree extends NcdbWriter where
  data : List UInt8

-- The size of a buffer is a 64-bit number; there is no memory for more.
def sizeLimit : Nat := 2 ^ 64

namespace Ncdb

def scopeTreeSerialize (db : Ncdb) (strings : List String) : Option NcdbScopeTree := do
  let (records, w) ← NcdbWriter.writeScopes db ⟨⟨strings, db.sources⟩, []⟩ db.roots
  let main := NcdbScopeRecord.encodeAll records
  let (trailer, w) := w.writeScopeTrailer db main.length
  let data := main ++ trailer
  if data.length < sizeLimit then some { w with data := data } else none

end Ncdb

namespace NcdbTables

-- A number past the table gives the empty string.
def stringsGet (t : NcdbTables) (ref : UInt64) : String :=
  t.strings[ref.toNat]?.getD ""

-- A location is only kept if its file is known.
def readSource (t : NcdbTables) (ref : NcdbSourceRef) : Option NcdbSource :=
  t.sources[ref.sourceId.toNat]?.map fun path => ⟨path, ref.line, ref.token⟩

def readPropValue (t : NcdbTables) : NcdbPropPayload → NcdbPropValue
  | .int32 v     => .int32 (Int64.ofInt (unzigzag v.toNat)).toInt32
  | .int64 v     => .int64 (Int64.ofInt (unzigzag v.toNat))
  | .double bits => .double bits
  | .string ref  => .string (t.stringsGet ref)

def readProps (t : NcdbTables) (records : List NcdbPropRecord) : List NcdbProp :=
  records.foldl (fun table p => propTableSet table ⟨p.propId.toUInt16, t.readPropValue p.payload⟩) []

def readCover (t : NcdbTables) (type atLeast count : UInt64) (c : NcdbCoverRecord) : NcdbCover where
  type    := type
  name    := t.stringsGet c.nameRef
  count   := count
  flags   := coverDefaultFlags type
  atLeast := c.atLeast.getD atLeast
  source  := c.source.bind t.readSource
  weight  := c.weight.getD 0
  goal    := (c.goal.map (·.toInt64)).getD (-1)
  comment := c.comment.map t.stringsGet
  props   := (c.props.map t.readProps).getD []

-- Counts are taken one by one; when they have run out the count is zero.
def readCovers (t : NcdbTables) (type atLeast : UInt64) :
    List NcdbCoverRecord → (counts : List UInt64) → List NcdbCover × List UInt64
  | [],      counts => ([], counts)
  | c :: cs, counts =>
    let (covers, rest) := t.readCovers type atLeast cs counts.tail
    (t.readCover type atLeast (counts.headD 0) c :: covers, rest)

-- The link to a design unit is resolved when all scopes are there.
def readHeader (t : NcdbTables) (h : NcdbScopeHeader) : NcdbScopeData where
  type        := h.type
  name        := t.stringsGet h.nameRef
  flags       := h.flags.getD 0
  sourceType  := (h.sourceType.map (·.toInt64.toInt32)).getD ncdbSourceNone
  weight      := h.weight.getD 1
  goal        := (h.goal.map (·.toInt64)).getD (-1)
  source      := h.source.bind t.readSource
  duScope     := h.duLink.map (·.toNat)
  duSignature := h.duSig.map t.stringsGet
  exprTerms   := h.exprTerms.map t.stringsGet
  duFiles     := (h.duFiles.map (·.map (·.toUInt32))).getD []
  props       := (h.props.map t.readProps).getD []

def readTogglePair (name : String) (count01 count10 : UInt64) : NcdbScope :=
  .mk { type := ncdbScopeBranch, name := name } [
    .create ncdbCoverToggleBin ncdbToggleBin0To1 count01,
    .create ncdbCoverToggleBin ncdbToggleBin1To0 count10
  ] []

mutual

-- The covers of a scope have one type, so that none of them goes into a sub-scope of its own.
def readScope (t : NcdbTables) :
    NcdbScopeRecord → (counts : List UInt64) → NcdbScope × List UInt64
  | .togglePair nameRef, counts =>
    (readTogglePair (t.stringsGet nameRef) (counts.getD 0 0) (counts.getD 1 0), counts.drop 2)
  | .regular h coverType cs records, counts =>
    let type := coverType.getD 0
    let (covers, counts) := t.readCovers type (h.atLeast.getD (coverDefaultAtLeast type)) cs counts
    let (children, counts) := t.readScopes records counts
    (.mk (t.readHeader h) covers children, counts)

def readScopes (t : NcdbTables) :
    List NcdbScopeRecord → (counts : List UInt64) → List NcdbScope × List UInt64
  | [],                counts => ([], counts)
  | record :: records, counts =>
    let (s, counts) := t.readScope record counts
    let (ss, counts) := t.readScopes records counts
    (s :: ss, counts)

end

end NcdbTables

namespace NcdbScope

mutual

-- A link to a position past the last scope is dropped.
def resolveDuLinks (total : Nat) : NcdbScope → NcdbScope
  | mk d cs ss => mk { d with duScope := d.duScope.filter (· < total) } cs (resolveAll total ss)

def resolveAll (total : Nat) : List NcdbScope → List NcdbScope
  | []      => []
  | s :: ss => s.resolveDuLinks total :: resolveAll total ss

end

end NcdbScope

-- The index of design units in the trailer is not looked at here.
def scopeTreeDeserialize (t : NcdbTables) (data : List UInt8) (counts : List UInt64) :
    Option (List NcdbScope) := do
  let main := data.take ((trailerOffset data).getD data.length)
  let records ← decodeAll (NcdbScopeRecord.decode data.length) data.length main
  let (roots, _) := t.readScopes records counts
  return NcdbScope.resolveAll (NcdbScope.dfsAll roots).length roots
