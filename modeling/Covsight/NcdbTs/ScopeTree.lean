import Covsight.Lib.JsValue
import Covsight.Ncdb.CountsCodec

-- The TypeScript library: its databases, as far as scopes and items go, and how it writes and reads
-- the scope tree. The format is that of the Python library. Fields of an enumeration have its
-- values; other numbers are those of JavaScript.

structure TsFileHandle where
  fileId   : JsNumber
  filePath : String
  deriving DecidableEq

structure TsSourceInfo where
  fileId : JsNumber
  line   : JsNumber
  token  : JsNumber := .zero
  deriving DecidableEq

structure TsScopeData where
  scopeType   : ScopeTypeT
  logicalName : JsString
  fileHandle  : Option TsFileHandle := none
  sourceInfo  : Option TsSourceInfo := none
  flags       : JsNumber := .zero
  weight      : JsNumber := .one
  goal        : JsNumber := .minusOne
  sourceType  : SourceT := .none
  deriving DecidableEq

structure TsCoverItem where
  coverType : CoverTypeT
  name      : JsString
  count     : Int := 0
  atLeast   : Int := 1
  deriving DecidableEq

inductive TsScope
  | mk (data : TsScopeData) (items : List TsCoverItem) (children : List TsScope)

namespace TsScope

def data : TsScope → TsScopeData
  | mk d _ _ => d

def items : TsScope → List TsCoverItem
  | mk _ is _ => is

def children : TsScope → List TsScope
  | mk _ _ ss => ss

def isTogglePair (s : TsScope) : Bool :=
  s.data.scopeType = .branch ∧ s.children.length = 0 ∧ s.items.length = 2 ∧
    (∃ item ∈ s.items, item.name = .ofString toggleBin0To1) ∧
    (∃ item ∈ s.items, item.name = .ofString toggleBin1To0)

end TsScope

-- A handle is told by its position in the table of the paths.
structure TsUCIS where
  filePaths : List String
  children  : List TsScope

-- Bigints are numbers of any size; only whole numbers are turned into one, and only those that are
-- not negative are written.

def writeBigInt (n : Int) : Option Nat :=
  if n < 0 then none else some n.toNat

def writeNumber (x : JsNumber) : Option Nat :=
  x.toInt.bind writeBigInt

def writeUnless {α : Type} [DecidableEq α] (default : α) (write : α → Option Nat) (x : α) :
    Option (Option Nat) :=
  if x = default then some none else (write x).map some

-- The lowest 32 bits, without and with a sign.

def asUintN32 (n : Int) : Nat :=
  (n % 2 ^ 32).toNat

def asIntN32 (n : Nat) : Int :=
  ((n : Int) + 2 ^ 31) % 2 ^ 32 - 2 ^ 31

structure TsScopeTreeWriter where
  strings : List JsString := [[]]
  counts  : List Int := []

namespace TsScopeTreeWriter

def internString (w : TsScopeTreeWriter) (s : JsString) : Nat × TsScopeTreeWriter :=
  let (ref, strings) := intern w.strings s
  (ref, { w with strings := strings })

def pushCounts (w : TsScopeTreeWriter) (counts : List Int) : TsScopeTreeWriter :=
  { w with counts := w.counts ++ counts }

def writeItems (w : TsScopeTreeWriter) : List TsCoverItem → List Nat × TsScopeTreeWriter
  | []            => ([], w)
  | item :: items =>
    let (ref, w) := w.internString item.name
    let (refs, w) := (w.pushCounts [item.count]).writeItems items
    (ref :: refs, w)

-- The count of the first item of some name.
def countNamed (items : List TsCoverItem) (name : String) : Int :=
  ((items.find? (·.name = .ofString name)).map (·.count)).getD 0

def writeTogglePair (w : TsScopeTreeWriter) (s : TsScope) : ScopeRecord × TsScopeTreeWriter :=
  let (ref, w) := w.internString s.data.logicalName
  (.togglePair ref,
    w.pushCounts [countNamed s.items toggleBin0To1, countNamed s.items toggleBin1To0])

-- The presence of an overriding value is told by the first item.
def atLeastOverride : List TsCoverItem → Option (Option Nat)
  | []        => some none
  | item :: _ => writeUnless (defaultAtLeast item.coverType : Int) writeBigInt item.atLeast

-- A location is stored with its file; the number of the file is that of the handle.
def writeSource : Option TsFileHandle → Option TsSourceInfo → Option (Option SourceRef)
  | some handle, some info => do
    let fileId ← writeNumber handle.fileId
    let line ← writeNumber info.line
    let token ← writeNumber info.token
    return some ⟨fileId, line, token⟩
  | _, _ => some none

def writeHeader (d : TsScopeData) (items : List TsCoverItem) (nameRef : Nat) : Option ScopeHeader := do
  let flags ← writeUnless .zero writeNumber d.flags
  let source ← writeSource d.fileHandle d.sourceInfo
  let weight ← writeUnless .one writeNumber d.weight
  let atLeast ← atLeastOverride items
  let goal ← writeUnless .minusOne (fun goal => goal.toInt.map asUintN32) d.goal
  return {
    type       := d.scopeType
    nameRef    := nameRef
    flags      := flags
    source     := source
    weight     := weight
    atLeast    := atLeast
    goal       := goal
    sourceType := if d.sourceType = .none then none else some d.sourceType
    coverType  := items.head?.map (·.coverType)
  }

mutual

def writeScope (w : TsScopeTreeWriter) : TsScope → Option (ScopeRecord × TsScopeTreeWriter)
  | .mk d items children =>
    if (TsScope.mk d items children).isTogglePair then
      some (w.writeTogglePair (.mk d items children))
    else do
      let (nameRef, w) := w.internString d.logicalName
      let header ← writeHeader d items nameRef
      let (refs, w) := w.writeItems items
      let (records, w) ← w.writeScopes children
      return (.regular header refs records, w)

def writeScopes (w : TsScopeTreeWriter) :
    List TsScope → Option (List ScopeRecord × TsScopeTreeWriter)
  | []      => some ([], w)
  | s :: ss => do
    let (record, w) ← w.writeScope s
    let (records, w) ← w.writeScopes ss
    return (record :: records, w)

end

end TsScopeTreeWriter

-- The members that the scopes are kept in. The strings are stored as text, the paths as they are.
structure ScopeTreeMembers where
  strings   : List String
  files     : List String
  scopeTree : List UInt8
  counts    : List UInt8

def TsUCIS.write (db : TsUCIS) : Option ScopeTreeMembers := do
  let (records, w) ← TsScopeTreeWriter.writeScopes {} db.children
  let counts ← w.counts.mapM writeBigInt
  return {
    strings   := w.strings.map textEncode
    files     := db.filePaths
    scopeTree := ScopeRecord.encodeAll records
    counts    := CountsWriter.serialize counts
  }

-- Numbers of strings and files are taken as they are: tables have fewer entries than 2 ^ 53.
structure TsScopeTreeReader where
  strings : List JsString
  files   : List String

namespace TsScopeTreeReader

def readItems (t : TsScopeTreeReader) (type : CoverTypeT) (atLeast : Nat) :
    List Nat → Counts → Option (List TsCoverItem × Counts)
  | [],          counts => some ([], counts)
  | ref :: refs, counts => do
    let name ← t.strings[ref]?
    let (items, rest) ← t.readItems type atLeast refs counts.tail
    return (⟨type, name, counts.headD 0, atLeast⟩ :: items, rest)

def togglePair (name : JsString) (count0To1 count1To0 : Nat) : TsScope :=
  .mk { scopeType := .branch, logicalName := name } [
    ⟨.toggleBin, .ofString toggleBin0To1, count0To1, 0⟩,
    ⟨.toggleBin, .ofString toggleBin1To0, count1To0, 0⟩
  ] []

-- A path is looked up in the database, which gives each one handle.
def fileHandle (t : TsScopeTreeReader) (fileId : Nat) : Option TsFileHandle :=
  t.files[fileId]?.map fun path => ⟨.ofBigInt ((internAll t.files).idxOf path), path⟩

def scopeData (t : TsScopeTreeReader) (h : ScopeHeader) (name : JsString) : TsScopeData where
  scopeType   := h.type
  logicalName := name
  fileHandle  := h.source.bind fun ref => t.fileHandle ref.fileId
  sourceInfo  := h.source.map fun ref =>
    ⟨.ofBigInt ref.fileId, .ofBigInt ref.line, .ofBigInt ref.token⟩
  flags       := (h.flags.map fun n : Nat => .ofBigInt n).getD .zero
  weight      := (h.weight.map fun n : Nat => .ofBigInt n).getD .one
  goal        := (h.goal.map fun n : Nat => .ofBigInt (asIntN32 n)).getD .minusOne
  sourceType  := h.sourceType.getD .none

def readHeaderItems (t : TsScopeTreeReader) (h : ScopeHeader) (refs : List Nat) (counts : Counts) :
    Option (List TsCoverItem × Counts) :=
  match h.coverType with
  | none      => some ([], counts)
  | some type => t.readItems type (h.atLeast.getD (defaultAtLeast type)) refs counts

mutual

def readScope (t : TsScopeTreeReader) : ScopeRecord → Counts → Option (TsScope × Counts)
  | .togglePair ref, counts => do
    let name ← t.strings[ref]?
    return (togglePair name (counts.getD 0 0) (counts.getD 1 0), counts.drop 2)
  | .regular h refs records, counts => do
    let name ← t.strings[h.nameRef]?
    let (items, counts) ← t.readHeaderItems h refs counts
    let (children, counts) ← t.readScopes records counts
    return (.mk (t.scopeData h name) items children, counts)

def readScopes (t : TsScopeTreeReader) :
    List ScopeRecord → Counts → Option (List TsScope × Counts)
  | [],                counts => some ([], counts)
  | record :: records, counts => do
    let (s, counts) ← t.readScope record counts
    let (ss, counts) ← t.readScopes records counts
    return (s :: ss, counts)

end

-- A record starts with one of the two markers. Types and languages are taken as they are stored;
-- the writers store those of the enumerations only.
def decode : (fuel : Nat) → List UInt8 → Option (ScopeRecord × List UInt8)
  | 0,        _               => none
  | _ + 1,    []              => none
  | fuel + 1, marker :: bytes =>
    if marker = scopeMarkerTogglePair then
      (decodeVarint bytes).map fun (nameRef, bytes) => (.togglePair nameRef, bytes)
    else if marker = scopeMarkerRegular then do
      let (header, bytes) ← ScopeHeader.decode bytes
      let (scopes, bytes) ← decodeVarint bytes
      let (items, bytes) ← decodeVarint bytes
      let (coverType, bytes) ← ScopeRecord.decodeCoverType items bytes
      let (refs, bytes) ← decodeMany decodeVarint items bytes
      let (records, bytes) ← decodeMany (decode fuel) scopes bytes
      return (.regular { header with coverType } refs records, bytes)
    else
      none

end TsScopeTreeReader

-- The counts come out one by one, in either mode.
def TsCountsReader.decode : List UInt8 → Option Counts
  | []            => some []
  | mode :: bytes => do
    let (count, bytes) ← decodeVarint bytes
    if mode = countsModeVarint then
      (decodeMany decodeVarint count bytes).map (·.fst)
    else if mode = countsModeUint32 then
      (decodeMany decodeUint32 count bytes).map (·.fst)
    else
      none

-- The strings are interned again when they are read.
def ScopeTreeMembers.readTs (m : ScopeTreeMembers) : Option (List TsScope) := do
  let counts ← TsCountsReader.decode m.counts
  let records ← decodeAll (TsScopeTreeReader.decode m.scopeTree.length) m.scopeTree.length m.scopeTree
  let t : TsScopeTreeReader := ⟨internAll (m.strings.map textDecode), m.files⟩
  let (scopes, _) ← t.readScopes records counts
  return scopes

def ScopeTreeMembers.readPython (m : ScopeTreeMembers) : Option (List Scope) := do
  let counts ← CountsReader.deserialize m.counts
  ScopeTreeReader.read ⟨internAll m.strings, m.files⟩ m.scopeTree counts

def ScopeTreeMembers.writePython (scopes : List Scope) : Option ScopeTreeMembers := do
  let (data, w) ← ScopeTreeWriter.write scopes
  return {
    strings   := w.strings
    files     := w.files
    scopeTree := data
    counts    := CountsWriter.serialize w.counts
  }

-- What the two libraries have in common of a tree: of a scope its type, name, flags, weight, goal,
-- source language and location, of an item its name, type, at_least and count.

structure ItemView where
  name    : JsString
  type    : CoverTypeT
  atLeast : Int
  count   : Int
  deriving DecidableEq

-- A number that is not whole is no value of the Python library.
structure ScopeView where
  type       : ScopeTypeT
  name       : JsString
  flags      : Option Int
  weight     : Option Int
  goal       : Option Int
  sourceType : SourceT
  source     : Option (Option String × Option Int × Option Int)
  deriving DecidableEq

inductive TreeView
  | mk (scope : ScopeView) (items : List ItemView) (scopes : List TreeView)

-- Where there is no location, the Python library has one without a file and with the line -1.
def SourceInfo.view (si : SourceInfo) : Option (Option String × Option Int × Option Int) :=
  if si = ⟨none, -1, -1⟩ then none else some (si.file, si.line, si.token)

def CoverIndex.view (ci : CoverIndex) : ItemView where
  name    := .ofString ci.name
  type    := ci.data.type
  atLeast := ci.data.atLeast
  count   := ci.data.data

def ScopeData.view (d : ScopeData) : ScopeView where
  type       := d.type
  name       := .ofString d.name
  flags      := (d.flags : Int)
  weight     := d.weight
  goal       := d.goal
  sourceType := d.source
  source     := d.srcinfo.view

namespace Scope

mutual

def view : Scope → TreeView
  | mk d is ss => .mk d.view (is.map (·.view)) (viewAll ss)

def viewAll : List Scope → List TreeView
  | []      => []
  | s :: ss => s.view :: viewAll ss

end

end Scope

def TsCoverItem.view (item : TsCoverItem) : ItemView where
  name    := item.name
  type    := item.coverType
  atLeast := item.atLeast
  count   := item.count

-- Either of the file and the place in it may be missing.
def TsScopeData.sourceView (d : TsScopeData) : Option (Option String × Option Int × Option Int) :=
  match d.fileHandle, d.sourceInfo with
  | none,        none      => none
  | some handle, none      => some (handle.filePath, none, none)
  | handle,      some info => some (handle.map (·.filePath), info.line.toInt, info.token.toInt)

def TsScopeData.view (d : TsScopeData) : ScopeView where
  type       := d.scopeType
  name       := d.logicalName
  flags      := d.flags.toInt
  weight     := d.weight.toInt
  goal       := d.goal.toInt
  sourceType := d.sourceType
  source     := d.sourceView

namespace TsScope

mutual

def view : TsScope → TreeView
  | mk d is ss => .mk d.view (is.map (·.view)) (viewAll ss)

def viewAll : List TsScope → List TreeView
  | []      => []
  | s :: ss => s.view :: viewAll ss

end

end TsScope

namespace TreeView

def type : TreeView → ScopeTypeT
  | mk scope _ _ => scope.type

end TreeView

theorem Scope.viewAll_eq_map (ss : List Scope) : viewAll ss = ss.map view := by
  induction ss
  case nil          => rfl
  case cons s ss hi => rw [viewAll, hi, List.map_cons]

theorem TsScope.viewAll_eq_map (ss : List TsScope) : viewAll ss = ss.map view := by
  induction ss
  case nil          => rfl
  case cons s ss hi => rw [viewAll, hi, List.map_cons]

@[simp]
theorem Scope.view_type (s : Scope) : s.view.type = s.type := by
  obtain ⟨_, _, _⟩ := s
  rfl

@[simp]
theorem TsScope.view_type (s : TsScope) : s.view.type = s.data.scopeType := by
  have ⟨_, _, _⟩ := s
  rfl
