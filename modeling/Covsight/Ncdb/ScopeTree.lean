import Covsight.Ncdb.MergeOps
import Covsight.Lib.Interning

-- The scope tree member: one record for each scope, in depth-first order, with the names kept in a
-- string table and the counts in a member of their own.

-- What an item is read with when nothing else is stored for it.

def defaultFlags : CoverTypeT → Nat
  | .cvgBin => 0x19
  | .toggleBin | .stmtBin | .branchBin | .condBin | .exprBin | .fsmBin | .defaultBin | .ignoreBin
  | .illegalBin | .blockBin | .coverBin | .assertBin | .passBin | .failBin => 0x01
  | _ => 0

def defaultAtLeast : CoverTypeT → Nat
  | .cvgBin => 1
  | _       => 0

-- A source location with its file as a number.
structure SourceRef where
  fileId : Nat
  line   : Nat
  token  : Nat
  deriving DecidableEq, Repr

-- A field is absent when it has its default value. The cover type is that of the first item.
structure ScopeHeader where
  type       : ScopeTypeT
  nameRef    : Nat
  flags      : Option Nat := none
  source     : Option SourceRef := none
  weight     : Option Nat := none
  atLeast    : Option Nat := none
  goal       : Option Nat := none
  sourceType : Option SourceT := none
  coverType  : Option CoverTypeT := none
  deriving DecidableEq, Repr

-- A regular record lists the names of its items and is followed by the records of its sub-scopes.
inductive ScopeRecord
  | togglePair (nameRef : Nat)
  | regular (header : ScopeHeader) (items : List Nat) (scopes : List ScopeRecord)

-- A number that is stored unless it has its default value; `none` where encoding it raises.
def presentVarint (default v : Int) : Option (Option Nat) :=
  if v = default then some none else if v < 0 then none else some (some v.toNat)

structure ScopeTreeWriter where
  strings : List String := []
  files   : List String := []
  counts  : Counts := []

namespace ScopeTreeWriter

def addString (w : ScopeTreeWriter) (s : String) : Nat × ScopeTreeWriter :=
  let (ref, strings) := intern w.strings s
  (ref, { w with strings := strings })

def getFileId (w : ScopeTreeWriter) (file : String) : Nat × ScopeTreeWriter :=
  let (fileId, files) := intern w.files file
  (fileId, { w with files := files })

def addCounts (w : ScopeTreeWriter) (counts : Counts) : ScopeTreeWriter :=
  { w with counts := w.counts ++ counts }

-- Only a location with a file and a line is stored.
def writeSource (w : ScopeTreeWriter) (srcinfo : SourceInfo) : Option SourceRef × ScopeTreeWriter :=
  match srcinfo.file with
  | none      => (none, w)
  | some file =>
    if srcinfo.line < 0 then
      (none, w)
    else
      let (fileId, w) := w.getFileId file
      (some ⟨fileId, srcinfo.line.toNat, srcinfo.token.toNat⟩, w)

def writeItems (w : ScopeTreeWriter) : List CoverIndex → List Nat × ScopeTreeWriter
  | []          => ([], w)
  | item :: items =>
    let (ref, w) := w.addString item.name
    let (refs, w) := (w.addCounts [item.data.data]).writeItems items
    (ref :: refs, w)

-- The count of the item of some name.
def countNamed (items : List CoverIndex) (name : String) : Nat :=
  ((items.find? (·.name = name)).map (·.data.data)).getD 0

def writeTogglePair (w : ScopeTreeWriter) (s : Scope) : ScopeRecord × ScopeTreeWriter :=
  let (ref, w) := w.addString s.name
  (.togglePair ref, w.addCounts [
    countNamed s.coverItems toggleBin0To1,
    countNamed s.coverItems toggleBin1To0
  ])

-- The presence of an overriding at_least is told by the first item.
def atLeastOverride (items : List CoverIndex) : Option (Option Nat) :=
  match items.head? with
  | none      => some none
  | some item => presentVarint (defaultAtLeast item.data.type) item.data.atLeast

def writeHeader (w : ScopeTreeWriter) (s : Scope) : Option (ScopeHeader × ScopeTreeWriter) := do
  let weight ← presentVarint 1 s.data.weight
  let atLeast ← atLeastOverride s.coverItems
  let goal ← presentVarint (-1) s.data.goal
  let (nameRef, w) := w.addString s.name
  let (source, w) := w.writeSource s.data.srcinfo
  return ({
    type       := s.type
    nameRef    := nameRef
    flags      := if s.data.flags = 0 then none else some s.data.flags
    source     := source
    weight     := weight
    atLeast    := atLeast
    goal       := goal
    sourceType := if s.data.source = .none then none else some s.data.source
    coverType  := s.coverItems.head?.map (·.data.type)
  }, w)

mutual

def writeScope (w : ScopeTreeWriter) : Scope → Option (ScopeRecord × ScopeTreeWriter)
  | .mk d is ss =>
    if (Scope.mk d is ss).isTogglePair then
      some (w.writeTogglePair (.mk d is ss))
    else do
      let (header, w) ← w.writeHeader (.mk d is ss)
      let (refs, w) := w.writeItems is
      let (records, w) ← w.writeScopes ss
      return (.regular header refs records, w)

def writeScopes (w : ScopeTreeWriter) : List Scope → Option (List ScopeRecord × ScopeTreeWriter)
  | []      => some ([], w)
  | s :: ss => do
    let (record, w) ← w.writeScope s
    let (records, w) ← w.writeScopes ss
    return (record :: records, w)

end

end ScopeTreeWriter

-- The sub-scopes that an FSM scope is created with. They take over its location, weight, source
-- language and flags, and hold the items that are created on it.
def fsmSubScopes (d : ScopeData) (items : List CoverIndex) : List Scope :=
  let sub (type : ScopeTypeT) (name : String) : ScopeData := {
    type    := type
    name    := name
    srcinfo := d.srcinfo
    weight  := d.weight
    source  := d.source
    flags   := d.flags
  }
  let isTransition (ci : CoverIndex) : Bool := "->".toList <:+: ci.name.toList
  [
    .mk (sub .fsmStates "UCIS:STATE") (items.filter (!isTransition ·)) [],
    .mk (sub .fsmTrans "UCIS:TRANSITION") (items.filter isTransition) []
  ]

-- A scope of one of the mandatory types of an FSM scope goes into the one that is there: its name
-- and what was set on it replace what is there, its items and sub-scopes are added.
def Scope.absorb (old new : Scope) : Scope :=
  .mk { old.data with
    name   := new.name
    goal   := if new.data.goal = -1 then old.data.goal else new.data.goal
    source := if new.data.source = .none then old.data.source else new.data.source
  } (old.coverItems ++ new.coverItems) (old.scopes ++ new.scopes)

def absorbIn (new : Scope) : List Scope → List Scope
  | []      => [new]
  | s :: ss => if s.type = new.type then s.absorb new :: ss else s :: absorbIn new ss

-- Adding a scope to the sub-scopes of a parent; `none` is the database itself.
def addScope (parent : Option ScopeTypeT) (siblings : List Scope) (new : Scope) : List Scope :=
  if parent = some .fsm ∧ (new.type = .fsmStates ∨ new.type = .fsmTrans) then
    absorbIn new siblings
  else
    siblings ++ [new]

-- The classes for covergroups, coverpoints and crosses take no flags. An instance only knows the
-- class for covergroups.
def takesFlags (parent : Option ScopeTypeT) (type : ScopeTypeT) : Bool :=
  match type with
  | .covergroup                          => false
  | .coverInstance | .coverpoint | .cross => parent = some .instanceScope
  | _                                    => true

-- A scope with items and sub-scopes created on it.
def Scope.create (d : ScopeData) (items : List CoverIndex) (scopes : List Scope) : Scope :=
  if d.type = .fsm then .mk d [] scopes else .mk d items scopes

structure ScopeTreeReader where
  strings : List String
  files   : List String

namespace ScopeTreeReader

-- An item with the values of its cover type.
def coverItem (type : CoverTypeT) (atLeast : Nat) (name : String) (count : Nat) : CoverIndex where
  name := name
  data := { type := type, flags := defaultFlags type, data := count, atLeast := atLeast }

-- Counts are taken one by one; when they have run out the count is zero.
def readItems (r : ScopeTreeReader) (type : CoverTypeT) (atLeast : Nat) :
    List Nat → Counts → Option (List CoverIndex × Counts)
  | [],          counts => some ([], counts)
  | ref :: refs, counts => do
    let name ← r.strings[ref]?
    let (items, rest) ← r.readItems type atLeast refs counts.tail
    return (coverItem type atLeast name (counts.headD 0) :: items, rest)

def togglePair (name : String) (count0To1 count1To0 : Nat) : Scope :=
  .mk { type := .branch, name := name } [
    coverItem .toggleBin (defaultAtLeast .toggleBin) toggleBin0To1 count0To1,
    coverItem .toggleBin (defaultAtLeast .toggleBin) toggleBin1To0 count1To0
  ] []

-- The location is read against the file table; a number without a file gives no file.
def sourceInfo (r : ScopeTreeReader) : Option SourceRef → SourceInfo
  | none     => ⟨none, -1, -1⟩
  | some ref => ⟨r.files[ref.fileId]?, ref.line, ref.token⟩

def scopeData (r : ScopeTreeReader) (parent : Option ScopeTypeT) (h : ScopeHeader) (name : String) :
    ScopeData where
  type    := h.type
  name    := name
  srcinfo := r.sourceInfo h.source
  weight  := h.weight.getD 1
  source  := h.sourceType.getD .none
  flags   := if takesFlags parent h.type then h.flags.getD 0 else 0
  goal    := (h.goal.map Int.ofNat).getD (-1)

-- The sub-scopes that are there before any is read. The source language is set later.
def initialScopes (d : ScopeData) (items : List CoverIndex) : List Scope :=
  if d.type = .fsm then fsmSubScopes { d with source := .none } items else []

-- A record without a cover type has no items.
def readHeaderItems (r : ScopeTreeReader) (h : ScopeHeader) (refs : List Nat) (counts : Counts) :
    Option (List CoverIndex × Counts) :=
  match h.coverType with
  | none      => some ([], counts)
  | some type => r.readItems type (h.atLeast.getD (defaultAtLeast type)) refs counts

mutual

def readScope (r : ScopeTreeReader) (parent : Option ScopeTypeT) :
    ScopeRecord → Counts → Option (Scope × Counts)
  | .togglePair ref, counts => do
    let name ← r.strings[ref]?
    return (togglePair name (counts.getD 0 0) (counts.getD 1 0), counts.drop 2)
  | .regular h refs records, counts => do
    let name ← r.strings[h.nameRef]?
    let (items, counts) ← r.readHeaderItems h refs counts
    let d := r.scopeData parent h name
    let (scopes, counts) ← r.readScopes (some h.type) (initialScopes d items) records counts
    return (.create d items scopes, counts)

def readScopes (r : ScopeTreeReader) (parent : Option ScopeTypeT) (siblings : List Scope) :
    List ScopeRecord → Counts → Option (List Scope × Counts)
  | [],                counts => some (siblings, counts)
  | record :: records, counts => do
    let (s, counts) ← r.readScope parent record counts
    r.readScopes parent (addScope parent siblings s) records counts

end

end ScopeTreeReader
