import Covsight.NcdbC.TestsAssoc

-- The member with the attributes. A scope is told by its position in depth-first order, a cover by
-- its scope and its position in it, a history node by its position.

structure NatrMember where
  db      : List NcdbAttr
  scopes  : List (Nat × List NcdbAttr)
  covers  : List ((Nat × Nat) × List NcdbAttr)
  history : List (Nat × List NcdbAttr)

-- Only tables with entries are stored.
def attrRecords {κ : Type} (tables : List (κ × List NcdbAttr)) : List (κ × List NcdbAttr) :=
  tables.filter fun (_, table) => table ≠ []

-- Entries are set one by one.
def readTableInto (table entries : List NcdbAttr) : List NcdbAttr :=
  entries.foldl attrTableSet table

-- Records are read one after the other, up to the first one whose object is not there.
def readAttrRecords {σ κ : Type} (put : σ → κ → List NcdbAttr → Option σ) :
    List (κ × List NcdbAttr) → σ → σ × Bool
  | [],                    x => (x, true)
  | (k, entries) :: records, x =>
    match put x k entries with
    | none   => (x, false)
    | some x => readAttrRecords put records x

-- A scope without its children.
structure NcdbScopeNode where
  data   : NcdbScopeData
  covers : List NcdbCover

namespace NcdbScopeNode

def putAttrs (node : NcdbScopeNode) (entries : List NcdbAttr) : NcdbScopeNode :=
  { node with data := { node.data with attrs := readTableInto node.data.attrs entries } }

end NcdbScopeNode

def NcdbCover.putAttrs (c : NcdbCover) (entries : List NcdbAttr) : NcdbCover :=
  { c with attrs := readTableInto c.attrs entries }

def NcdbHistoryNode.putAttrs (h : NcdbHistoryNode) (entries : List NcdbAttr) : NcdbHistoryNode :=
  { h with attrs := readTableInto h.attrs entries }

-- Changing the object at a position.
def modifyAt {α : Type} (xs : List α) (i : Nat) (f : α → Option α) : Option (List α) :=
  xs[i]?.bind fun x => (f x).map (xs.set i ·)

def putScopeAttrs (nodes : List NcdbScopeNode) (i : Nat) (entries : List NcdbAttr) :
    Option (List NcdbScopeNode) :=
  modifyAt nodes i fun node => some (node.putAttrs entries)

def putCoverAttrs (nodes : List NcdbScopeNode) (k : Nat × Nat) (entries : List NcdbAttr) :
    Option (List NcdbScopeNode) :=
  modifyAt nodes k.fst fun node =>
    (modifyAt node.covers k.snd fun c => some (c.putAttrs entries)).map fun covers => { node with covers }

def putHistoryAttrs (nodes : List NcdbHistoryNode) (i : Nat) (entries : List NcdbAttr) :
    Option (List NcdbHistoryNode) :=
  modifyAt nodes i fun h => some (h.putAttrs entries)

namespace NcdbScope

def node (s : NcdbScope) : NcdbScopeNode :=
  ⟨s.data, s.covers⟩

mutual

-- The scopes with other data and covers, taken off the front of a list.
def putNodes (new : List NcdbScopeNode) : NcdbScope → NcdbScope
  | mk d cs ss =>
    let node := new.headD ⟨d, cs⟩
    mk node.data node.covers (putNodesAll new.tail ss)

def putNodesAll (new : List NcdbScopeNode) : List NcdbScope → List NcdbScope
  | []      => []
  | s :: ss => s.putNodes new :: putNodesAll (new.drop s.dfs.length) ss

end

end NcdbScope

namespace Ncdb

def attrsSerialize (db : Ncdb) : NatrMember where
  db      := db.attrs
  scopes  := attrRecords (db.dfsFlatten.zipIdx.map fun (s, i) => (i, s.data.attrs))
  covers  := attrRecords (db.dfsFlatten.zipIdx.flatMap fun (s, i) =>
    s.covers.zipIdx.map fun (c, j) => ((i, j), c.attrs))
  history := attrRecords (db.historyNodes.zipIdx.map fun (h, i) => (i, h.attrs))

-- What was read before a record that cannot be read stays.
def attrsDeserialize (db : Ncdb) (m : NatrMember) : Ncdb :=
  let db := { db with attrs := readTableInto db.attrs m.db }
  let (nodes, ok) := readAttrRecords putScopeAttrs m.scopes (db.dfsFlatten.map (·.node))
  let (nodes, ok) := if ok then readAttrRecords putCoverAttrs m.covers nodes else (nodes, false)
  { db with
    roots        := NcdbScope.putNodesAll nodes db.roots
    historyNodes :=
      if ok then (readAttrRecords putHistoryAttrs m.history db.historyNodes).fst else db.historyNodes }

end Ncdb

-- Writing a database to its members, and reading it back.

-- The kind of a history node is stored in a byte.
structure NcdbMembers where
  tree       : NcdbScopeTree
  history    : List UInt8
  attrs      : NatrMember
  testsAssoc : List UInt8

namespace Ncdb

def write (db : Ncdb) : Option NcdbMembers :=
  (db.scopeTreeSerialize [""]).map fun tree => {
    tree       := tree
    history    := db.historyNodes.map (·.kind.toUInt8)
    attrs      := db.attrsSerialize
    testsAssoc := db.testsAssocSerialize
  }

-- The associations are not there if their member is not, and whether it is accepted does not matter.
def read (m : NcdbMembers) : Option Ncdb := do
  let roots ← scopeTreeDeserialize m.tree.toNcdbTables m.tree.data m.tree.counts
  let db : Ncdb := {
    roots        := roots
    sources      := m.tree.sources
    historyNodes := m.history.map fun kind => { kind := kind.toUInt32 }
  }
  return ((db.attrsDeserialize m.attrs).testsAssocDeserialize m.testsAssoc).fst

end Ncdb
