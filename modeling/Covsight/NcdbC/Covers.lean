import Covsight.NcdbC.ScopeTree
import Mathlib.Algebra.GroupWithZero.Nat

-- Creating covers. The covers of a scope have one type, which the scope tree stream relies on; covers
-- of other types go into synthetic children of the scope, one for each type, and are listed together
-- with those of the scope.

def ncdbScopeFlagInternal : UInt64 := 0xF0000000

-- A bit within the internal flag.
def ncdbScopeFlagR7Synthetic : UInt64 := 0x10000000

def r7BintypeShortName (type : UInt64) : Option String :=
  match type.toNat with
  | 0x400     => some "<pass>"
  | 0x4000    => some "<fail>"
  | 0x20000   => some "<attempt>"
  | 0x40000   => some "<active>"
  | 0x400000  => some "<peakactive>"
  | 0x8000    => some "<vacuous>"
  | 0x10000   => some "<disabled>"
  | 0x2       => some "<cover>"
  | 0x4       => some "<assert>"
  | 0x20      => some "<stmt>"
  | 0x40      => some "<branch>"
  | 0x80      => some "<expr>"
  | 0x100     => some "<cond>"
  | 0x200     => some "<toggle>"
  | 0x800     => some "<fsm>"
  | 0x1000    => some "<user>"
  | 0x1       => some "<cvg>"
  | 0x80000   => some "<ignore>"
  | 0x100000  => some "<illegal>"
  | 0x200000  => some "<default>"
  | 0x1000000 => some "<block>"
  | _         => none

def r7SyntheticName (type : UInt64) : String :=
  (r7BintypeShortName type).getD
    ("<bintype_0x" ++ String.ofList (Nat.toDigits 16 type.toNat) ++ ">")

-- Where a cover is: in the scope itself, or in one of its children.
structure CoverLoc where
  child : Option Nat
  index : Nat
  deriving DecidableEq

namespace NcdbScope

def isR7Synthetic (s : NcdbScope) : Bool :=
  s.data.flags &&& ncdbScopeFlagR7Synthetic ≠ 0

def findR7Synthetic (children : List NcdbScope) (type : UInt64) : Option Nat :=
  children.findIdx? fun c => c.isR7Synthetic && c.covers.head?.any (·.type = type)

-- A synthetic child is created for its first cover.
def createR7Synthetic (parent : NcdbScopeData) (c : NcdbCover) : NcdbScope :=
  mk {
    type  := parent.type
    name  := r7SyntheticName c.type
    flags := ncdbScopeFlagInternal ||| ncdbScopeFlagR7Synthetic
  } [c] []

def appendCover (c : NcdbCover) (s : NcdbScope) : NcdbScope :=
  mk s.data (s.covers ++ [c]) s.children

-- Synthetic children take covers of any type.
def splits (s : NcdbScope) (type : UInt64) : Bool :=
  s.covers.head?.any (·.type ≠ type) && !s.isR7Synthetic

def createCover (s : NcdbScope) (type : UInt64) (name : String) (count : UInt64) :
    NcdbScope × CoverLoc :=
  let c := NcdbCover.create type name count
  if s.splits type then
    match findR7Synthetic s.children type with
    | some i =>
      (mk s.data s.covers (s.children.modify i (appendCover c)),
        ⟨some i, ((s.children[i]?.map (·.covers.length)).getD 0)⟩)
    | none   =>
      (mk s.data s.covers (s.children ++ [createR7Synthetic s.data c]),
        ⟨some s.children.length, 0⟩)
  else
    (appendCover c s, ⟨none, s.covers.length⟩)

def logicalCoverCount (s : NcdbScope) : Nat :=
  s.covers.length + ((s.children.filter (·.isR7Synthetic)).map (·.covers.length)).sum

def logicalCoverAtIn : (start : Nat) → List NcdbScope → (idx : Nat) → Option CoverLoc
  | _,     [],      _   => none
  | start, c :: cs, idx =>
    if !c.isR7Synthetic then
      logicalCoverAtIn (start + 1) cs idx
    else if idx < c.covers.length then
      some ⟨some start, idx⟩
    else
      logicalCoverAtIn (start + 1) cs (idx - c.covers.length)

def logicalCoverAt (s : NcdbScope) (idx : Nat) : Option CoverLoc :=
  if idx < s.covers.length then
    some ⟨none, idx⟩
  else
    logicalCoverAtIn 0 s.children (idx - s.covers.length)

def coverAt (s : NcdbScope) (loc : CoverLoc) : Option NcdbCover :=
  match loc.child with
  | none   => s.covers[loc.index]?
  | some i => (s.children[i]?).bind (·.covers[loc.index]?)

-- The scope that is reached from a scope by the positions of its descendants.
def descend (s : NcdbScope) : List Nat → Option NcdbScope
  | []      => some s
  | i :: is => (s.children[i]?).bind (·.descend is)

def modifyDescendant (f : NcdbScope → NcdbScope) : List Nat → NcdbScope → NcdbScope
  | [],      s => f s
  | i :: is, s => mk s.data s.covers (s.children.modify i (modifyDescendant f is))

end NcdbScope

-- A pointer to a scope that stays the same while scopes are added.
structure NcdbScopePath where
  root : Nat
  path : List Nat
  deriving DecidableEq

namespace Ncdb

def scopeAt (db : Ncdb) (p : NcdbScopePath) : Option NcdbScope :=
  (db.roots[p.root]?).bind (·.descend p.path)

def modifyScope (db : Ncdb) (p : NcdbScopePath) (f : NcdbScope → NcdbScope) : Ncdb :=
  { db with roots := db.roots.modify p.root (NcdbScope.modifyDescendant f p.path) }

def createScope (db : Ncdb) (parent : Option NcdbScopePath) (d : NcdbScopeData) : Ncdb :=
  match parent with
  | none   => { db with roots := db.roots ++ [.mk d [] []] }
  | some p => db.modifyScope p fun s => .mk s.data s.covers (s.children ++ [.mk d [] []])

-- A scope that is not there gives no cover.
def createCover (db : Ncdb) (p : NcdbScopePath) (type : UInt64) (name : String) (count : UInt64) :
    Option (Ncdb × CoverLoc) :=
  (db.scopeAt p).map fun s =>
    (db.modifyScope p fun s => (s.createCover type name count).fst,
      (s.createCover type name count).snd)

-- Writing the database and reading it back, as far as its scopes and covers go. The first string of
-- a table is the empty one.
def reread (db : Ncdb) : Option Ncdb := do
  let out ← db.scopeTreeSerialize [""]
  let roots ← scopeTreeDeserialize out.toNcdbTables out.data out.counts
  return { db with roots := roots, sources := out.sources }

end Ncdb
