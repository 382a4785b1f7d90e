import Covsight.Mem.UCIS
import Covsight.Mem.ScopeHeap

-- The implicit bins of a toggle pair.
def toggleBin0To1 : String := "0 -> 1"
def toggleBin1To0 : String := "1 -> 0"

namespace Scope

-- A branch scope without sub-scopes whose two items are the implicit bins, in either order.
def isTogglePair (s : Scope) : Bool :=
  s.type = .branch ∧ s.scopes = [] ∧
    (s.coverItems.map (·.name) = [toggleBin0To1, toggleBin1To0] ∨
      s.coverItems.map (·.name) = [toggleBin1To0, toggleBin0To1])

mutual

-- The scope and its sub-scopes, each before its own sub-scopes.
def dfs : Scope → List Scope
  | mk d is ss => mk d is ss :: if (mk d is ss).isTogglePair then [] else dfsAll ss

def dfsAll : List Scope → List Scope
  | []      => []
  | s :: ss => s.dfs ++ dfsAll ss

end

def binNames (s : Scope) : List String :=
  if s.isTogglePair then [toggleBin0To1, toggleBin1To0] else s.coverItems.map (·.name)

def binCount (s : Scope) : Nat :=
  if s.isTogglePair then 2 else s.coverItems.length

theorem isTogglePair_scopes {s : Scope} (h : s.isTogglePair) : s.scopes = [] := by
  simp only [isTogglePair, decide_eq_true_eq] at h
  exact h.2.1

theorem dfs_eq (s : Scope) : s.dfs = s :: dfsAll s.scopes := by
  have ⟨d, is, ss⟩ := s
  rw [dfs, scopes_mk]
  split
  case isTrue h  => rw [show ss = [] from isTogglePair_scopes h, dfsAll]
  case isFalse h => rfl

theorem dfsAll_eq_flatMap (ss : List Scope) : dfsAll ss = ss.flatMap dfs := by
  induction ss
  case nil          => rfl
  case cons s ss hi => rw [dfsAll, hi, List.flatMap_cons]

mutual

-- Rewriting every scope in place. `f` is told the type of the parent, the siblings, the position of
-- the scope in depth-first order and the flat index of its first item.
def rewrite (f : Option ScopeTypeT → List Scope → Nat → Nat → Scope → ScopeData × List CoverIndex)
    (parent : Option ScopeTypeT) (siblings : List Scope) (i k : Nat) : Scope → Scope
  | mk d is ss =>
    mk (f parent siblings i k (mk d is ss)).fst (f parent siblings i k (mk d is ss)).snd
      (rewriteAll f (some d.type) ss (i + 1) (k + is.length) ss)

def rewriteAll
    (f : Option ScopeTypeT → List Scope → Nat → Nat → Scope → ScopeData × List CoverIndex)
    (parent : Option ScopeTypeT) (siblings : List Scope) (i k : Nat) : List Scope → List Scope
  | []      => []
  | s :: ss =>
    rewrite f parent siblings i k s :: rewriteAll f parent siblings (i + s.dfs.length)
      (k + (s.dfs.flatMap coverItems).length) ss

end

end Scope

namespace MemUCIS

def dfsScopeList (db : MemUCIS) : List Scope :=
  Scope.dfsAll db.scopes

-- All items in the order their scopes are visited and, within a scope, in creation order.
def coverItems (db : MemUCIS) : List CoverIndex :=
  db.dfsScopeList.flatMap (·.coverItems)

def totalBinCount (db : MemUCIS) : Nat :=
  (db.dfsScopeList.map (·.binCount)).sum

-- Rewriting the data of the scopes by depth-first position.
def mapScopeData (f : Nat → ScopeData → ScopeData) (db : MemUCIS) : MemUCIS :=
  { db with
    scopes :=
      Scope.rewriteAll (fun _ _ i _ s => (f i s.data, s.coverItems)) none db.scopes 0 0 db.scopes
  }

-- Rewriting the items of the scopes, given the position of the scope and the flat index of its first
-- item.
def mapScopeItems (f : Nat → Nat → Scope → List CoverIndex) (db : MemUCIS) : MemUCIS :=
  { db with
    scopes := Scope.rewriteAll (fun _ _ i k s => (s.data, f i k s)) none db.scopes 0 0 db.scopes
  }

-- Rewriting the items by flat index.
def mapCoverItems (f : Nat → CoverIndex → CoverIndex) (db : MemUCIS) : MemUCIS :=
  db.mapScopeItems fun _ k s => s.coverItems.mapIdx fun j ci => f (k + j) ci

-- The same for the items outside of toggle pairs only.
def mapLooseItems (f : Nat → CoverIndex → CoverIndex) (db : MemUCIS) : MemUCIS :=
  db.mapScopeItems fun _ k s =>
    if s.isTogglePair then s.coverItems else s.coverItems.mapIdx fun j ci => f (k + j) ci

end MemUCIS

-- Flat bin addressing: the bins in the order of the count array. A toggle pair has its two bins in
-- the canonical order, whatever the order they were created in.

namespace Scope

-- The items of a scope in the order of its bins.
def binItems (s : Scope) : List CoverIndex :=
  if s.isTogglePair then
    [toggleBin0To1, toggleBin1To0].flatMap fun name => s.coverItems.filter (·.name = name)
  else
    s.coverItems

-- The positions of the items in that order.
def binOrder (s : Scope) : List Nat :=
  if s.isTogglePair then
    s.binNames.map fun name => (s.coverItems.map (·.name)).idxOf name
  else
    List.range s.coverItems.length

mutual

-- The paths of a scope and its sub-scopes, in the order they are visited.
def paths (above : List String) : Scope → List (List String)
  | mk d _ ss => (above ++ [d.name]) :: pathsAll (above ++ [d.name]) ss

def pathsAll (above : List String) : List Scope → List (List String)
  | []      => []
  | s :: ss => s.paths above ++ pathsAll above ss

end

end Scope

namespace MemUCIS

def binItems (db : MemUCIS) : List CoverIndex :=
  db.dfsScopeList.flatMap (·.binItems)

-- Where the bins are: the path of the scope and the name of the bin.
def flatBins (db : MemUCIS) : List (List String × String) :=
  ((Scope.pathsAll [] db.scopes).zip db.dfsScopeList).flatMap fun (path, s) =>
    s.binItems.map fun ci => (path, ci.name)

-- The flat index of the first bin of a scope.
def scopeBinBase (db : MemUCIS) (scopeIdx : Nat) : Nat :=
  ((db.dfsScopeList.take scopeIdx).map (·.binCount)).sum

-- The bins by flat index: the scope, and the position of the item there.
def iterFlatBins (db : MemUCIS) : List (Nat × Nat) :=
  (db.dfsScopeList.mapIdx fun scopeIdx s => s.binOrder.map (scopeIdx, ·)).flatten

-- The item of a bin, by its flat index or by its scope and its position there.

def binItem (db : MemUCIS) (index : Nat) : Option CoverIndex :=
  db.binItems[index]?

def localBinItem (db : MemUCIS) (scopeIdx ciIdx : Nat) : Option CoverIndex :=
  db.dfsScopeList[scopeIdx]?.bind (·.binItems[ciIdx]?)

end MemUCIS

-- Walking over the scopes of a database. The database keeps the list of scopes and the index of the
-- first item of each once they are computed.

def ScopeObj.isTogglePair (o : ScopeObj) : Bool :=
  o.children = [] ∧ (Scope.mk o.data o.coverItems []).isTogglePair

def ScopeObj.binCount (o : ScopeObj) : Nat :=
  if o.isTogglePair then 2 else o.coverItems.length

-- A scope and its sub-scopes, each before its own sub-scopes. The fuel bounds the nesting.
def visit (objs : List ScopeObj) : (fuel : Nat) → Nat → List Nat
  | 0,        _ => []
  | fuel + 1, i =>
    match objs[i]? with
    | none   => []
    | some o => i :: if o.isTogglePair then [] else o.children.flatMap (visit objs fuel)

-- The index of the first item of each scope, by the identity of the scope.
def assignBases : (nextIndex : Nat) → Dict Nat Nat → List (Nat × Nat) → Dict Nat Nat
  | _,         bases, []             => bases
  | nextIndex, bases, (i, n) :: rest => assignBases (nextIndex + n) (bases.set i nextIndex) rest

namespace ScopeHeap

def dfs (h : ScopeHeap) : List Nat :=
  h.roots.flatMap (visit h.objs h.objs.length)

def binCount (h : ScopeHeap) (i : Nat) : Nat :=
  ((h.objs[i]?).map (·.binCount)).getD 0

-- The indices for a list of scopes.
def basesOf (h : ScopeHeap) (scopes : List Nat) : Dict Nat Nat :=
  assignBases 0 ∅ (scopes.map fun i => (i, h.binCount i))

end ScopeHeap

structure CachedUCIS extends ScopeHeap where
  dfsScopeCache     : Option (List Nat) := none
  scopeBinBaseCache : Option (Dict Nat Nat) := none

-- The changes of the scopes and of their items.
inductive ScopeEdit
  | createScope (parent : Option Nat) (d : ScopeData)
  | createInstance (parent : Option Nat) (d : ScopeData)
  | removeScope (target : Nat)
  | createNextCover (i : Nat) (ci : CoverIndex)
  | removeCover (i : Nat) (coverindex : Int)

-- The scopes of the scope tree member, in its order, and the scopes that the sparse members number.
structure WrittenOrder where
  scopeTree : List Nat
  sparse    : List Nat

namespace CachedUCIS

def dfsScopeList (db : CachedUCIS) : List Nat × CachedUCIS :=
  match db.dfsScopeCache with
  | some cached => (cached, db)
  | none        => (db.dfs, { db with dfsScopeCache := some db.dfs })

def scopeBinBases (db : CachedUCIS) : Dict Nat Nat × CachedUCIS :=
  match db.scopeBinBaseCache with
  | some cached => (cached, db)
  | none        =>
    let (scopes, db) := db.dfsScopeList
    (db.basesOf scopes, { db with scopeBinBaseCache := some (db.basesOf scopes) })

-- No change touches what is kept.
def edit (db : CachedUCIS) : ScopeEdit → CachedUCIS
  | .createScope parent d     => { db with toScopeHeap := db.createScope parent d }
  | .createInstance parent d  => { db with toScopeHeap := db.createInstance parent d }
  | .removeScope target       => { db with toScopeHeap := db.removeScope target }
  | .createNextCover i ci     => { db with toScopeHeap := db.createNextCover i ci }
  | .removeCover i coverindex => { db with toScopeHeap := db.removeCover i coverindex }

-- The scope tree is walked over by itself, the sparse members go by the list.
def write (db : CachedUCIS) : WrittenOrder × CachedUCIS :=
  let (sparse, db) := db.dfsScopeList
  (⟨db.dfs, sparse⟩, db)

-- A database that is read is a new one. Its sparse members, if there are any, are put in place by the
-- list when all scopes are there.
def read (scopes : ScopeHeap) (hasSparse : Bool) : CachedUCIS :=
  if hasSparse then (CachedUCIS.mk scopes none none).dfsScopeList.2 else { toScopeHeap := scopes }

end CachedUCIS
