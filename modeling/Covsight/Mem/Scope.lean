import Covsight.Lib.Dict

-- The kinds of cover items. The masks of the source's enumeration (`USERBITS`, `RESERVEDBIN`,
-- `ALL`) select kinds and are never the kind of an item.
inductive CoverTypeT
  | cvgBin
  | coverBin
  | assertBin
  | stmtBin
  | branchBin
  | exprBin
  | condBin
  | toggleBin
  | passBin
  | fsmBin
  | userBin
  | count
  | failBin
  | vacuousBin
  | disabledBin
  | attemptBin
  | activeBin
  | ignoreBin
  | illegalBin
  | defaultBin
  | peakActiveBin
  | blockBin
  deriving DecidableEq, Repr

inductive ScopeTypeT
  | toggle
  | branch
  | expr
  | cond
  | instanceScope
  | process
  | block
  | function
  | forkJoin
  | generate
  | generic
  | classScope
  | covergroup
  | coverInstance
  | coverpoint
  | cross
  | cover
  | assertScope
  | program
  | package
  | task
  | interface
  | fsm
  | duModule
  | duArch
  | duPackage
  | duProgram
  | duInterface
  | fsmStates
  | fsmTrans
  | covBlock
  | cvgBinScope
  | illegalBinScope
  | ignoreBinScope
  deriving DecidableEq, Repr

def ScopeTypeT.duAny : ScopeTypeT → Bool
  | duModule | duArch | duPackage | duProgram | duInterface => true
  | _                                                       => false

inductive SourceT
  | vhdl
  | vlog
  | sv
  | systemC
  | pslVhdl
  | pslVlog
  | pslSv
  | pslSystemC
  | e
  | vera
  | none
  | other
  deriving DecidableEq, Repr

structure SourceInfo where
  file  : Option String
  line  : Int
  token : Int
  deriving DecidableEq, Repr

structure CoverData where
  type    : CoverTypeT
  flags   : Nat
  data    : Nat := 0
  goal    : Int := 0
  atLeast : Int := 1
  deriving DecidableEq, Repr

structure CoverIndex where
  name       : String
  data       : CoverData
  srcinfo    : Option SourceInfo := none
  attributes : Dict String String := ∅
  deriving DecidableEq

namespace CoverIndex

def incrementCover (ci : CoverIndex) (amt : Nat) : CoverIndex :=
  { ci with data.data := ci.data.data + amt }

def setCoverFlags (ci : CoverIndex) (flags : Nat) : CoverIndex :=
  { ci with data.flags := flags }

def setAttribute (ci : CoverIndex) (key val : String) : CoverIndex :=
  { ci with attributes := ci.attributes.set key val }

end CoverIndex

-- Everything a scope holds apart from its items and its sub-scopes.
structure ScopeData where
  type       : ScopeTypeT
  name       : String
  srcinfo    : SourceInfo := ⟨none, -1, -1⟩
  weight     : Int := 1
  source     : SourceT := .none
  flags      : Nat := 0
  goal       : Int := -1
  attributes : Dict String String := ∅
  tags       : List String := []
  -- The coverpoints a cross was created with, by name.
  crossed    : List String := []
  deriving DecidableEq

inductive Scope
  | mk (data : ScopeData) (coverItems : List CoverIndex) (scopes : List Scope)

namespace Scope

def data : Scope → ScopeData
  | mk data _ _ => data

def coverItems : Scope → List CoverIndex
  | mk _ items _ => items

def scopes : Scope → List Scope
  | mk _ _ scopes => scopes

def type (s : Scope) : ScopeTypeT :=
  s.data.type

def name (s : Scope) : String :=
  s.data.name

@[simp]
theorem data_mk (d : ScopeData) (is : List CoverIndex) (ss : List Scope) : (mk d is ss).data = d :=
  rfl

@[simp]
theorem coverItems_mk (d : ScopeData) (is : List CoverIndex) (ss : List Scope) :
    (mk d is ss).coverItems = is :=
  rfl

@[simp]
theorem scopes_mk (d : ScopeData) (is : List CoverIndex) (ss : List Scope) :
    (mk d is ss).scopes = ss :=
  rfl

end Scope
