import Covsight.Ncdb.DfsUtil
import Mathlib.Data.List.Infix

-- State machines. An FSM scope knows its states and transitions, and has an item for each of them in one
-- of its two sub-scopes. Only indices of states are stored on their own; all else is built from the items.

structure MemFSMState where
  name       : String
  index      : Int
  visitCount : Nat := 0
  deriving DecidableEq

-- The states are told by their names.
structure MemFSMTransition where
  fromState : String
  toState   : String
  count     : Nat := 0
  deriving DecidableEq

def transitionName (fromState toState : String) : String :=
  fromState ++ "->" ++ toState

def MemFSMTransition.getName (t : MemFSMTransition) : String :=
  transitionName t.fromState t.toState

def hasArrow (name : String) : Bool :=
  ['-', '>'] <:+: name.toList

def fsmItem (name : String) : CoverIndex where
  name := name
  data := { type := .fsmBin, flags := 0 }

structure MemFSMScope where
  states      : Dict String MemFSMState := ∅
  transitions : Dict (String × String) MemFSMTransition := ∅
  -- The items of the two sub-scopes.
  statesItems : List CoverIndex := []
  transItems  : List CoverIndex := []

namespace MemFSMScope

variable (fsm : MemFSMScope)

-- An item goes to the sub-scope that its name tells.
def createNextCover (ci : CoverIndex) : MemFSMScope :=
  if hasArrow ci.name then
    { fsm with transItems := fsm.transItems ++ [ci] }
  else
    { fsm with statesItems := fsm.statesItems ++ [ci] }

def createState (stateName : String) (stateIndex : Option Int := none) : MemFSMScope :=
  if stateName ∈ fsm.states then
    fsm
  else
    let state : MemFSMState := { name := stateName, index := stateIndex.getD fsm.states.keys.length }
    { fsm with states := fsm.states.set stateName state }.createNextCover (fsmItem stateName)

def createTransition (fromState toState : String) : MemFSMScope :=
  if (fromState, toState) ∈ fsm.transitions then
    fsm
  else
    let trans : MemFSMTransition := { fromState, toState }
    { fsm with transitions := fsm.transitions.set (fromState, toState) trans }.createNextCover
      (fsmItem trans.getName)

def createNextTransition (fromState toState : String) : MemFSMScope :=
  ((fsm.createState fromState).createState toState).createTransition fromState toState

-- A state and a transition count by themselves, and so do their items.

def incrementVisitCount (stateName : String) (amt : Nat) : MemFSMScope :=
  match fsm.states.get? stateName with
  | none       => fsm
  | some state =>
    { fsm with states := fsm.states.set stateName { state with visitCount := state.visitCount + amt } }

def incrementCount (fromState toState : String) (amt : Nat) : MemFSMScope :=
  match fsm.transitions.get? (fromState, toState) with
  | none       => fsm
  | some t =>
    { fsm with transitions := fsm.transitions.set (fromState, toState) { t with count := t.count + amt } }

def incrementCover (inTransitions : Bool) (i : Nat) (amt : Nat) : MemFSMScope :=
  if inTransitions then
    { fsm with transItems := fsm.transItems.modify i (·.incrementCover amt) }
  else
    { fsm with statesItems := fsm.statesItems.modify i (·.incrementCover amt) }

end MemFSMScope

-- The FSM scopes, each with its position in depth-first order.
def fsmScopes (db : MemUCIS) : List (Nat × Scope) :=
  Dict.atPositions (fun s => if s.type = .fsm then some s else none) db.dfsScopeList

-- The indices of the states that are not at the position of their index, by the position of the FSM scope.
abbrev FsmMember := List (Nat × List (String × Int))

namespace FsmWriter

def stateEntries (states : Dict String MemFSMState) : List (String × Int) :=
  states.entries.zipIdx.filterMap fun ((name, state), i) =>
    if state.index ≠ i then some (name, state.index) else none

-- What an FSM scope knows is told by its position. An empty member is not stored.
def serialize (db : MemUCIS) (fsms : Nat → MemFSMScope) : FsmMember :=
  (fsmScopes db).filterMap fun (fsmIdx, _) =>
    let entries := stateEntries (fsms fsmIdx).states
    if entries.isEmpty then none else some (fsmIdx, entries)

end FsmWriter

namespace FsmReader

-- What is before and after the first arrow.
def splitArrow : List Char → Option (List Char × List Char)
  | []               => none
  | '-' :: '>' :: cs => some ([], cs)
  | c :: cs          => (splitArrow cs).map fun (before, after) => (c :: before, after)

def rebuildStates (indexOverrides : Dict String Int) (items : List CoverIndex) : Dict String MemFSMState :=
  .ofList <| items.zipIdx.map fun (ci, i) => (ci.name, {
    name       := ci.name
    index      := (indexOverrides.get? ci.name).getD i
    visitCount := ci.data.data })

-- An item whose name does not tell two states is passed over.
def rebuildTransition (states : Dict String MemFSMState) (ci : CoverIndex) :
    Option ((String × String) × MemFSMTransition) := do
  let (fromName, toName) ← splitArrow ci.name.toList
  let fromState := String.ofList fromName
  let toState   := String.ofList toName
  guard (fromState ∈ states ∧ toState ∈ states)
  return ((fromState, toState), { fromState, toState, count := ci.data.data })

def rebuildTransitions (states : Dict String MemFSMState) (items : List CoverIndex) :
    Dict (String × String) MemFSMTransition :=
  .ofList <| items.filterMap (rebuildTransition states)

def rebuild (indexOverrides : Dict String Int) (statesItems transItems : List CoverIndex) : MemFSMScope :=
  let states := rebuildStates indexOverrides statesItems
  { states, transitions := rebuildTransitions states transItems, statesItems, transItems }

-- The items of a mandatory sub-scope.
def itemsOf (fsmScope : Scope) (type : ScopeTypeT) : List CoverIndex :=
  ((fsmScope.scopes.find? (·.type = type)).map (·.coverItems)).getD []

def apply (db : MemUCIS) (data : FsmMember) : List (Nat × MemFSMScope) :=
  let indexOverrides := Dict.ofList <| data.map fun (fsmIdx, states) => (fsmIdx, Dict.ofList states)
  (fsmScopes db).map fun (fsmIdx, scope) =>
    (fsmIdx, rebuild ((indexOverrides.get? fsmIdx).getD ∅) (itemsOf scope .fsmStates) (itemsOf scope .fsmTrans))

end FsmReader
