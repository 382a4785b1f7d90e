import Covsight.Ncdb.ScopeTreeCodec

-- What the reader makes of any stream, as far as scopes and items go: their types, names, order and
-- counts. A type is kept as its value, since a value without a name of its own, such as two types at
-- once, is read all the same.

structure RawItem where
  type  : Nat
  name  : String
  count : Nat
  deriving DecidableEq, Repr

inductive RawScope
  | mk (type : Nat) (name : String) (items : List RawItem) (scopes : List RawScope)
  deriving Repr

namespace RawScope

def type : RawScope → Nat
  | mk type _ _ _ => type

def name : RawScope → String
  | mk _ name _ _ => name

def items : RawScope → List RawItem
  | mk _ _ items _ => items

def scopes : RawScope → List RawScope
  | mk _ _ _ scopes => scopes

end RawScope

-- A record as it comes from a stream, without the fields that say nothing about these.
inductive RawRecord
  | togglePair (nameRef : Nat)
  | regular (type nameRef coverType : Nat) (items : List Nat) (scopes : List RawRecord)

namespace RawRecord

-- Bits that are not known are not looked at. Of the fields, only the source language can be refused.
def decodeHeader (bytes : List UInt8) : Option ((Nat × Nat) × List UInt8) := do
  let (type, bytes) ← decodeVarint bytes
  let (nameRef, bytes) ← decodeVarint bytes
  let (presence, bytes) ← decodeVarint bytes
  let (_, bytes) ← decodeIf presence presenceFlags decodeVarint bytes
  let (_, bytes) ← decodeIf presence presenceSource ScopeHeader.decodeSource bytes
  let (_, bytes) ← decodeIf presence presenceWeight decodeVarint bytes
  let (_, bytes) ← decodeIf presence presenceAtLeast decodeVarint bytes
  let (_, bytes) ← decodeIf presence presenceGoal decodeVarint bytes
  let (_, bytes) ← decodeIf presence presenceSourceType ScopeHeader.decodeSourceType bytes
  return ((type, nameRef), bytes)

def decodeCoverType (items : Nat) (bytes : List UInt8) : Option (Nat × List UInt8) :=
  if items = 0 then some (0, bytes) else decodeVarint bytes

def decode : (fuel : Nat) → List UInt8 → Option (RawRecord × List UInt8)
  | 0,        _               => none
  | _ + 1,    []              => none
  | fuel + 1, marker :: bytes =>
    if marker = scopeMarkerTogglePair then
      (decodeVarint bytes).map fun (nameRef, bytes) => (togglePair nameRef, bytes)
    else do
      let ((type, nameRef), bytes) ← decodeHeader bytes
      let (scopes, bytes) ← decodeVarint bytes
      let (items, bytes) ← decodeVarint bytes
      let (coverType, bytes) ← decodeCoverType items bytes
      let (refs, bytes) ← decodeMany decodeVarint items bytes
      let (records, bytes) ← decodeMany (decode fuel) scopes bytes
      return (regular type nameRef coverType refs records, bytes)

end RawRecord

-- The kinds of scopes that an instance knows, in the order it looks for them.
def instanceKinds : List ScopeTypeT :=
  [.covergroup, .block, .branch, .toggle, .fsm]

-- The type that a scope is created with. In an instance, a bit of one of these kinds is enough.
def createdType (parent : Option Nat) (type : Nat) : Nat :=
  if parent = some ScopeTypeT.instanceScope.value ∧ type ≠ ScopeTypeT.instanceScope.value then
    ((instanceKinds.find? fun kind => type &&& kind.value ≠ 0).map (·.value)).getD type
  else
    type

namespace RawScope

def isTransition (item : RawItem) : Bool :=
  "->".toList <:+: item.name.toList

-- The sub-scopes of an FSM scope, which hold its items.
def fsmScopes (items : List RawItem) : List RawScope := [
  mk ScopeTypeT.fsmStates.value "UCIS:STATE" (items.filter (!isTransition ·)) [],
  mk ScopeTypeT.fsmTrans.value "UCIS:TRANSITION" (items.filter isTransition) []
]

def create (type : Nat) (name : String) (items : List RawItem) (scopes : List RawScope) :
    RawScope :=
  mk type name (if type = ScopeTypeT.fsm.value then [] else items) scopes

def absorb (old new : RawScope) : RawScope :=
  mk old.type new.name (old.items ++ new.items) (old.scopes ++ new.scopes)

def absorbIn (new : RawScope) : List RawScope → List RawScope
  | []      => [new]
  | s :: ss => if s.type = new.type then s.absorb new :: ss else s :: absorbIn new ss

-- An FSM scope has one sub-scope of states and one of transitions.
def add (parent : Option Nat) (siblings : List RawScope) (new : RawScope) :
    List RawScope :=
  if parent = some ScopeTypeT.fsm.value ∧
      (new.type = ScopeTypeT.fsmStates.value ∨ new.type = ScopeTypeT.fsmTrans.value) then
    absorbIn new siblings
  else
    siblings ++ [new]

def initialScopes (type : Nat) (items : List RawItem) : List RawScope :=
  if type = ScopeTypeT.fsm.value then fsmScopes items else []

def togglePair (name : String) (count0To1 count1To0 : Nat) : RawScope :=
  mk ScopeTypeT.branch.value name
    [⟨CoverTypeT.toggleBin.value, toggleBin0To1, count0To1⟩,
      ⟨CoverTypeT.toggleBin.value, toggleBin1To0, count1To0⟩] []

end RawScope

namespace ScopeTreeReader

def readRawItems (r : ScopeTreeReader) (coverType : Nat) :
    List Nat → Counts → Option (List RawItem × Counts)
  | [],          counts => some ([], counts)
  | ref :: refs, counts => do
    let name ← r.strings[ref]?
    let (items, rest) ← r.readRawItems coverType refs counts.tail
    return (⟨coverType, name, counts.headD 0⟩ :: items, rest)

mutual

def readRawScope (r : ScopeTreeReader) (parent : Option Nat) :
    RawRecord → Counts → Option (RawScope × Counts)
  | .togglePair ref, counts => do
    let name ← r.strings[ref]?
    return (.togglePair name (counts.getD 0 0) (counts.getD 1 0), counts.drop 2)
  | .regular type ref coverType refs records, counts => do
    let name ← r.strings[ref]?
    let (items, counts) ← r.readRawItems coverType refs counts
    let type := createdType parent type
    let (scopes, counts) ←
      r.readRawScopes (some type) (RawScope.initialScopes type items) records counts
    return (.create type name items scopes, counts)

def readRawScopes (r : ScopeTreeReader) (parent : Option Nat) (siblings : List RawScope) :
    List RawRecord → Counts → Option (List RawScope × Counts)
  | [],                counts => some (siblings, counts)
  | record :: records, counts => do
    let (s, counts) ← r.readRawScope parent record counts
    r.readRawScopes parent (RawScope.add parent siblings s) records counts

end

def readRaw (r : ScopeTreeReader) (data : List UInt8) (counts : Counts) :
    Option (List RawScope) := do
  let records ← decodeAll (RawRecord.decode data.length) data.length data
  let (scopes, _) ← r.readRawScopes none [] records counts
  return scopes

end ScopeTreeReader
