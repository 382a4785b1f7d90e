import Covsight.Mem.Scope
import Mathlib.Data.List.Infix

-- The scopes of a database as objects. A scope is referred to by its position in the heap, which it
-- keeps when it is removed from the database.

structure ScopeObj where
  data       : ScopeData
  coverItems : List CoverIndex := []
  children   : List Nat := []
  -- The sub-scopes for the states and for the transitions of an FSM.
  fsmParts   : Option (Nat × Nat) := none

namespace ScopeObj

def addChild (c : Nat) (o : ScopeObj) : ScopeObj :=
  { o with children := o.children ++ [c] }

def removeChild (c : Nat) (o : ScopeObj) : ScopeObj :=
  { o with children := o.children.erase c }

def rename (name : String) (o : ScopeObj) : ScopeObj :=
  { o with data.name := name }

def addCover (ci : CoverIndex) (o : ScopeObj) : ScopeObj :=
  { o with coverItems := o.coverItems ++ [ci] }

-- An index that is out of range removes nothing.
def removeCover (coverindex : Int) (o : ScopeObj) : ScopeObj :=
  if 0 ≤ coverindex then { o with coverItems := o.coverItems.eraseIdx coverindex.toNat } else o

-- The sub-scope of an FSM scope that is there for a type.
def fsmPart (o : ScopeObj) (type : ScopeTypeT) : Option Nat :=
  o.fsmParts.bind fun (states, transitions) =>
    match type with
    | .fsmStates => some states
    | .fsmTrans  => some transitions
    | _          => none

-- What a new scope is made of, itself first, if it is the `i`-th object.
def create (i : Nat) (d : ScopeData) : List ScopeObj :=
  if d.type = .fsm then [
    { data := d, children := [i + 1, i + 2], fsmParts := some (i + 1, i + 2) },
    { data := { d with type := .fsmStates, name := "UCIS:STATE" } },
    { data := { d with type := .fsmTrans, name := "UCIS:TRANSITION" } }
  ] else
    [{ data := d }]

end ScopeObj

-- Objects that are added after the first `i`.
def NewObjs (i : Nat) (new : List ScopeObj) : Prop :=
  new ≠ [] ∧ ∀ j o, new[j]? = some o → ∀ c ∈ o.children, i + j < c ∧ c < i + new.length

theorem newObjs_create (i : Nat) (d : ScopeData) : NewObjs i (ScopeObj.create i d) := by
  rw [ScopeObj.create]
  split
  case isFalse => exact ⟨nofun, by rintro (_ | _) _ ⟨⟩ _ ⟨⟩⟩
  case isTrue =>
    refine ⟨nofun, fun j o ho c hc => ?_⟩
    match j with
    | 0 =>
      cases ho
      rcases List.mem_pair.mp hc with rfl | rfl <;> simp
    | 1 => cases ho; cases hc
    | 2 => cases ho; cases hc

theorem newObjs_singleton (i : Nat) (d : ScopeData) : NewObjs i [{ data := d }] :=
  ⟨nofun, by rintro (_ | _) _ ⟨⟩ _ ⟨⟩⟩

-- A scope is created after the scope it is created in.
structure ScopeHeap.Ordered (objs : List ScopeObj) (roots : List Nat) : Prop where
  roots    : ∀ i ∈ roots, i < objs.length
  children : ∀ i o, objs[i]? = some o → ∀ c ∈ o.children, i < c ∧ c < objs.length

namespace ScopeHeap.Ordered

variable {objs new : List ScopeObj} {roots roots' : List Nat} {i c : Nat}

theorem empty : Ordered [] [] where
  roots    := by simp
  children := by simp

theorem withRoots (h : Ordered objs roots) (hr : ∀ i ∈ roots', i < objs.length) :
    Ordered objs roots' where
  roots    := hr
  children := h.children

theorem modify (h : Ordered objs roots) {f : ScopeObj → ScopeObj}
    (hf : ∀ o, ∀ c ∈ (f o).children, c ∈ o.children ∨ i < c ∧ c < objs.length) :
    Ordered (objs.modify i f) roots where
  roots    := fun r hr => by simpa using h.roots r hr
  children := fun j o ho c hc => by
    rw [List.length_modify]
    rw [List.getElem?_modify] at ho
    have ⟨o', ho', he⟩ := Option.map_eq_some_iff.mp ho
    split at he
    case isFalse => exact h.children j o' ho' c (he ▸ hc)
    case isTrue hij =>
      cases hf o' c (he ▸ hc)
      case inl hc => exact h.children j o' ho' c hc
      case inr hc => exact hij ▸ hc

theorem append (h : Ordered objs roots) (hn : NewObjs objs.length new) :
    Ordered (objs ++ new) roots where
  roots    := fun r hr => by
    rw [List.length_append]
    exact Nat.lt_add_right _ (h.roots r hr)
  children := fun j o ho c hc => by
    rw [List.length_append]
    rw [List.getElem?_append] at ho
    split at ho
    case isTrue =>
      have ⟨hlt, hlt'⟩ := h.children j o ho c hc
      exact ⟨hlt, Nat.lt_add_right _ hlt'⟩
    case isFalse =>
      have ⟨hlt, hlt'⟩ := hn.2 _ o ho c hc
      omega

end ScopeHeap.Ordered

structure ScopeHeap where
  objs    : List ScopeObj
  roots   : List Nat
  ordered : ScopeHeap.Ordered objs roots

namespace ScopeHeap

def empty : ScopeHeap := ⟨[], [], .empty⟩

-- Adding new objects, the first of them as a child of a scope or of the database itself.
def insert (h : ScopeHeap) (parent : Option Nat) (new : List ScopeObj)
    (hn : NewObjs h.objs.length new) : ScopeHeap :=
  have hlt : h.objs.length < (h.objs ++ new).length := by
    rw [List.length_append]
    exact Nat.lt_add_of_pos_right (List.length_pos_of_ne_nil hn.1)
  match parent with
  | none   => {
    objs    := h.objs ++ new
    roots   := h.roots ++ [h.objs.length]
    ordered := (h.ordered.append hn).withRoots fun i hi => by
      cases List.mem_append.mp hi
      case inl hi => exact (h.ordered.append hn).roots i hi
      case inr hi => exact List.mem_singleton.mp hi ▸ hlt
  }
  | some p =>
    if hp : p < h.objs.length then {
      objs    := (h.objs ++ new).modify p (ScopeObj.addChild h.objs.length)
      roots   := h.roots
      ordered := (h.ordered.append hn).modify fun o c hc => by
        cases List.mem_append.mp hc
        case inl hc => exact .inl hc
        case inr hc => exact .inr (List.mem_singleton.mp hc ▸ ⟨hp, hlt⟩)
    } else
      h

-- Changing an object without giving it children.
def modifyObj (h : ScopeHeap) (i : Nat) (f : ScopeObj → ScopeObj)
    (hf : ∀ o, (f o).children ⊆ o.children) : ScopeHeap where
  objs    := h.objs.modify i f
  roots   := h.roots
  ordered := h.ordered.modify fun o _ hc => .inl (hf o hc)

-- An FSM scope has its sub-scopes for states and transitions already.
def fsmPart (h : ScopeHeap) (parent : Option Nat) (type : ScopeTypeT) : Option Nat :=
  (parent.bind (h.objs[·]?)).bind (·.fsmPart type)

def createScope (h : ScopeHeap) (parent : Option Nat) (d : ScopeData) : ScopeHeap :=
  match h.fsmPart parent d.type with
  | some part => h.modifyObj part (ScopeObj.rename d.name) fun _ => List.Subset.refl _
  | none      => h.insert parent (ScopeObj.create h.objs.length d) (newObjs_create ..)

def createInstance (h : ScopeHeap) (parent : Option Nat) (d : ScopeData) : ScopeHeap :=
  h.insert parent [{ data := d }] (newObjs_singleton ..)

-- Looking for the scope that has a child. The fuel bounds the nesting.
def parentOf (objs : List ScopeObj) (target : Nat) : (fuel : Nat) → Nat → Option Nat
  | 0,        _ => none
  | fuel + 1, p =>
    (objs[p]?).bind fun o =>
      if target ∈ o.children then some p else o.children.findSome? (parentOf objs target fuel)

def removeScope (h : ScopeHeap) (target : Nat) : ScopeHeap :=
  if target ∈ h.roots then {
    objs    := h.objs
    roots   := h.roots.erase target
    ordered := h.ordered.withRoots fun i hi => h.ordered.roots i (List.mem_of_mem_erase hi)
  } else
    match h.roots.findSome? (parentOf h.objs target h.objs.length) with
    | none   => h
    | some p => h.modifyObj p (ScopeObj.removeChild target) fun _ => List.erase_subset

-- The items of an FSM go to the sub-scope for transitions if their name has an arrow.
def coverTarget (h : ScopeHeap) (i : Nat) (name : String) : Nat :=
  match (h.objs[i]?).bind (·.fsmParts) with
  | none                       => i
  | some (states, transitions) => if ['-', '>'] <:+: name.toList then transitions else states

def createNextCover (h : ScopeHeap) (i : Nat) (ci : CoverIndex) : ScopeHeap :=
  h.modifyObj (h.coverTarget i ci.name) (ScopeObj.addCover ci) fun _ => List.Subset.refl _

def removeCover (h : ScopeHeap) (i : Nat) (coverindex : Int) : ScopeHeap :=
  h.modifyObj i (ScopeObj.removeCover coverindex) fun _ => by
    rw [ScopeObj.removeCover]
    split <;> exact List.Subset.refl _

end ScopeHeap
