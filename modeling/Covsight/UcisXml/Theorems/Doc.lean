import Covsight.UcisXml.Branch
import Covsight.UcisXml.Theorems.Key

-- Which trees of scopes the C++ writer can write.

open Xml

-- What a caller has in mind: the scopes by their full names. The innermost open scope comes first.

abbrev ScopePath :=
  List Text

structure ScopeWalk where
  stack  : List ScopePath := []
  opened : List ScopePath := []
  closed : List ScopePath := []

namespace ScopeWalk

variable (w : ScopeWalk)

-- The full name of the scope that a step opens.
def path : DocStep → Option ScopePath
  | .scope name _        => some [name]
  | .child handle name _ => w.stack[handle]?.map (· ++ [name])
  | .close               => none

def advance (step : DocStep) : ScopeWalk :=
  match w.path step with
  | some p => { w with stack := p :: w.stack, opened := p :: w.opened }
  | none   =>
    match step with
    | .close => { w with stack := w.stack.tail, closed := w.stack.take 1 ++ w.closed }
    | _      => w

-- Siblings have distinct names, a child has an open parent, and only an open scope is closed.
def Allows : DocStep → Prop
  | .close => w.stack ≠ []
  | step   => ∃ p ∈ w.path step, p ∉ w.opened

instance (step : DocStep) : Decidable (w.Allows step) :=
  match step with
  | .close     => inferInstanceAs (Decidable (w.stack ≠ []))
  | .scope ..  => inferInstanceAs (Decidable (∃ p ∈ w.path _, p ∉ w.opened))
  | .child ..  => inferInstanceAs (Decidable (∃ p ∈ w.path _, p ∉ w.opened))

-- Scopes that are opened and closed in a properly nested order, until none is open.
def Proper : ScopeWalk → List DocStep → Prop
  | w, []            => w.stack = []
  | w, step :: steps => w.Allows step ∧ (w.advance step).Proper steps

instance decidableProper : (w : ScopeWalk) → (steps : List DocStep) → Decidable (w.Proper steps)
  | w, []            => inferInstanceAs (Decidable (w.stack = []))
  | w, step :: steps =>
    have := decidableProper (w.advance step) steps
    inferInstanceAs (Decidable (w.Allows step ∧ (w.advance step).Proper steps))

end ScopeWalk

def DocStep.name? : DocStep → Option Text
  | .scope name _   => some name
  | .child _ name _ => some name
  | .close          => none

namespace DocHandles

variable {ss : DocHandles} {w : ScopeWalk}

-- Every parent that an element names is an element of the document.
def Linked (elements : List StagedScope) : Prop :=
  ∀ s ∈ elements, ∀ p ∈ s.parentInstanceId, p ∈ elements.map (·.instanceId)

-- Every scope can be opened, one that was closed before is told, and the parents are written.
def Behaves : DocHandles → ScopeWalk → List DocStep → Prop
  | ss, _, []            => Linked ss.doc.body
  | ss, w, step :: steps =>
    (∀ p, w.path step = some p →
      (∃ s handles, (ss.apply step).handles = some s :: handles) ∧
      ((ss.apply step).doc.code = some .scopeReopened ↔ p ∈ w.closed)) ∧
    (ss.apply step).Behaves (w.advance step) steps

-- Scopes are below their parents.
def Rooted : List StagedScope → Prop
  | []         => True
  | s :: stack => (∀ p ∈ s.parentInstanceId, p ∈ stack.map (·.instanceId)) ∧ Rooted stack

-- As long as no name comes twice, all is as the caller has it in mind.
structure Follows (ss : DocHandles) (w : ScopeWalk) (names : List Text) : Prop where
  code    : ss.doc.code = none
  names   : ∃ pairs, ss.doc.scopeNames.Holds ss.doc.scopeArena pairs ∧ pairs.map Prod.fst = names
  handles : ss.handles = ss.doc.stack.map some
  stack   : w.stack.length = ss.doc.stack.length
  rooted  : Rooted ss.doc.stack
  body    : ∀ s ∈ ss.doc.body, ∀ p ∈ s.parentInstanceId, p ∈ (ss.doc.body ++ ss.doc.stack).map (·.instanceId)
  opened  : ∀ p ∈ w.stack ++ w.closed, p ∈ w.opened

theorem follows_empty : Follows {} {} [] where
  code    := rfl
  names   := ⟨[], .empty, rfl⟩
  handles := rfl
  stack   := rfl
  rooted  := trivial
  body    := nofun
  opened  := nofun

namespace Follows

variable {names : List Text} {name moduleName : Text} {parent : Option StagedScope}

theorem opening_of_mem (h : Follows ss w names) (hn : name ∈ names) :
    (ss.opening name moduleName parent).handles = none :: ss.handles := by
  have ⟨pairs, hh, hnames⟩ := h.names
  cases hh.getOrAdd name ss.doc.scopeCount with
  | inl hold =>
    have ⟨v, m, _, ho, _⟩ := hold
    simp [DocHandles.opening, Doc.beginScope, h.code, ho]
  | inr hnew => exact absurd (hnames ▸ hn) hnew.1

theorem opening_of_not_mem (h : Follows ss w names) (hn : name ∉ names) (hp : ∀ s ∈ parent, s ∈ ss.doc.stack)
    {p : ScopePath} {w' : ScopeWalk} (hw : w' = { w with stack := p :: w.stack, opened := p :: w.opened }) :
    (ss.opening name moduleName parent).handles = some (ss.doc.newScope name moduleName parent) :: ss.handles ∧
    (ss.opening name moduleName parent).Follows w' (name :: names) := by
  have ⟨pairs, hh, hnames⟩ := h.names
  subst hw
  cases hh.getOrAdd name ss.doc.scopeCount with
  | inl hold =>
    have ⟨v, m, hv, _⟩ := hold
    exact absurd (hnames ▸ List.mem_map_of_mem hv) hn
  | inr hnew =>
    have ⟨_, arena, m, ho, hh'⟩ := hnew
    have hs : ss.opening name moduleName parent = {
        doc := { ss.doc with
          scopeArena     := arena
          scopeNames     := m
          stack          := ss.doc.newScope name moduleName parent :: ss.doc.stack
          nextInstanceId := ss.doc.nextInstanceId + 1 }
        handles := some (ss.doc.newScope name moduleName parent) :: ss.handles } := by
      simp [DocHandles.opening, Doc.beginScope, h.code, ho, Doc.newScope]
    rw [hs]
    refine ⟨rfl, ?_⟩
    constructor
    case code    => exact h.code
    case names   => exact ⟨_, hh', by rw [List.map_cons, hnames]⟩
    case handles => rw [h.handles]; rfl
    case stack   => simp [h.stack]
    case rooted  =>
      refine ⟨fun id hid => ?_, h.rooted⟩
      have ⟨s, hs, he⟩ := Option.map_eq_some_iff.mp hid
      exact he ▸ List.mem_map_of_mem (hp s hs)
    case body    =>
      intro s hs id hid
      have hm := h.body s hs id hid
      simp only [List.map_append, List.map_cons, List.mem_append, List.mem_cons] at hm ⊢
      exact hm.imp_right .inr
    case opened  =>
      intro q hq
      simp only [List.cons_append, List.mem_cons] at hq ⊢
      exact hq.imp_right (h.opened q)

theorem closing (h : Follows ss w names) (hw : w.stack ≠ []) : (ss.apply .close).Follows (w.advance .close) names := by
  obtain ⟨top, rest, hr⟩ := List.exists_cons_of_ne_nil hw
  obtain ⟨s, stack, hs⟩ : ∃ s stack, ss.doc.stack = s :: stack := by
    apply List.exists_cons_of_ne_nil
    intro he
    have hl := h.stack
    simp [hr, he] at hl
  have hd : ss.apply .close = {
      doc := { ss.doc with body := ss.doc.body ++ [s], scopeCount := ss.doc.scopeCount + 1, stack }
      handles := stack.map some } := by
    simp [DocHandles.apply, DocHandles.closing, h.handles, hs, Doc.endScope, h.code]
  have hrooted := h.rooted
  rw [hs] at hrooted
  rw [hd]
  constructor
  case code    => exact h.code
  case names   => exact h.names
  case handles => rfl
  case stack   =>
    have hl := h.stack
    simp only [hr, hs, List.length_cons] at hl
    simpa [ScopeWalk.advance, ScopeWalk.path, hr] using hl
  case rooted  => exact hrooted.2
  case body    =>
    intro s' hs' id hid
    have hm := h.body
    simp only [hs, List.map_append, List.map_cons, List.map_nil, List.mem_append, List.mem_cons, List.not_mem_nil,
      or_false, List.mem_append, or_assoc] at hm hs' ⊢
    rcases hs' with hs' | rfl
    · exact hm s' hs' id hid
    · exact .inr <| .inr <| hrooted.1 id hid
  case opened  =>
    intro q hq
    apply h.opened
    simp only [ScopeWalk.advance, ScopeWalk.path, hr, List.tail_cons, List.take_succ_cons, List.take_zero, List.mem_append,
      List.mem_cons, List.not_mem_nil, or_false] at hq ⊢
    tauto

-- A step that opens a scope.
theorem exists_opening (h : Follows ss w names) {step : DocStep} {p : ScopePath} (hp : w.path step = some p) :
    ∃ name moduleName parent, step.name? = some name ∧ (∀ s ∈ parent, s ∈ ss.doc.stack) ∧
      ss.apply step = ss.opening name moduleName parent ∧
      w.advance step = { w with stack := p :: w.stack, opened := p :: w.opened } := by
  cases step with
  | scope name moduleName        =>
    exact ⟨name, moduleName, none, rfl, nofun, rfl, by simp only [ScopeWalk.advance, hp]⟩
  | child handle name moduleName =>
    have ⟨q, hq, _⟩ := Option.map_eq_some_iff.mp hp
    have ⟨hlt, _⟩ := List.getElem?_eq_some_iff.mp hq
    rw [h.stack] at hlt
    have hs : ss.handles[handle]? = some (some ss.doc.stack[handle]) := by
      rw [h.handles, List.getElem?_map, List.getElem?_eq_getElem hlt]
      rfl
    refine ⟨name, moduleName, some ss.doc.stack[handle], rfl, ?_, by rw [DocHandles.apply, hs],
      by simp only [ScopeWalk.advance, hp]⟩
    rintro s ⟨⟩
    exact List.getElem_mem hlt
  | close                        => cases hp

theorem behaves_iff (h : Follows ss w names) {steps : List DocStep} (hp : w.Proper steps) :
    ss.Behaves w steps ↔ (∀ name ∈ steps.filterMap (·.name?), name ∉ names) ∧ (steps.filterMap (·.name?)).Nodup := by
  induction steps generalizing ss w names with
  | nil             =>
    have hs : ss.doc.stack = [] := by
      have hl := h.stack
      rw [show w.stack = [] from hp] at hl
      exact List.length_eq_zero_iff.mp hl.symm
    have hb := h.body
    rw [hs, List.append_nil] at hb
    simpa [Behaves, Linked] using hb
  | cons step steps hi =>
    have ⟨ha, hp⟩ := hp
    cases hpath : w.path step with
    | none   =>
      obtain rfl : step = .close := by
        cases step with
        | close           => rfl
        | scope name m    => cases hpath
        | child i name m  =>
          have ⟨_, hs, _⟩ := ha
          cases hpath.symm.trans hs
      rw [Behaves, hi (h.closing ha) hp]
      simp [DocStep.name?, ScopeWalk.path]
    | some p =>
      have hnew : p ∉ w.opened := by
        cases step with
        | close          => cases hpath
        | scope name m   =>
          have ⟨_, hs, hn⟩ := ha
          cases hpath.symm.trans hs
          exact hn
        | child i name m =>
          have ⟨_, hs, hn⟩ := ha
          cases hpath.symm.trans hs
          exact hn
      have ⟨name, moduleName, parent, hname, hparent, hss, hw⟩ := h.exists_opening hpath
      rw [Behaves, List.filterMap_cons, hname]
      simp only [List.forall_mem_cons, List.nodup_cons, hpath, Option.some.injEq, forall_eq']
      by_cases hn : name ∈ names
      case pos =>
        have hhandles : (ss.opening name moduleName parent).handles = none :: ss.handles := h.opening_of_mem hn
        simp [hss, hhandles, hn]
      case neg =>
        have ⟨hhandles, hf⟩ :
            (ss.opening name moduleName parent).handles = some (ss.doc.newScope name moduleName parent) :: ss.handles ∧
              (ss.opening name moduleName parent).Follows _ (name :: names) :=
          h.opening_of_not_mem hn hparent hw
        have hclosed : p ∉ w.closed := fun hc => hnew <| h.opened p <| List.mem_append_right _ hc
        rw [hss, hi hf hp, hf.code]
        have hopened : ∃ s handles, (ss.opening name moduleName parent).handles = some s :: handles := ⟨_, _, hhandles⟩
        have hrest : (∀ x ∈ steps.filterMap (·.name?), x ∉ name :: names) ↔
            name ∉ steps.filterMap (·.name?) ∧ ∀ x ∈ steps.filterMap (·.name?), x ∉ names := by
          simp only [List.mem_cons, not_or, imp_and, forall_and, List.forall_mem_ne']
        simp only [hopened, hclosed, hn, reduceCtorEq, hrest, iff_self, true_and, not_false_eq_true, and_assoc]
        tauto

end Follows

end DocHandles

-- Scopes with distinct siblings can be written exactly when no two of them have the same name, wherever they are.
theorem writes_scopes_iff {steps : List DocStep} (h : ScopeWalk.Proper {} steps) :
    DocHandles.Behaves {} {} steps ↔ (steps.filterMap (·.name?)).Nodup := by
  rw [DocHandles.follows_empty.behaves_iff h]
  exact and_iff_right nofun

def aluUnits : List DocStep := [
  .scope (ascii ['a']) [], .child 0 (ascii ['u']) [], .close, .close,
  .scope (ascii ['b']) [], .child 0 (ascii ['v']) [], .close, .close]

theorem writes_scopes_aluUnits :
    DocHandles.Behaves {} {} aluUnits ↔ (aluUnits.filterMap (·.name?)).Nodup :=
  writes_scopes_iff (by decide)

-- Two units of the same name below different parents.
def sameUnits : List DocStep := [
  .scope (ascii ['a']) [], .child 0 (ascii ['u']) [], .close, .close,
  .scope (ascii ['b']) [], .child 0 (ascii ['u']) [], .close, .close]

theorem same_unit_reopened : ScopeWalk.Proper {} sameUnits ∧ ¬DocHandles.Behaves {} {} sameUnits := by
  have hp : ScopeWalk.Proper {} sameUnits := by decide
  refine ⟨hp, fun h => ?_⟩
  have hn := (DocHandles.follows_empty.behaves_iff hp).mp h
  exact absurd hn.2 (by decide)
