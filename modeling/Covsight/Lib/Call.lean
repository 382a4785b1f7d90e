import Mathlib.Tactic.Common
import Mathlib.Data.List.Basic

-- Operations in sequence of which each may fail.

section

universe u

variable {ε : Type*} {α β : Type u} {m : Except ε α} {f : α → Except ε β} {y : β} {e : ε}

theorem bind_ok_iff : m >>= f = .ok y ↔ ∃ x, m = .ok x ∧ f x = .ok y := by
  cases m <;> simp [bind, Except.bind]

theorem bind_error_iff :
    m >>= f = .error e ↔ m = .error e ∨ ∃ x, m = .ok x ∧ f x = .error e := by
  cases m <;> simp [bind, Except.bind]

theorem bind_ok (h : m >>= f = .ok y) : ∃ x, m = .ok x ∧ f x = .ok y :=
  bind_ok_iff.mp h

theorem map_ok {g : α → β} (h : m.map g = .ok y) : ∃ x, m = .ok x ∧ g x = y := by
  cases m with
  | error _ => cases h
  | ok x    => exact ⟨x, rfl, Except.ok.inj h⟩

theorem mapM_ok {xs : List α} {ys : List β} (h : xs.mapM f = .ok ys) : xs.Forall₂ (fun x y => f x = .ok y) ys := by
  induction xs generalizing ys with
  | nil          =>
    cases h
    exact .nil
  | cons x xs hi =>
    rw [List.mapM_cons] at h
    have ⟨y, hy, h⟩ := bind_ok h
    have ⟨ys, hys, h⟩ := bind_ok h
    cases h
    exact .cons hy (hi hys)

end

-- Calls that change an object and may raise on the way. What was changed by then stays changed.

def Call (σ α : Type) : Type :=
  σ → Option α × σ

namespace Call

variable {σ α β : Type} {c : Call σ α} {f : α → Call σ β} {s s' : σ} {a : α}

def bind (c : Call σ α) (f : α → Call σ β) : Call σ β := fun s =>
  match c s with
  | (some a, s) => f a s
  | (none,   s) => (none, s)

instance : Monad (Call σ) where
  pure a s := (some a, s)
  bind := bind

def get : Call σ σ := fun s =>
  (some s, s)

def modify (g : σ → σ) : Call σ Unit := fun s =>
  (some (), g s)

-- What is read from the object, if it can be.
def read (g : σ → Option α) : Call σ α := fun s =>
  (g s, s)

def check (p : σ → Bool) : Call σ Unit := fun s =>
  (if p s then some () else none, s)

theorem bind_of_some (h : c s = (some a, s')) : (c >>= f) s = f a s' := by
  change bind c f s = _
  rw [bind, h]

theorem bind_of_none (h : c s = (none, s')) : (c >>= f) s = (none, s') := by
  change bind c f s = _
  rw [bind, h]

theorem bind_get (f : σ → Call σ β) : (get >>= f) s = f s s :=
  rfl

theorem bind_modify (g : σ → σ) (f : Unit → Call σ β) : (modify g >>= f) s = f () (g s) :=
  rfl

theorem bind_check (p : σ → Bool) (f : Unit → Call σ β) :
    (check p >>= f) s = if p s then f () s else (none, s) := by
  cases h : p s
  case true  => exact bind_of_some (by rw [check, h]; rfl)
  case false => exact bind_of_none (by rw [check, h]; rfl)

theorem bind_read (g : σ → Option α) (f : α → Call σ β) :
    (read g >>= f) s = (g s).elim (none, s) (f · s) := by
  cases h : g s
  case none   => exact bind_of_none (by rw [read, h])
  case some a => exact bind_of_some (by rw [read, h])

-- What holds after a call, by what it returned, where something held before.
def Ensures (c : Call σ α) (p : σ → Prop) (q : Option α → σ → Prop) : Prop :=
  ∀ s, p s → q (c s).fst (c s).snd

namespace Ensures

variable {p p' : σ → Prop} {q : Option α → σ → Prop} {r : Option β → σ → Prop}

theorem bind (hc : c.Ensures p q) (hf : ∀ a, (f a).Ensures (q (some a)) r)
    (hn : ∀ s, q none s → r none s) : (c >>= f).Ensures p r := by
  intro s hp
  have hq := hc s hp
  rcases hs : c s with ⟨_ | a, s'⟩ <;> rw [hs] at hq
  case none =>
    rw [bind_of_none hs]
    exact hn s' hq
  case some =>
    rw [bind_of_some hs]
    exact hf a s' hq

end Ensures

-- A call that gives a value, or raises if there is none, and after which what held before holds again.
def Looks (p : σ → Prop) (c : Call σ α) (value : Option α) : Prop :=
  c.Ensures p fun a s => p s ∧ a = value

namespace Looks

variable {p : σ → Prop} {value : Option α} {g : α → Option β}

theorem pure (a : α) : Looks p (Pure.pure a) (some a) :=
  fun _ hs => ⟨hs, rfl⟩

theorem read {g : σ → Option α} (h : ∀ s, p s → g s = value) : Looks p (.read g) value :=
  fun s hs => ⟨hs, h s hs⟩

theorem bind (hc : Looks p c value) (hf : ∀ a, value = some a → Looks p (f a) (g a)) :
    Looks p (c >>= f) (value.bind g) := by
  intro s hs
  have ⟨hs', hv⟩ := hc s hs
  rcases he : c s with ⟨_ | a, s'⟩ <;> rw [he] at hs' hv
  case none =>
    rw [Call.bind_of_none he, ← hv]
    exact ⟨hs', rfl⟩
  case some =>
    rw [Call.bind_of_some he, ← hv]
    exact hf a hv.symm s' hs'

theorem map (hc : Looks p c value) (h : α → β) : Looks p (do return h (← c)) (value.map h) :=
  Option.map_eq_bind ▸ hc.bind fun a _ => pure (h a)

end Looks

end Call

-- Runs of an object that is changed step by step.

variable {σ α : Type}

-- What is reached by steps that meet a condition each.
inductive ReachedBy (apply : α → σ → σ) (meets : σ → α → Prop) (start : σ) : σ → Prop
  | start : ReachedBy apply meets start start
  | step {s : σ} (step : α) (reached : ReachedBy apply meets start s) (met : meets s step) :
    ReachedBy apply meets start (apply step s)

namespace ReachedBy

variable {apply : α → σ → σ} {meets : σ → α → Prop} {start s : σ}

theorem invariant {p : σ → Prop} (hp : p start) (hs : ∀ s step, p s → meets s step → p (apply step s))
    (h : ReachedBy apply meets start s) : p s := by
  induction h with
  | start            => exact hp
  | step step _ m hi => exact hs _ step hi m

end ReachedBy

-- Nested applications of a fallible operation on non-empty lists.

inductive Plan (α β : Type)
  | source (a : α)
  | merge (label : β) (first : Plan α β) (rest : List (Plan α β))

namespace Plan

variable {α β ε : Type}

mutual

-- The values a plan starts from, in order.
def sources : Plan α β → List α
  | source a           => [a]
  | merge _ first rest => first.sources ++ sourcesAll rest

def sourcesAll : List (Plan α β) → List α
  | []      => []
  | p :: ps => p.sources ++ sourcesAll ps

end

variable (f : β → α → List α → Except ε α)

mutual

def run : Plan α β → Except ε α
  | source a               => .ok a
  | merge label first rest => do
    let a ← first.run
    let as ← runAll rest
    f label a as

def runAll : List (Plan α β) → Except ε (List α)
  | []      => .ok []
  | p :: ps => do
    let a ← p.run
    let as ← runAll ps
    return a :: as

end

-- One application to the values themselves.
def flat (label : β) (a : α) (as : List α) : Plan α β :=
  merge label (source a) (as.map source)

@[simp]
theorem sourcesAll_map_source (as : List α) : sourcesAll (as.map (source (β := β))) = as := by
  induction as
  case nil          => rfl
  case cons a as hi => rw [List.map_cons, sourcesAll, hi, sources]; rfl

@[simp]
theorem sources_flat (label : β) (a : α) (as : List α) : (flat label a as).sources = a :: as := by
  rw [flat, sources, sourcesAll_map_source, sources]
  rfl

theorem runAll_map_source (as : List α) : runAll f (as.map source) = .ok as := by
  induction as
  case nil          => rfl
  case cons a as hi => rw [List.map_cons, runAll, hi, run]; rfl

theorem run_flat (label : β) (a : α) (as : List α) : (flat label a as).run f = f label a as := by
  rw [flat, run, runAll_map_source, run]
  rfl

section Induction

variable {f} {P : List α → α → Prop}

-- What relates the sources of a plan to its result: it holds of every source itself and the
-- operation preserves it.
structure Preserved (f : β → α → List α → Except ε α) (P : List α → α → Prop) : Prop where
  source : ∀ a, P [a] a
  merge  : ∀ {label first rest sources out}, List.Forall₂ P sources (first :: rest) →
    f label first rest = .ok out → P sources.flatten out

namespace Preserved

mutual

theorem run (hp : Preserved f P) :
    (p : Plan α β) → {out : α} → p.run f = .ok out → P p.sources out
  | .source a, out, h => by
    cases h
    exact hp.source a
  | .merge label first rest, out, h => by
    have ⟨a, ha, h⟩ := bind_ok h
    have ⟨as, has, h⟩ := bind_ok h
    have ⟨rests, hr, hps⟩ := hp.runAll rest has
    rw [sources, hr, ← List.flatten_cons]
    exact hp.merge (.cons (hp.run first ha) hps) h

theorem runAll (hp : Preserved f P) : (ps : List (Plan α β)) → {as : List α} → Plan.runAll f ps = .ok as →
    ∃ rests, sourcesAll ps = rests.flatten ∧ List.Forall₂ P rests as
  | [], as, h => by
    cases h
    exact ⟨[], rfl, .nil⟩
  | p :: ps, as, h => by
    have ⟨a, ha, h⟩ := bind_ok h
    have ⟨as, has, h⟩ := bind_ok h
    cases h
    have ⟨rests, hr, hps⟩ := hp.runAll ps has
    refine ⟨p.sources :: rests, ?_, .cons (hp.run p ha) hps⟩
    rw [sourcesAll, hr, List.flatten_cons]

end

end Preserved

end Induction

end Plan
