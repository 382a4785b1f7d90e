import Mathlib.Tactic.Common

-- Programs over a state, and what holds of the state before and after them.

namespace Hoare

variable {σ α β γ : Type}

def run (m : StateM σ α) (s : σ) : α × σ :=
  m s

-- What is returned is told with the state after the program.
def Triple (P : σ → Prop) (m : StateM σ α) (Q : α → σ → Prop) : Prop :=
  ∀ s, P s → Q (run m s).fst (run m s).snd

-- A program that goes on only where the first part returns a good result
def andThen (good : α → Prop) [DecidablePred good] (m rest : StateM σ α) : StateM σ α := do
  let a ← m
  if good a then rest else return a

-- A program for each of the inputs
def runAll (f : γ → StateM σ α) (inputs : List γ) (s : σ) : σ :=
  inputs.foldl (fun s input => (run (f input) s).snd) s

variable {P P' : σ → Prop} {Q Q' : α → σ → Prop} {R : β → σ → Prop} {m : StateM σ α}

namespace Triple

theorem mono (h : Triple P m Q) (hp : ∀ s, P' s → P s) (hq : ∀ a s, Q a s → Q' a s) : Triple P' m Q' :=
  fun s hs => hq _ _ (h s (hp s hs))

theorem pre (h : Triple P m Q) (hp : ∀ s, P' s → P s) : Triple P' m Q :=
  h.mono hp fun _ _ hq => hq

theorem post (h : Triple P m Q) (hq : ∀ a s, Q a s → Q' a s) : Triple P m Q' :=
  h.mono (fun _ hp => hp) hq

theorem pure {a : α} (h : ∀ s, P s → Q a s) : Triple P (return a) Q :=
  h

theorem bind {f : α → StateM σ β} (hm : Triple P m Q) (hf : ∀ a, Triple (Q a) (f a) R) : Triple P (m >>= f) R :=
  fun s hs => hf _ _ (hm s hs)

-- What is read is the state, and it is kept.
theorem get {f : σ → StateM σ β} (hf : ∀ s, Triple (fun s' => s' = s ∧ P s) (f s) R) : Triple P (MonadState.get >>= f) R :=
  fun s hs => hf s s ⟨rfl, hs⟩

-- What holds before does not depend on what is read.
theorem read {f : σ → StateM σ β} (hf : ∀ s, Triple P (f s) R) : Triple P (MonadState.get >>= f) R :=
  get fun s => (hf s).pre fun _ h => h.left ▸ h.right

theorem modify {f : σ → σ} {Q : PUnit → σ → Prop} (h : ∀ s, P s → Q ⟨⟩ (f s)) : Triple P (modify f) Q :=
  h

theorem ite {c : Prop} [Decidable c] {m' : StateM σ α} (hm : c → Triple P m Q) (hm' : ¬c → Triple P m' Q) :
    Triple P (if c then m else m') Q := by
  split
  case isTrue h  => exact hm h
  case isFalse h => exact hm' h

-- What is done in some cases before the rest, and leaves what holds
theorem when {c : Prop} [Decidable c] {n : StateM σ PUnit} (hn : Triple P n fun _ => P) (hm : Triple P m Q) :
    Triple P (if c then n >>= fun _ => m else m) Q :=
  ite (fun _ => hn.bind fun _ => hm) fun _ => hm

-- Where the first part does not return a good result, nothing else is done.
theorem andThen {good : α → Prop} [DecidablePred good] {rest : StateM σ α} (hm : Triple P m Q)
    (hrest : ∀ a, good a → Triple (Q a) rest Q') (hbad : ∀ a s, ¬good a → Q a s → Q' a s) :
    Triple P (andThen good m rest) Q' :=
  hm.bind fun a => .ite (hrest a) fun ha s hs => hbad a s ha hs

-- What each program does to a state of its own, the programs do one after the other.
theorem runAll {f : γ → StateM σ α} {I : β → σ → Prop} {step : β → γ → β}
    (h : ∀ b input, Triple (I b) (f input) fun _ => I (step b input)) {b : β} (inputs : List γ) {s : σ} (hs : I b s) :
    I (inputs.foldl step b) (Hoare.runAll f inputs s) := by
  induction inputs generalizing b s
  case nil                  => exact hs
  case cons input inputs hi => exact hi (h b input s hs)

end Triple

end Hoare
