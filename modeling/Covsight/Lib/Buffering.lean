import Mathlib.Data.List.Basic
import Mathlib.Data.List.Infix
import Mathlib.Tactic.Common

-- Output that is collected and handed to a sink in calls, until the sink refuses one.

variable {α : Type*}

-- A sink, told by whether it takes the last of the calls made so far.
abbrev Accepts (α : Type*) := List (List α) → Bool

-- What was handed over, what is still held back, and whether there was a failure, against what was written.
structure Carries (accepts : Accepts α) (written : List α) (calls : List (List α)) (pending : List α) (ok : Prop) :
    Prop where
  cut      : calls.flatten <+: written
  unbroken : ∀ k, 0 < k → k < calls.length → accepts (calls.take k) = true
  whole    : ok → calls.flatten ++ pending = written ∧ (calls ≠ [] → accepts calls = true)

-- The last call was refused.
def SinkRefused (accepts : Accepts α) (calls : List (List α)) : Prop :=
  calls ≠ [] ∧ accepts calls = false

namespace Carries

variable {accepts : Accepts α} {written pending : List α} {calls : List (List α)} {ok ok' : Prop}

theorem nil (accepts : Accepts α) : Carries accepts [] [] [] ok where
  cut      := List.nil_prefix
  unbroken := fun _ _ h => absurd h (Nat.not_lt_zero _)
  whole    := fun _ => ⟨rfl, fun h => absurd rfl h⟩

-- What is only held back is not lost.
theorem hold (hc : Carries accepts written calls pending ok) (s : List α) :
    Carries accepts (written ++ s) calls (pending ++ s) ok where
  cut      := hc.cut.trans (List.prefix_append ..)
  unbroken := hc.unbroken
  whole ho := by
    have ⟨hw, ha⟩ := hc.whole ho
    exact ⟨by rw [← List.append_assoc, hw], ha⟩

-- After a failure nothing more is promised of what is written.
theorem drop (hc : Carries accepts written calls pending ok) (ho : ¬ok') (s held : List α) :
    Carries accepts (written ++ s) calls held ok' where
  cut      := hc.cut.trans (List.prefix_append ..)
  unbroken := hc.unbroken
  whole h  := absurd h ho

theorem fail (hc : Carries accepts written calls pending ok) (ho : ¬ok') (held : List α) :
    Carries accepts written calls held ok' := by
  have hd := hc.drop ho [] held
  rwa [List.append_nil] at hd

-- A call with what is held back first. That no earlier call was refused is what lets it be made.
theorem send {s held : List α} (hc : Carries accepts written calls (s ++ held) ok) (ho : ok)
    (hr : ok' → accepts (calls ++ [s]) = true) : Carries accepts written (calls ++ [s]) held ok' where
  cut := by
    have ⟨hw, _⟩ := hc.whole ho
    rw [← hw, List.flatten_append, List.flatten_singleton, ← List.append_assoc]
    exact List.prefix_append ..
  unbroken := by
    intro k h0 hk
    rw [List.length_append, List.length_singleton, Nat.lt_succ_iff] at hk
    rw [List.take_append_of_le_length hk]
    rcases Nat.lt_or_eq_of_le hk with hk | rfl
    · exact hc.unbroken k h0 hk
    · rw [List.take_length]
      exact (hc.whole ho).right (List.ne_nil_of_length_pos h0)
  whole ho' := by
    have ⟨hw, _⟩ := hc.whole ho
    refine ⟨?_, fun _ => hr ho'⟩
    rw [← hw, List.flatten_append, List.flatten_singleton, List.append_assoc]

end Carries
