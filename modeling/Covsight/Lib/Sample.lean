import Mathlib.Algebra.BigOperators.Ring.List
import Mathlib.Algebra.Field.Basic
import Mathlib.Algebra.Order.BigOperators.Group.List
import Mathlib.Algebra.Order.Field.Basic
import Mathlib.Tactic.FieldSimp
import Mathlib.Tactic.LinearCombination
import Mathlib.Tactic.Positivity
import Mathlib.Tactic.Ring

-- The mean and the spread of a sample that grows by one value at a time.

namespace Sample

variable {K : Type*} [Field K]

-- The mean of an empty sample is zero.
def mean (xs : List K) : K :=
  xs.sum / xs.length

-- The sum of the squared deviations from the mean.
def squares (xs : List K) : K :=
  (xs.map fun x => (x - mean xs) ^ 2).sum

theorem mean_nil : mean ([] : List K) = 0 := by
  rw [mean, List.sum_nil, zero_div]

theorem sum_deviations (xs : List K) (m : K) :
    (xs.map fun x => (x - m) ^ 2).sum = (xs.map (· ^ 2)).sum - 2 * m * xs.sum + xs.length * m ^ 2 := by
  induction xs with
  | nil          => simp
  | cons x xs hi =>
    simp only [List.map_cons, List.sum_cons, hi, List.length_cons, Nat.cast_succ]
    ring

section

variable [CharZero K]

theorem sum_eq (xs : List K) : xs.sum = xs.length * mean xs := by
  rw [mean]
  cases xs with
  | nil       => simp
  | cons x xs =>
    have hn : ((x :: xs).length : K) ≠ 0 := Nat.cast_ne_zero.mpr (Nat.succ_ne_zero _)
    rw [mul_div_cancel₀ _ hn]

theorem squares_eq (xs : List K) : squares xs = (xs.map (· ^ 2)).sum - xs.length * mean xs ^ 2 := by
  rw [squares, sum_deviations, sum_eq xs]
  ring

theorem mean_concat (xs : List K) (x : K) :
    mean (xs ++ [x]) = mean xs + (x - mean xs) / (xs.length + 1 : Nat) := by
  have hn : ((xs.length + 1 : Nat) : K) ≠ 0 := Nat.cast_ne_zero.mpr (Nat.succ_ne_zero _)
  have hl : (xs ++ [x]).length = xs.length + 1 := by simp
  rw [mean, hl, div_eq_iff hn, add_mul, div_mul_cancel₀ _ hn, List.sum_append, List.sum_singleton, sum_eq,
    Nat.cast_succ]
  ring

-- The spread is updated from the deviations from the old mean and from the new one.
theorem squares_concat (xs : List K) (x : K) :
    squares (xs ++ [x]) = squares xs + (x - mean xs) * (x - mean (xs ++ [x])) := by
  have hn : ((xs.length + 1 : Nat) : K) ≠ 0 := Nat.cast_ne_zero.mpr (Nat.succ_ne_zero _)
  have hm : mean (xs ++ [x]) * (xs.length + 1 : Nat) = xs.length * mean xs + x := by
    rw [mean_concat, add_mul, div_mul_cancel₀ _ hn, Nat.cast_succ]
    ring
  have hl : (xs ++ [x]).length = xs.length + 1 := by simp
  rw [squares_eq, squares_eq xs, hl, List.map_append, List.sum_append, List.map_singleton,
    List.sum_singleton]
  linear_combination (-mean xs - mean (xs ++ [x])) * hm + mean xs * mean (xs ++ [x]) * Nat.cast_succ (R := K) xs.length

theorem mean_of_forall {xs : List K} {c : K} (hn : xs ≠ []) (h : ∀ x ∈ xs, x = c) : mean xs = c := by
  have hl : (xs.length : K) ≠ 0 := Nat.cast_ne_zero.mpr <| mt List.length_eq_zero_iff.mp hn
  rw [mean, List.eq_replicate_of_mem h, List.sum_replicate, List.length_replicate, nsmul_eq_mul,
    mul_div_cancel_left₀ _ hl]

end

theorem squares_eq_zero_iff [LinearOrder K] [IsStrictOrderedRing K] {xs : List K} :
    squares xs = 0 ↔ ∀ x ∈ xs, x = mean xs := by
  have hn : ∀ d ∈ xs.map fun x => (x - mean xs) ^ 2, 0 ≤ d := by
    simpa only [List.forall_mem_map] using fun x _ => sq_nonneg _
  constructor
  case mp =>
    intro h x hx
    have hx := List.all_zero_of_le_zero_le_of_sum_eq_zero hn h (List.mem_map_of_mem hx)
    exact sub_eq_zero.mp <| pow_eq_zero_iff two_ne_zero |>.mp hx
  case mpr =>
    intro h
    refine List.sum_eq_zero ?_
    simp only [List.forall_mem_map, pow_eq_zero_iff two_ne_zero, sub_eq_zero]
    exact h

end Sample
