import Mathlib.Data.List.Basic

-- A list that is split at a letter.

namespace Splitting

variable {α : Type*} [DecidableEq α] {a b : α} {w : List α}

theorem splitOn_cons (c : α) : (c :: w).splitOn a = if c = a then [] :: w.splitOn a else (w.splitOn a).modifyHead (c :: ·) := by
  rw [List.splitOn_cons_eq_if_modifyHead]
  simp

-- What else is in the parts is in the list.
theorem mem_splitOn_iff (hb : b ≠ a) : (∃ t ∈ w.splitOn a, b ∈ t) ↔ b ∈ w := by
  induction w with
  | nil         => simp
  | cons c w hi =>
    rw [splitOn_cons]
    split
    case isTrue hc  => simp [hi, hc, hb]
    case isFalse hc =>
      have ⟨t, ts, ht⟩ := List.exists_cons_of_ne_nil (List.splitOn_ne_nil a w)
      rw [ht] at hi ⊢
      have hc : (∃ p ∈ (c :: t) :: ts, b ∈ p) ↔ b = c ∨ ∃ p ∈ t :: ts, b ∈ p := by
        simp only [List.mem_cons, or_and_right, exists_or, exists_eq_left, or_assoc]
      rw [List.modifyHead_cons, hc, hi, List.mem_cons]

-- The letter is in no part.
theorem not_mem_of_mem_splitOn {t : List α} (h : t ∈ w.splitOn a) : a ∉ t := by
  induction w generalizing t with
  | nil         => simp_all
  | cons c w hi =>
    rw [splitOn_cons] at h
    split at h
    case isTrue hc  =>
      cases h with
      | head     => exact List.not_mem_nil
      | tail _ h => exact hi h
    case isFalse hc =>
      have ⟨p, ps, hp⟩ := List.exists_cons_of_ne_nil (List.splitOn_ne_nil a w)
      rw [hp] at hi h
      cases h with
      | head     => exact List.not_mem_cons_of_ne_of_not_mem (Ne.symm hc) (hi (.head _))
      | tail _ h => exact hi (.tail _ h)

theorem splitOn_eq_singleton_iff {t : List α} : w.splitOn a = [t] ↔ w = t ∧ a ∉ t := by
  constructor
  · intro h
    have hw : [a].intercalate (w.splitOn a) = w := List.intercalate_splitOn a
    rw [h, List.intercalate_singleton] at hw
    exact ⟨hw.symm, not_mem_of_mem_splitOn (h ▸ List.mem_singleton_self t)⟩
  · rintro ⟨rfl, hn⟩
    exact List.splitOn_eq_singleton hn

-- Parts before and parts after one occurrence of the letter.
theorem splitOn_eq_append_iff {ps qs : List (List α)} (hp : ps ≠ []) (hq : qs ≠ []) :
    w.splitOn a = ps ++ qs ↔ ∃ u v, w = u ++ a :: v ∧ u.splitOn a = ps ∧ v.splitOn a = qs := by
  constructor
  case mpr =>
    rintro ⟨u, v, rfl, rfl, rfl⟩
    exact List.splitOn_append_cons_self ..
  case mp =>
    intro h
    induction w generalizing ps with
    | nil         =>
      have hl := congrArg List.length h
      have := List.length_pos_of_ne_nil hp
      have := List.length_pos_of_ne_nil hq
      simp at hl
      omega
    | cons c w hi =>
      obtain ⟨p, ps, rfl⟩ := List.exists_cons_of_ne_nil hp
      rw [splitOn_cons] at h
      split at h
      case isTrue hc  =>
        rw [List.cons_append, List.cons.injEq] at h
        obtain ⟨rfl, h⟩ := h
        cases ps with
        | nil       => exact ⟨[], w, congrArg (· :: w) hc, List.splitOn_nil _, h⟩
        | cons p ps =>
          have ⟨u, v, hw, hu, hv⟩ := hi (by simp) h
          refine ⟨c :: u, v, ?_, ?_, hv⟩
          · rw [hw]
            rfl
          · rw [splitOn_cons, if_pos hc, hu]
      case isFalse hc =>
        have ⟨t, ts, ht⟩ := List.exists_cons_of_ne_nil (List.splitOn_ne_nil a w)
        rw [ht] at h
        cases h
        have ⟨u, v, hw, hu, hv⟩ := hi (by simp) (ht.trans (List.cons_append ..).symm)
        refine ⟨c :: u, v, ?_, ?_, hv⟩
        · rw [hw]
          rfl
        · rw [splitOn_cons, if_neg hc, hu]
          rfl

end Splitting
