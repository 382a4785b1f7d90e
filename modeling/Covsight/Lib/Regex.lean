import Mathlib.Computability.Language
import Mathlib.Tactic.Common

-- Regular expressions over classes of letters, and the words that they match in full.

inductive Regex (α : Type*)
  | fail
  | empty
  | letter (p : α → Bool)
  | cat (r s : Regex α)
  | alt (r s : Regex α)
  | star (r : Regex α)

namespace Regex

variable {α : Type*}

def language : Regex α → Language α
  | fail     => 0
  | empty    => 1
  | letter p => {w | ∃ a, p a ∧ w = [a]}
  | cat r s  => r.language * s.language
  | alt r s  => r.language + s.language
  | star r   => KStar.kstar r.language

def nullable : Regex α → Bool
  | fail     => false
  | empty    => true
  | letter _ => false
  | cat r s  => r.nullable && s.nullable
  | alt r s  => r.nullable || s.nullable
  | star _   => true

-- What is left to match after a letter.
def deriv (a : α) : Regex α → Regex α
  | fail     => fail
  | empty    => fail
  | letter p => if p a then empty else fail
  | cat r s  => if r.nullable then alt (cat (r.deriv a) s) (s.deriv a) else cat (r.deriv a) s
  | alt r s  => alt (r.deriv a) (s.deriv a)
  | star r   => cat (r.deriv a) (star r)

def fullmatch : Regex α → List α → Bool
  | r, []     => r.nullable
  | r, a :: w => (r.deriv a).fullmatch w

variable {r s : Regex α} {w : List α} {a : α}

theorem mem_letter_iff {p : α → Bool} : w ∈ (letter p).language ↔ ∃ a, p a ∧ w = [a] :=
  Iff.rfl

theorem nullable_iff : r.nullable ↔ [] ∈ r.language := by
  induction r with
  | fail        => simp [nullable, language]
  | empty       => simp [nullable, language]
  | letter p    => simp [nullable, mem_letter_iff]
  | cat r s h k => simp [nullable, language, h, k, Language.mem_mul, and_comm]
  | alt r s h k => simp [nullable, language, h, k, Language.mem_add]
  | star r _    => simp [nullable, language, Language.nil_mem_kstar]

-- A word of a product that starts with a letter.
theorem cons_mem_mul_iff {l m : Language α} :
    a :: w ∈ l * m ↔ (∃ u v, a :: u ∈ l ∧ v ∈ m ∧ w = u ++ v) ∨ [] ∈ l ∧ a :: w ∈ m := by
  rw [Language.mem_mul]
  constructor
  case mp =>
    rintro ⟨u, hu, v, hv, he⟩
    cases u with
    | nil       => exact .inr ⟨hu, he ▸ hv⟩
    | cons b u  =>
      cases he
      exact .inl ⟨u, v, hu, hv, rfl⟩
  case mpr =>
    rintro (⟨u, v, hu, hv, rfl⟩ | ⟨hl, hm⟩)
    · exact ⟨_, hu, v, hv, rfl⟩
    · exact ⟨[], hl, _, hm, rfl⟩

-- A word of a repetition that starts with a letter. Only the first word that is not empty counts.
theorem cons_mem_kstar_iff {l : Language α} :
    a :: w ∈ KStar.kstar l ↔ ∃ u v, a :: u ∈ l ∧ v ∈ KStar.kstar l ∧ w = u ++ v := by
  constructor
  case mp =>
    intro h
    rw [Language.kstar_def_nonempty] at h
    obtain ⟨_ | ⟨_ | ⟨b, u⟩, L⟩, he, hL⟩ := h
    · cases he
    · exact absurd rfl (hL [] (.head _)).2
    · cases he
      exact ⟨u, L.flatten, (hL _ (.head _)).1, Language.join_mem_kstar fun y hy => (hL y (.tail _ hy)).1, rfl⟩
  case mpr =>
    rintro ⟨u, v, hu, hv, rfl⟩
    have ⟨L, hL, hy⟩ := Language.mem_kstar.mp hv
    exact Language.mem_kstar.mpr ⟨(a :: u) :: L, by simp [hL], List.forall_mem_cons.mpr ⟨hu, hy⟩⟩

theorem mem_deriv_iff : w ∈ (r.deriv a).language ↔ a :: w ∈ r.language := by
  induction r generalizing w with
  | fail        => simp [deriv, language]
  | empty       => simp [deriv, language, Language.mem_one]
  | letter p    =>
    rw [deriv, mem_letter_iff]
    split <;> simp_all [language, Language.mem_one]
  | cat r s h k =>
    have hc : w ∈ (cat (r.deriv a) s).language ↔ ∃ u v, a :: u ∈ r.language ∧ v ∈ s.language ∧ w = u ++ v := by
      rw [language, Language.mem_mul]
      simp only [h]
      constructor
      · rintro ⟨u, hu, v, hv, rfl⟩
        exact ⟨u, v, hu, hv, rfl⟩
      · rintro ⟨u, v, hu, hv, rfl⟩
        exact ⟨u, hu, v, hv, rfl⟩
    rw [deriv, show (cat r s).language = r.language * s.language from rfl, cons_mem_mul_iff, ← hc, ← nullable_iff]
    split
    case isTrue hn  => simp [language, Language.mem_add, k, hn]
    case isFalse hn => simp [hn]
  | alt r s h k => simp [deriv, language, Language.mem_add, h, k]
  | star r h    =>
    rw [deriv, show (star r).language = KStar.kstar r.language from rfl, cons_mem_kstar_iff, language, Language.mem_mul]
    simp only [h]
    constructor
    · rintro ⟨u, hu, v, hv, rfl⟩
      exact ⟨u, v, hu, hv, rfl⟩
    · rintro ⟨u, v, hu, hv, rfl⟩
      exact ⟨u, hu, v, hv, rfl⟩

theorem fullmatch_iff : r.fullmatch w ↔ w ∈ r.language := by
  induction w generalizing r with
  | nil         => exact nullable_iff
  | cons a w hi => rw [fullmatch, hi, mem_deriv_iff]

-- Letters of a class, as many as there are.
theorem mem_star_letter_iff {p : α → Bool} : w ∈ (star (letter p)).language ↔ ∀ a ∈ w, p a := by
  induction w with
  | nil         => exact iff_of_true (Language.nil_mem_kstar _) nofun
  | cons a w hi =>
    rw [language, cons_mem_kstar_iff, List.forall_mem_cons, ← hi]
    constructor
    · rintro ⟨u, v, ⟨b, hb, he⟩, hv, rfl⟩
      cases he
      exact ⟨hb, hv⟩
    · intro ⟨ha, hw⟩
      exact ⟨[], w, ⟨a, ha, rfl⟩, hw, rfl⟩

-- One expression after the other.
def seq (rs : List (Regex α)) : Regex α :=
  rs.foldr cat empty

theorem mem_seq_nil_iff : w ∈ (seq ([] : List (Regex α))).language ↔ w = [] :=
  Language.mem_one w

theorem mem_seq_cons_iff {rs : List (Regex α)} :
    w ∈ (seq (r :: rs)).language ↔ ∃ u v, u ∈ r.language ∧ v ∈ (seq rs).language ∧ w = u ++ v := by
  apply Language.mem_mul.trans
  constructor
  · rintro ⟨u, hu, v, hv, rfl⟩
    exact ⟨u, v, hu, hv, rfl⟩
  · rintro ⟨u, v, hu, hv, rfl⟩
    exact ⟨u, hu, v, hv, rfl⟩

end Regex
