import Mathlib.Data.List.Sort
import Mathlib.Data.List.Basic
import Mathlib.Tactic.Common
import Mathlib.Order.RelClasses

section

-- The rank of a position among the elements that satisfy a predicate.

variable {α : Type*} (p : α → Bool)

def rank (xs : List α) (i : Nat) : Nat :=
  (xs.take i).countP p

namespace rank

variable {p}

theorem append_left {xs : List α} {i : Nat} (h : i ≤ xs.length) (ys : List α) :
    rank p (xs ++ ys) i = rank p xs i := by
  rw [rank, List.take_append_of_le_length h, rank]

theorem length (xs : List α) : rank p xs xs.length = (xs.filter p).length := by
  rw [rank, List.take_length, List.countP_eq_length_filter]

-- The selected elements in order, by rank.
theorem getElem?_filter {xs : List α} {i : Nat} {x : α} (h : xs[i]? = some x) (hp : p x) :
    (xs.filter p)[rank p xs i]? = some x := by
  have ⟨hi, hx⟩ := List.getElem?_eq_some_iff.mp h
  have hs : xs = xs.take i ++ x :: xs.drop (i + 1) := by
    rw [← hx, ← List.drop_eq_getElem_cons hi, List.take_append_drop]
  have hf : xs.filter p = (xs.take i).filter p ++ x :: (xs.drop (i + 1)).filter p := by
    rw [← List.filter_cons_of_pos hp, ← List.filter_append, ← hs]
  rw [hf, rank, List.countP_eq_length_filter, List.getElem?_append_right (Nat.le_refl _)]
  simp

-- Every selected element has its rank.
theorem exists_of_lt {xs : List α} {j : Nat} (h : j < (xs.filter p).length) :
    ∃ i x, xs[i]? = some x ∧ p x ∧ rank p xs i = j := by
  induction xs generalizing j
  case nil => exact absurd h (Nat.not_lt_zero j)
  case cons x xs hi =>
    by_cases hx : p x
    case neg =>
      rw [List.filter_cons_of_neg hx] at h
      have ⟨i, y, hy, hp, hr⟩ := hi h
      exact ⟨i + 1, y, by simpa using hy, hp, by simp [rank, hx, ← hr]⟩
    case pos =>
      rw [List.filter_cons_of_pos hx] at h
      cases j
      case zero   => exact ⟨0, x, rfl, hx, rfl⟩
      case succ j =>
        have ⟨i, y, hy, hp, hr⟩ := hi (Nat.lt_of_succ_lt_succ h)
        exact ⟨i + 1, y, by simpa using hy, hp, by simp [rank, hx, ← hr]⟩

end rank

end

-- Insertion sort is stable: elements that tie stay in the order they had. Where ties are already in a
-- strict order, the result is the one list in which the elements come in the order of the sort and,
-- among ties, in that order.

variable {α : Type*} {r s : α → α → Prop}

-- The order of the sort, refined by an order of the ties.
def Refined (r s : α → α → Prop) (a b : α) : Prop :=
  r a b ∧ (r b a → s a b)

-- Ties are in order.
def TiesOrdered (r s : α → α → Prop) (xs : List α) : Prop :=
  xs.Pairwise fun a b => r a b → r b a → s a b

variable [DecidableRel r] [Std.Total r] [IsTrans α r]

theorem pairwise_orderedInsert {a : α} {xs : List α} (ha : ∀ b ∈ xs, r a b → r b a → s a b)
    (hx : xs.Pairwise (Refined r s)) : (xs.orderedInsert r a).Pairwise (Refined r s) := by
  induction xs
  case nil => exact List.pairwise_singleton _ a
  case cons b xs hi =>
    have ⟨hb, hx⟩ := List.pairwise_cons.mp hx
    rw [List.orderedInsert]
    split
    case isTrue h =>
      refine List.pairwise_cons.mpr ⟨fun c hc => ?_, List.pairwise_cons.mpr ⟨hb, hx⟩⟩
      have hac : r a c := by
        cases List.mem_cons.mp hc
        case inl hc => exact hc ▸ h
        case inr hc => exact IsTrans.trans _ _ _ h (hb c hc).1
      exact ⟨hac, ha c hc hac⟩
    case isFalse h =>
      have hba : r b a := (Std.Total.total a b).resolve_left h
      refine List.pairwise_cons.mpr ⟨fun c hc => ?_, hi (fun c hc => ha c (.tail _ hc)) hx⟩
      cases (List.mem_orderedInsert r).mp hc
      case inl hc => exact hc ▸ ⟨hba, fun hab => absurd hab h⟩
      case inr hc => exact hb c hc

theorem pairwise_insertionSort_iff {xs : List α} :
    (xs.insertionSort r).Pairwise (Refined r s) ↔ TiesOrdered r s xs := by
  constructor
  case mp =>
    intro h
    refine List.pairwise_iff_forall_sublist.mpr fun {a b} hs hab hba => ?_
    have hp : [a, b].Pairwise r := List.pairwise_pair.mpr hab
    have hs := List.sublist_insertionSort hp hs
    exact (List.pairwise_iff_forall_sublist.mp h hs).2 hba
  case mpr =>
    intro h
    induction xs
    case nil => exact .nil
    case cons a xs hi =>
      have ⟨ha, hx⟩ := List.pairwise_cons.mp h
      exact pairwise_orderedInsert (fun b hb => ha b ((List.mem_insertionSort r).mp hb)) (hi hx)

-- Sorting a list gives the same as sorting one whose ties are in order.
theorem insertionSort_eq_iff (hs : ∀ a b, s a b → ¬s b a) {xs ys : List α} (hy : TiesOrdered r s ys) :
    xs.insertionSort r = ys.insertionSort r ↔ xs.Perm ys ∧ TiesOrdered r s xs := by
  have hsorted := pairwise_insertionSort_iff.mpr hy
  have hxs := List.perm_insertionSort r xs
  have hys := List.perm_insertionSort r ys
  constructor
  case mp =>
    intro h
    exact ⟨hxs.symm.trans (h ▸ hys), pairwise_insertionSort_iff.mp (h ▸ hsorted)⟩
  case mpr =>
    intro ⟨hp, hx⟩
    refine (hxs.trans (hp.trans hys.symm)).eq_of_pairwise (fun a b _ _ hab hba => ?_)
      (pairwise_insertionSort_iff.mpr hx) hsorted
    exact absurd (hba.2 hab.1) (hs a b (hab.2 hba.1))

-- Elements that all tie are found in the order they had.
omit [Std.Total r] [IsTrans α r] in
theorem filter_insertionSort {p : α → Bool} (hp : ∀ a b, p a → p b → r a b) (xs : List α) :
    (xs.insertionSort r).filter p = xs.filter p := by
  have hs : (xs.filter p).Pairwise r := by
    refine List.pairwise_iff_forall_sublist.mpr fun {a b} hab => ?_
    have hm {x : α} (hx : x ∈ [a, b]) : p x := (List.mem_filter.mp (hab.subset hx)).right
    exact hp a b (hm (.head _)) (hm (.tail _ (.head _)))
  have hsub := (List.sublist_insertionSort hs List.filter_sublist).filter p
  simp only [List.filter_filter, Bool.and_self] at hsub
  have hlen := ((List.perm_insertionSort r xs).filter p).length_eq
  exact (hsub.eq_of_length_le hlen.le).symm

-- Sorting by merging runs, which are twice as wide after each pass.

namespace MergeSort

variable {α : Type*}

-- The runs of a list are its pieces of some width, of which the last may be shorter.
def run (w m : Nat) (l : List α) : List α :=
  (l.drop (m * w)).take w

-- Each two runs are merged that follow one another.
def pass (le : α → α → Bool) (w : Nat) (l : List α) : List α :=
  if l.length = 0 ∨ w = 0 then
    l
  else
    List.merge (l.take w) ((l.drop w).take w) le ++ pass le w (l.drop (2 * w))
termination_by l.length
decreasing_by rw [List.length_drop]; omega

-- The order of a stable sort: elements that tie are in the order of their places.
def Before (less : α → α → Bool) (place : α → α → Prop) (a b : α) : Prop :=
  less b a = false ∧ (less a b = false → place a b)

section Order

variable {less : α → α → Bool} {place : α → α → Prop} [IsStrictWeakOrder α (less · ·)]

theorem asymm {a b : α} (h : less a b = true) : less b a = false := by
  refine Bool.eq_false_iff.mpr fun hb => ?_
  exact irrefl_of (less · ·) a (trans_of (less · ·) h hb)

-- What is not above one that is not above another is not above that one.
theorem negTrans {a b c : α} (hab : less b a = false) (hbc : less c b = false) : less c a = false := by
  refine Bool.eq_false_iff.mpr fun hca => ?_
  have hab := Bool.eq_false_iff.mp hab
  have hbc := Bool.eq_false_iff.mp hbc
  by_cases h : less a b = true
  case pos => exact hbc (trans_of (less · ·) hca h)
  case neg =>
    by_cases h' : less b c = true
    case pos => exact hab (trans_of (less · ·) h' hca)
    case neg =>
      have ht := @IsStrictWeakOrder.incomp_trans α (less · ·) _ a b c ⟨h, hab⟩ ⟨h', hbc⟩
      exact ht.right hca

theorem before_trans [IsTrans α place] {a b c : α} (hab : Before less place a b) (hbc : Before less place b c) :
    Before less place a c := by
  refine ⟨negTrans hab.left hbc.left, fun h => ?_⟩
  exact IsTrans.trans a b c (hab.right (negTrans hbc.left h)) (hbc.right (negTrans h hab.left))

-- A run that is merged with one of later places.
theorem pairwise_merge [IsTrans α place] {xs ys : List α} (hx : xs.Pairwise (Before less place))
    (hy : ys.Pairwise (Before less place)) (h : ∀ x ∈ xs, ∀ y ∈ ys, place x y) :
    (List.merge xs ys fun a b => !less b a).Pairwise (Before less place) := by
  induction xs generalizing ys
  case nil => rwa [List.nil_merge]
  case cons x xs hi =>
    induction ys
    case nil => rwa [List.merge_right]
    case cons y ys hj =>
      have ⟨hx', hxs⟩ := List.pairwise_cons.mp hx
      have ⟨hy', hys⟩ := List.pairwise_cons.mp hy
      rw [List.cons_merge_cons]
      split
      case isTrue hl =>
        have hxy : Before less place x y := ⟨by simpa using hl, fun _ => h x (.head _) y (.head _)⟩
        refine List.pairwise_cons.mpr ⟨fun z hz => ?_, hi hxs hy fun a ha => h a (.tail _ ha)⟩
        rcases List.mem_merge.mp hz with hz | hz
        case inl => exact hx' z hz
        case inr =>
          rcases List.mem_cons.mp hz with rfl | hz
          case inl => exact hxy
          case inr => exact before_trans hxy (hy' z hz)
      case isFalse hl =>
        have hl : less y x = true := by simpa using hl
        have hyx : Before less place y x := ⟨asymm hl, fun h => nomatch h.symm.trans hl⟩
        refine List.pairwise_cons.mpr ⟨fun z hz => ?_, hj hys fun a ha b hb => h a ha b (.tail _ hb)⟩
        rcases List.mem_merge.mp hz with hz | hz
        case inr => exact hy' z hz
        case inl =>
          rcases List.mem_cons.mp hz with rfl | hz
          case inl => exact hyx
          case inr => exact before_trans hyx (hx' z hz)

end Order

variable {le : α → α → Bool} {w : Nat} {l origin : List α}

theorem length_pass (le : α → α → Bool) (w : Nat) (l : List α) : (pass le w l).length = l.length := by
  fun_induction pass le w l
  case case1 => rfl
  case case2 l _ hi =>
    rw [List.length_append, List.length_merge, hi]
    simp only [List.length_take, List.length_drop]
    omega

theorem run_double (w m : Nat) (l : List α) : run (2 * w) m l = run w (2 * m) l ++ run w (2 * m + 1) l := by
  have hm : m * (2 * w) = 2 * m * w := by rw [Nat.mul_left_comm, Nat.mul_assoc]
  rw [run, run, run, hm, Nat.succ_mul (2 * m), ← List.drop_drop, Nat.two_mul w, List.take_add]

theorem run_drop (w m k : Nat) (l : List α) : run w m (l.drop (k * w)) = run w (k + m) l := by
  rw [run, run, List.drop_drop, Nat.add_mul]

-- The first two runs, merged, and the pass over what follows them.
theorem pass_split (hw : 0 < w) (l : List α) :
    (pass le w l).take (2 * w) = List.merge (l.take w) ((l.drop w).take w) le ∧
      (pass le w l).drop (2 * w) = pass le w (l.drop (2 * w)) := by
  have hl : (List.merge (l.take w) ((l.drop w).take w) le).length = min (2 * w) l.length := by
    rw [List.length_merge]
    simp only [List.length_take, List.length_drop]
    omega
  rw [pass]
  split
  case isTrue h =>
    have hn := List.eq_nil_of_length_eq_zero (h.resolve_right (Nat.ne_of_gt hw))
    subst hn
    simp [pass]
  case isFalse h =>
    by_cases hs : 2 * w ≤ l.length
    case pos =>
      rw [Nat.min_eq_left hs] at hl
      exact ⟨List.take_left' hl, List.drop_left' hl⟩
    case neg =>
      have hd : l.drop (2 * w) = [] := List.drop_eq_nil_of_le (by omega)
      have hp : pass le w [] = [] := by simp [pass]
      have hl := hl.trans_le (Nat.min_le_left ..)
      rw [hd, hp, List.append_nil, List.take_of_length_le hl, List.drop_eq_nil_of_le hl]
      exact ⟨rfl, rfl⟩

-- Each run of the pass is made of two.
theorem run_pass (hw : 0 < w) (m : Nat) (l : List α) :
    run (2 * w) m (pass le w l) = List.merge (run w (2 * m) l) (run w (2 * m + 1) l) le := by
  induction m generalizing l
  case zero =>
    rw [run, Nat.zero_mul, List.drop_zero, (pass_split hw l).left]
    simp [run]
  case succ m hi =>
    have hm : (m + 1) * (2 * w) = 2 * w + m * (2 * w) := by rw [Nat.succ_mul, Nat.add_comm]
    rw [run, hm, ← List.drop_drop, (pass_split hw l).right]
    have hr := hi (l.drop (2 * w))
    rw [run_drop, run_drop] at hr
    rw [← run, hr, Nat.mul_succ, Nat.add_comm (2 * m) 2, Nat.add_assoc]

-- Runs in order, each made of the elements that its piece had at first.
structure Runs (less : α → α → Bool) (place : α → α → Prop) (w : Nat) (l origin : List α) : Prop where
  perm   : ∀ m, (run w m l).Perm (run w m origin)
  sorted : ∀ m, (run w m l).Pairwise (Before less place)

namespace Runs

variable {less : α → α → Bool} {place : α → α → Prop}

theorem one (l : List α) : Runs less place 1 l l where
  perm _   := .refl _
  sorted m := by
    have hl : (run 1 m l).length ≤ 1 := List.length_take_le ..
    match run 1 m l, hl with
    | [],  _ => exact .nil
    | [_], _ => exact List.pairwise_singleton ..

theorem pass [IsStrictWeakOrder α (less · ·)] [IsTrans α place] (h : Runs less place w l origin) (hw : 0 < w)
    (ho : origin.Pairwise place) :
    Runs less place (2 * w) (MergeSort.pass (fun a b => !less b a) w l) origin where
  perm m := by
    rw [run_pass hw, run_double]
    exact (List.merge_perm_append ..).trans ((h.perm _).append (h.perm _))
  sorted m := by
    rw [run_pass hw]
    refine pairwise_merge (h.sorted _) (h.sorted _) fun x hx y hy => ?_
    have hp : (run w (2 * m) origin ++ run w (2 * m + 1) origin).Pairwise place := by
      rw [← run_double]
      exact (ho.sublist (List.drop_sublist ..)).sublist (List.take_sublist ..)
    exact (List.pairwise_append.mp hp).right.right x ((h.perm _).mem_iff.mp hx) y ((h.perm _).mem_iff.mp hy)

-- One run is left.
theorem whole (h : Runs less place w l origin) (hl : l.length = origin.length) (hw : l.length ≤ w) :
    l.Perm origin ∧ l.Pairwise (Before less place) := by
  have hp := h.perm 0
  have hs := h.sorted 0
  rw [run, Nat.zero_mul, List.drop_zero, List.take_of_length_le hw] at hp hs
  rw [run, Nat.zero_mul, List.drop_zero, List.take_of_length_le (hl ▸ hw)] at hp
  exact ⟨hp, hs⟩

end Runs

end MergeSort
