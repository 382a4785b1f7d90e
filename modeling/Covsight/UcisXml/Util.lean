import Covsight.Lib.StableSort
import Mathlib.Data.Nat.Prime.Basic

namespace Vec

-- The doubling in `reserve`, which starts at 16 or at a capacity and thus never at 0.
def doubled (want n : Nat) : Option Nat :=
  if n < want then
    if n = 0 ∨ 0x7FFFFFFF < n then none else doubled want (n * 2)
  else
    some n
termination_by want - n

-- The capacity that there is room for then, where `realloc` grants it.
def reserve (realloc : Nat → Bool) (cap want : Nat) : Option Nat :=
  if want ≤ cap then
    some cap
  else do
    let n ← doubled want (if cap ≠ 0 then cap else 16)
    if realloc n then some n else none

-- A capacity is 0 at first, and then a power of two of which the largest is 2^31.
def Capacity (cap : Nat) : Prop :=
  cap = 0 ∨ cap ∣ 2 ^ 31

theorem Capacity.le {cap : Nat} (h : Capacity cap) : cap ≤ 2 ^ 31 := by
  rcases h with rfl | h
  case inl => exact Nat.zero_le _
  case inr => exact Nat.le_of_dvd (by decide) h

theorem doubled_spec {want n m : Nat} (h : doubled want n = some m) (hn : n ∣ 2 ^ 31) : want ≤ m ∧ m ∣ 2 ^ 31 := by
  fun_induction doubled want n
  case case1 => cases h
  case case2 n _ hl hi =>
    refine hi h ?_
    have ⟨k, hk, he⟩ := (Nat.dvd_prime_pow Nat.prime_two).mp hn
    have hlt : k < 31 := by
      refine Nat.lt_of_le_of_ne hk fun h31 => hl (.inr ?_)
      rw [he, h31]
      decide
    rw [he, ← Nat.pow_succ]
    exact pow_dvd_pow 2 hlt
  case case3 n hl =>
    cases h
    exact ⟨Nat.le_of_not_lt hl, hn⟩

theorem reserve_spec {realloc : Nat → Bool} {cap want c : Nat} (h : reserve realloc cap want = some c)
    (hc : Capacity cap) : want ≤ c ∧ Capacity c := by
  rw [reserve] at h
  split at h
  case isTrue hl =>
    cases h
    exact ⟨hl, hc⟩
  case isFalse =>
    have ⟨n, hn, h⟩ := Option.bind_eq_some_iff.mp h
    split at h
    case isFalse => cases h
    case isTrue =>
      cases h
      have hd : (if cap ≠ 0 then cap else 16) ∣ 2 ^ 31 := by
        split
        case isTrue h0  => exact hc.resolve_left h0
        case isFalse h0 => exact pow_dvd_pow 2 (by decide : 4 ≤ 31)
      have ⟨hl, hd⟩ := doubled_spec hn hd
      exact ⟨hl, .inr hd⟩

end Vec

-- The sort of staged records by their indices. `cut` is what becomes of a sum, which in the code is kept to 32 bits.
-- An access outside of an array has no result, and nor has a loop that takes more than `limit` steps.

def store (xs : List Nat) (k x : Nat) : Option (List Nat) :=
  if k < xs.length then some (xs.set k x) else none

variable (cut : Nat → Nat) (limit : Nat) (less : Nat → Nat → Bool)

-- The three inner loops: each of the last two goes on where the one before it ended.
def mergeRuns (idx : List Nat) (mid hi : Nat) : (limit i j k : Nat) → (scratch : List Nat) → Option (List Nat)
  | 0,         _, _, _, _       => none
  | limit + 1, i, j, k, scratch =>
    if i < mid ∧ j < hi then do
      let x ← idx[i]?
      let y ← idx[j]?
      if less y x then
        mergeRuns idx mid hi limit i (cut (j + 1)) (cut (k + 1)) (← store scratch k y)
      else
        mergeRuns idx mid hi limit (cut (i + 1)) j (cut (k + 1)) (← store scratch k x)
    else if i < mid then do
      mergeRuns idx mid hi limit (cut (i + 1)) j (cut (k + 1)) (← store scratch k (← idx[i]?))
    else if j < hi then do
      mergeRuns idx mid hi limit i (cut (j + 1)) (cut (k + 1)) (← store scratch k (← idx[j]?))
    else
      some scratch

def mergePass (idx : List Nat) (n width : Nat) : (steps lo : Nat) → (scratch : List Nat) → Option (List Nat)
  | 0,         _,  _       => none
  | steps + 1, lo, scratch =>
    if lo < n then do
      let mid := if cut (lo + width) < n then cut (lo + width) else n
      let hi  := if cut (lo + cut (2 * width)) < n then cut (lo + cut (2 * width)) else n
      let scratch ← mergeRuns cut less idx mid hi limit lo mid lo scratch
      mergePass idx n width steps (cut (lo + cut (2 * width))) scratch
    else
      some scratch

-- After each pass, `idx` is overwritten with the scratch.
def mergePasses (n : Nat) : (steps width : Nat) → (idx scratch : List Nat) → Option (List Nat)
  | 0,         _,     _,   _       => none
  | steps + 1, width, idx, scratch =>
    if width < n then do
      let scratch ← mergePass cut limit less idx n width limit 0 scratch
      mergePasses n steps (cut (width * 2)) (scratch.take n ++ idx.drop n) scratch
    else
      some idx

def mergeSortIndex (idx scratch : List Nat) (n : Nat) : Option (List Nat) :=
  if n < 2 then some idx else mergePasses cut limit less n limit 1 idx scratch

-- `out` is filled with the indices of the records, if there is memory for them and for the scratch. What the scratch
-- holds before is never looked at.
def sortInto (granted : Bool) (scratch : List Nat) (n : Nat) : Option (Bool × List Nat) :=
  if n = 0 then
    some (true, [])
  else if ¬granted then
    some (false, [])
  else
    (mergeSortIndex cut limit less (List.range n) scratch n).map fun out => (true, out)

variable {cut limit less}

-- The part of an array between two indices.
def piece (xs : List Nat) (i j : Nat) : List Nat :=
  (xs.take j).drop i

theorem length_piece {xs : List Nat} {i j : Nat} (h : j ≤ xs.length) : (piece xs i j).length = j - i := by
  rw [piece, List.length_drop, List.length_take_of_le h]

theorem piece_cons {xs : List Nat} {i j : Nat} (hi : i < j) (hj : j ≤ xs.length) :
    ∃ x, xs[i]? = some x ∧ piece xs i j = x :: piece xs (i + 1) j := by
  have hl : i < (xs.take j).length := by
    rw [List.length_take_of_le hj]
    exact hi
  refine ⟨(xs.take j)[i], ?_, List.drop_eq_getElem_cons hl⟩
  rw [List.getElem_take, List.getElem?_eq_getElem]

theorem piece_nil {xs : List Nat} {i j : Nat} (h : j ≤ i) : piece xs i j = [] :=
  List.drop_eq_nil_of_le (Nat.le_trans (List.length_take_le ..) h)

theorem store_eq {xs : List Nat} {k : Nat} (h : k < xs.length) (x : Nat) : store xs k x = some (xs.set k x) :=
  if_pos h

-- What was stored first comes before what is stored behind it.
theorem stored_cons {xs zs : List Nat} {k n : Nat} (h : k < xs.length) (x : Nat) :
    (xs.set k x).take (k + 1) ++ zs ++ (xs.set k x).drop (k + 1 + n) = xs.take k ++ x :: zs ++ xs.drop (k + (n + 1)) := by
  rw [List.take_add_one, List.getElem?_set_self h, List.take_set_of_le (Nat.le_refl k), List.drop_set_of_lt (by omega),
    Option.toList_some, List.append_assoc (xs.take k), List.singleton_append, Nat.add_assoc k, Nat.add_comm 1]

theorem mergeRuns_eq (hc : ∀ x < 2 ^ 32, cut x = x) {idx scratch : List Nat} {mid hi limit i j k : Nat}
    (hm : mid ≤ idx.length) (hh : hi ≤ idx.length) (hm' : mid < 2 ^ 32) (hh' : hi < 2 ^ 32)
    (hl : mid - i + (hi - j) < limit) (hk : k + (mid - i + (hi - j)) ≤ scratch.length)
    (hk' : k + (mid - i + (hi - j)) < 2 ^ 32) :
    mergeRuns cut less idx mid hi limit i j k scratch =
      some (scratch.take k ++ List.merge (piece idx i mid) (piece idx j hi) (fun a b => !less b a) ++
        scratch.drop (k + (mid - i + (hi - j)))) := by
  induction limit generalizing i j k scratch
  case zero => exact absurd hl (Nat.not_lt_zero _)
  case succ limit hi' =>
    -- One element is stored, and the loops go on behind it.
    have hstep (x i' j' : Nat) (hd : mid - i' + (hi - j') + 1 = mid - i + (hi - j)) :
        (do mergeRuns cut less idx mid hi limit i' j' (cut (k + 1)) (← store scratch k x)) =
          some (scratch.take k ++ x :: List.merge (piece idx i' mid) (piece idx j' hi) (fun a b => !less b a) ++
            scratch.drop (k + (mid - i + (hi - j)))) := by
      have hks : k < scratch.length := by omega
      rw [store_eq hks, Option.bind_eq_bind, Option.bind_some, hc (k + 1) (by omega),
        hi' (by omega) (by rw [List.length_set]; omega) (by omega), stored_cons hks, hd]
    rw [mergeRuns]
    split
    case isTrue h =>
      have ⟨x, hx, hxs⟩ := piece_cons h.left hm
      have ⟨y, hy, hys⟩ := piece_cons h.right hh
      rw [hx, hy, hxs, hys, List.cons_merge_cons, hc (i + 1) (by omega), hc (j + 1) (by omega)]
      simp only [Option.bind_eq_bind, Option.bind_some]
      by_cases hlt : less y x = true
      case pos =>
        rw [if_pos hlt, hlt, ← hxs]
        exact hstep y i (j + 1) (by omega)
      case neg =>
        rw [if_neg hlt, Bool.eq_false_iff.mpr hlt, ← hys]
        exact hstep x (i + 1) j (by omega)
    case isFalse h =>
      split
      case isTrue hlt =>
        have ⟨x, hx, hxs⟩ := piece_cons hlt hm
        have hj := @piece_nil idx _ _ (Nat.le_of_not_lt fun hj => h ⟨hlt, hj⟩)
        have hs := hstep x (i + 1) j (by omega)
        rw [hj, List.merge_right] at hs ⊢
        rw [hx, hxs, hc (i + 1) (by omega)]
        exact hs
      case isFalse hlt =>
        have hp := @piece_nil idx _ _ (Nat.le_of_not_lt hlt)
        split
        case isTrue hj =>
          have ⟨y, hy, hys⟩ := piece_cons hj hh
          have hs := hstep y i (j + 1) (by omega)
          rw [hp, List.nil_merge] at hs ⊢
          rw [hy, hys, hc (j + 1) (by omega)]
          exact hs
        case isFalse hj =>
          have hz : mid - i + (hi - j) = 0 := by omega
          rw [hp, piece_nil (Nat.le_of_not_lt hj), hz]
          simp

theorem piece_min {xs : List Nat} {i n w : Nat} (hn : n = xs.length) :
    piece xs i (min (i + w) n) = (xs.drop i).take w := by
  rw [piece, List.drop_take, List.take_eq_take_iff, List.length_drop]
  omega

theorem if_lt_eq_min (a n : Nat) : (if a < n then a else n) = min a n := by
  split <;> omega

theorem mergePass_eq (hc : ∀ x < 2 ^ 32, cut x = x) {idx scratch : List Nat} {n width steps lo : Nat}
    (hn : n = idx.length) (hn' : n ≤ 2 ^ 31) (hw : 0 < width) (hw' : width ≤ 2 ^ 30) (hl : n < limit) (hs : n - lo < steps)
    (hr : n ≤ scratch.length) :
    mergePass cut limit less idx n width steps lo scratch =
      some (scratch.take (min lo n) ++ MergeSort.pass (fun a b => !less b a) width (idx.drop lo) ++ scratch.drop n) := by
  induction steps generalizing lo scratch
  case zero => exact absurd hs (Nat.not_lt_zero _)
  case succ steps hi =>
    rw [mergePass]
    split
    case isTrue h =>
      have hmid : min (lo + width) n ≤ n := Nat.min_le_right ..
      have hhi : min (lo + 2 * width) n ≤ n := Nat.min_le_right ..
      have hord : lo + (min (lo + width) n - lo + (min (lo + 2 * width) n - min (lo + width) n)) =
          min (lo + 2 * width) n := by omega
      have hleft : piece idx lo (min (lo + width) n) = (idx.drop lo).take width := piece_min hn
      have hright : piece idx (min (lo + width) n) (min (lo + 2 * width) n) =
          ((idx.drop lo).drop width).take width := by
        rw [List.drop_drop]
        by_cases hlt : lo + width < n
        case pos =>
          have hm : min (lo + 2 * width) n = min (lo + width + width) n := by omega
          rw [Nat.min_eq_left (Nat.le_of_lt hlt), hm]
          exact piece_min hn
        case neg =>
          rw [piece_nil (by omega), List.drop_eq_nil_of_le (by omega), List.take_nil]
      rw [hc (lo + width) (by omega), hc (2 * width) (by omega), hc (lo + 2 * width) (by omega)]
      simp only [if_lt_eq_min]
      rw [mergeRuns_eq hc (by omega) (by omega) (by omega) (by omega) (by omega) (by omega) (by omega), hord, hleft, hright]
      have hlist : MergeSort.pass (fun a b => !less b a) width (idx.drop lo) =
          List.merge ((idx.drop lo).take width) (((idx.drop lo).drop width).take width) (fun a b => !less b a) ++
            MergeSort.pass (fun a b => !less b a) width (idx.drop (lo + 2 * width)) := by
        have hd : (idx.drop lo).drop (2 * width) = idx.drop (lo + 2 * width) := List.drop_drop ..
        have hlen : (idx.drop lo).length ≠ 0 := by
          rw [List.length_drop]
          omega
        rw [← hd, MergeSort.pass, if_neg (by omega)]
      have hmerged : (scratch.take lo ++
          List.merge ((idx.drop lo).take width) (((idx.drop lo).drop width).take width) (fun a b => !less b a)).length =
            min (lo + 2 * width) n := by
        rw [List.length_append, List.length_merge, ← hright, ← hleft, length_piece (by omega), length_piece (by omega),
          List.length_take_of_le (by omega)]
        omega
      generalize List.merge ((idx.drop lo).take width) (((idx.drop lo).drop width).take width) _ = merged at hlist hmerged ⊢
      simp only [Option.bind_eq_bind, Option.bind_some]
      rw [hi (by omega) (by rw [List.length_append, hmerged, List.length_drop]; omega), List.take_left' hmerged,
        List.drop_append, hmerged, List.drop_eq_nil_of_le (hmerged.trans_le hhi), List.drop_drop, hlist,
        Nat.min_eq_left (Nat.le_of_lt h)]
      have hd : min (lo + 2 * width) n + (n - min (lo + 2 * width) n) = n := by omega
      rw [hd, List.nil_append, List.append_assoc (scratch.take lo)]
    case isFalse h =>
      have hd : idx.drop lo = [] := List.drop_eq_nil_of_le (by omega)
      rw [hd, Nat.min_eq_right (Nat.le_of_not_lt h), MergeSort.pass]
      simp

-- The order of the indices that the sort gives: ties are in the order in which the records were staged.
abbrev Sorted (less : Nat → Nat → Bool) : Nat → Nat → Prop :=
  MergeSort.Before less (· < ·)

theorem mergePasses_sorted [IsStrictWeakOrder Nat (less · ·)] (hc : ∀ x < 2 ^ 32, cut x = x)
    {origin idx scratch : List Nat} {n k steps : Nat} (ho : origin.Pairwise (· < ·)) (hn : n = idx.length)
    (hn' : n ≤ 2 ^ 31) (hl : n < limit) (hr : n ≤ scratch.length) (hlen : idx.length = origin.length)
    (hs : 0 < steps ∧ n < 2 ^ k + steps) (hruns : MergeSort.Runs less (· < ·) (2 ^ k) idx origin) :
    ∃ out, mergePasses cut limit less n steps (2 ^ k) idx scratch = some out ∧ out.Perm origin ∧
      out.Pairwise (Sorted less) := by
  induction steps generalizing idx scratch k
  case zero => exact absurd hs.left (Nat.lt_irrefl 0)
  case succ steps hi =>
    rw [mergePasses]
    split
    case isTrue h =>
      have hk : k < 31 := (Nat.pow_lt_pow_iff_right (by decide)).mp (Nat.lt_of_lt_of_le h hn')
      have hk' : 2 ^ k ≤ 2 ^ 30 := Nat.pow_le_pow_right (by decide) (Nat.le_of_lt_succ hk)
      have hpos : 0 < 2 ^ k := Nat.two_pow_pos k
      have hsucc : 2 ^ (k + 1) = 2 * 2 ^ k := Nat.pow_succ'
      have hpass := @mergePass_eq cut limit less hc idx scratch n (2 ^ k) limit 0 hn hn' hpos hk' hl hl hr
      have hlp := MergeSort.length_pass (fun a b => !less b a) (2 ^ k) idx
      have hruns := hruns.pass hpos ho
      rw [Nat.zero_min, List.take_zero, List.nil_append, List.drop_zero] at hpass
      rw [hpass]
      generalize MergeSort.pass (fun a b => !less b a) (2 ^ k) idx = idx' at hlp hruns ⊢
      simp only [Option.bind_eq_bind, Option.bind_some]
      rw [List.take_left' (hlp.trans hn.symm), List.drop_eq_nil_of_le (Nat.le_of_eq hn.symm), List.append_nil, Nat.mul_comm,
        hc (2 * 2 ^ k) (by omega), ← hsucc]
      refine hi (hn.trans hlp.symm) ?_ (hlp.trans hlen) ⟨by omega, by omega⟩ (hsucc ▸ hruns)
      rw [List.length_append, List.length_drop]
      omega
    case isFalse h => exact ⟨idx, rfl, hruns.whole hlen (hn ▸ Nat.le_of_not_lt h)⟩

theorem sortInto_sorted [IsStrictWeakOrder Nat (less · ·)] (hc : ∀ x < 2 ^ 32, cut x = x) {scratch : List Nat} {n : Nat}
    (hn : n ≤ 2 ^ 31) (hl : n < limit) (hr : n ≤ scratch.length) :
    ∃ out, sortInto cut limit less true scratch n = some (true, out) ∧ out.Perm (List.range n) ∧
      out.Pairwise (Sorted less) := by
  rw [sortInto]
  split
  case isTrue h0 => exact ⟨[], rfl, h0 ▸ .refl _, .nil⟩
  case isFalse h0 =>
    rw [if_neg (by decide), mergeSortIndex]
    split
    case isTrue h2 =>
      have h1 : n = 1 := by omega
      subst h1
      exact ⟨[0], rfl, .refl _, List.pairwise_singleton ..⟩
    case isFalse h2 =>
      have hlen : n = (List.range n).length := List.length_range.symm
      have ho : (List.range n).Pairwise (· < ·) := List.pairwise_lt_range
      have hs : 0 < limit ∧ n < 2 ^ 0 + limit := by omega
      have ⟨out, he, hs⟩ := @mergePasses_sorted cut limit less _ hc _ _ scratch n 0 _ ho hlen hn hl hr rfl hs (.one _)
      rw [Nat.pow_zero] at he
      exact ⟨out, by rw [he]; rfl, hs⟩

-- There is one such order of the indices, so that the sums are those of numbers of any size.
theorem sorted_unique {xs ys : List Nat} (h : xs.Perm ys) (hx : xs.Pairwise (Sorted less))
    (hy : ys.Pairwise (Sorted less)) :
    xs = ys := by
  refine h.eq_of_pairwise (fun a b _ _ hab hba => ?_) hx hy
  exact absurd (hab.right hba.left) (Nat.lt_asymm (hba.right hab.left))

theorem sortInto_spec [IsStrictWeakOrder Nat (less · ·)] {scratch : List Nat} {n : Nat} (hn : n ≤ 2 ^ 31)
    (hr : n ≤ scratch.length) :
    ∃ out, out.Perm (List.range n) ∧ out.Pairwise (Sorted less) ∧
      ∀ cut limit, (∀ x < 2 ^ 32, cut x = x) → n < limit →
        sortInto cut limit less true scratch n = some (true, out) := by
  have ⟨out, _, hp, hs⟩ := @sortInto_sorted id (n + 1) less _ (fun _ _ => rfl) scratch n hn (Nat.lt_succ_self n) hr
  refine ⟨out, hp, hs, fun cut limit hc hl => ?_⟩
  have ⟨out', he, hp', hs'⟩ := @sortInto_sorted cut limit less _ hc scratch n hn hl hr
  rw [he, sorted_unique (hp'.trans hp.symm) hs' hs]
