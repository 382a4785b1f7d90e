import Mathlib.Data.List.Count
import Mathlib.Data.List.Dedup
import Mathlib.Data.List.Lattice
import Covsight.Lib.Dict
import Covsight.Lib.Interning
import Mathlib.Data.List.Perm.Basic
import Mathlib.Tactic.Common

-- Tallies fold a list with a commutative monoid operation. A row-wise tally of several vectors
-- reads a missing position as the unit, so vectors of different widths are padded on the right.

variable {M : Type*} (f : M → M → M) (e : M)

def tally (xs : List M) : M :=
  xs.foldr f e

def column (i : Nat) (rows : List (List M)) : List M :=
  rows.map (·.getD i e)

namespace tally

variable {f e}

@[simp]
theorem nil : tally f e [] = e :=
  rfl

@[simp]
theorem cons (x : M) (xs : List M) : tally f e (x :: xs) = f x (tally f e xs) :=
  rfl

theorem assoc [Std.Associative f] (x y z : M) : f (f x y) z = f x (f y z) :=
  Std.Associative.assoc x y z

section Unit

variable [Std.LawfulIdentity f e]

@[simp]
theorem singleton (x : M) : tally f e [x] = x :=
  Std.LawfulRightIdentity.right_id x

theorem eq_unit {xs : List M} (h : ∀ x ∈ xs, x = e) : tally f e xs = e := by
  induction xs
  case nil => rfl
  case cons x xs hi =>
    rw [cons, h x List.mem_cons_self, hi fun y hy => h y (List.mem_cons_of_mem _ hy)]
    exact Std.LawfulLeftIdentity.left_id e

variable [Std.Associative f]

@[simp]
theorem append (xs ys : List M) : tally f e (xs ++ ys) = f (tally f e xs) (tally f e ys) := by
  induction xs
  case nil          => exact (Std.LawfulLeftIdentity.left_id _).symm
  case cons x xs hi => rw [List.cons_append, cons, hi, cons, assoc (f := f)]

theorem flatten (xss : List (List M)) :
    tally f e xss.flatten = tally f e (xss.map (tally f e)) := by
  induction xss
  case nil            => rfl
  case cons xs xss hi => rw [List.flatten_cons, append, hi, List.map_cons, cons]

end Unit

-- Tallying values that are there.
theorem merge_some {f : M → M → M} {e : M} [Std.LawfulIdentity f e] {xs : List M} (h : xs ≠ []) :
    tally (Option.merge f) none (xs.map some) = some (tally f e xs) := by
  induction xs
  case nil => exact absurd rfl h
  case cons x xs hi =>
    rw [List.map_cons, cons, cons]
    cases xs
    case nil      => exact congrArg some (Std.LawfulRightIdentity.right_id x).symm
    case cons y ys => rw [hi (List.cons_ne_nil y ys), Option.merge_some_some]

section Commutative

variable [Std.Commutative f] [Std.Associative f]

theorem left_comm (x y z : M) : f x (f y z) = f y (f x z) := by
  have hc : f x y = f y x := Std.Commutative.comm x y
  rw [← assoc (f := f), hc, assoc (f := f)]

theorem perm {xs ys : List M} (h : xs.Perm ys) : tally f e xs = tally f e ys := by
  induction h
  case nil                 => rfl
  case cons hi             => rw [cons, cons, hi]
  case swap                => exact left_comm ..
  case trans h₁ h₂         => exact h₁.trans h₂

end Commutative

end tally

namespace column

variable {e}

@[simp]
theorem nil (i : Nat) : column e i [] = [] :=
  rfl

@[simp]
theorem cons (i : Nat) (row : List M) (rows : List (List M)) :
    column e i (row :: rows) = row.getD i e :: column e i rows :=
  rfl

@[simp]
theorem append (i : Nat) (rows rows' : List (List M)) :
    column e i (rows ++ rows') = column e i rows ++ column e i rows' :=
  List.map_append

theorem perm {rows rows' : List (List M)} (h : rows.Perm rows') (i : Nat) :
    (column e i rows).Perm (column e i rows') :=
  h.map _

end column

-- Rows with keys, rolled up to one row for each key. Every key has an operation of its own. Rows that
-- were rolled up can take the place of those they came from.

variable {κ α : Type*} [DecidableEq κ] (op : κ → α → α → α)

namespace Rollup

-- What the rows of a key come to; `none` if there are none.
def valueAt (k : κ) (rows : List (κ × α)) : Option α :=
  tally (Option.merge (op k)) none ((rows.filter (·.fst = k)).map (some ·.snd))

-- One row for each key, in the order in which the keys first appear.
def rollup (rows : List (κ × α)) : List (κ × α) :=
  (internAll (rows.map Prod.fst)).filterMap fun k => (valueAt op k rows).map (k, ·)

variable {op} {k : κ}

theorem valueAt_eq_none_iff {rows : List (κ × α)} : valueAt op k rows = none ↔ k ∉ rows.map Prod.fst := by
  induction rows
  case nil => simp [valueAt]
  case cons row rows hi =>
    rw [valueAt] at hi ⊢
    by_cases hk : row.fst = k
    case pos => simp [hk, Option.merge_eq_none_iff]
    case neg => simp [hk, hi, Ne.symm hk]

theorem valueAt_congr {op op' : κ → α → α → α} (h : op k = op' k) (rows : List (κ × α)) :
    valueAt op k rows = valueAt op' k rows := by
  rw [valueAt, valueAt, h]

theorem valueAt_filter (p : κ → Bool) (rows : List (κ × α)) :
    valueAt op k (rows.filter (p ·.fst)) = if p k then valueAt op k rows else none := by
  have hf : (rows.filter (p ·.fst)).filter (·.fst = k)
      = if p k then rows.filter (·.fst = k) else [] := by
    induction rows
    case nil => simp
    case cons row rows hi =>
      by_cases hk : row.fst = k
      case pos => cases hp : p k <;> simp_all
      case neg => cases hp : p row.fst <;> simp_all
  rw [valueAt, hf]
  split <;> rfl

-- Renaming the keys.
theorem valueAt_map_key {ν : Type*} [DecidableEq ν] {g : κ → ν} (hg : Function.Injective g)
    {op' : ν → α → α → α} (ho : op' (g k) = op k) (rows : List (κ × α)) :
    valueAt op' (g k) (rows.map fun row => (g row.fst, row.snd)) = valueAt op k rows := by
  rw [valueAt, valueAt, List.filter_map, List.map_map, ho]
  simp [Function.comp_def, hg.eq_iff]

theorem rollup_nodup (op : κ → α → α → α) (rows : List (κ × α)) : ((rollup op rows).map Prod.fst).Nodup := by
  have hs : ((rollup op rows).map Prod.fst).Sublist (internAll (rows.map Prod.fst)) := by
    rw [rollup]
    induction internAll (rows.map Prod.fst)
    case nil => exact .slnil
    case cons k ks hi =>
      cases hv : valueAt op k rows
      case none   => simpa [hv] using hi.cons k
      case some a => simpa [hv] using hi.cons_cons k
  exact hs.nodup (nodup_internAll _)

theorem mem_rollup_iff {rows : List (κ × α)} {a : α} :
    (k, a) ∈ rollup op rows ↔ valueAt op k rows = some a := by
  simp only [rollup, List.mem_filterMap, mem_internAll_iff, Option.map_eq_some_iff, Prod.mk.injEq]
  constructor
  case mp =>
    rintro ⟨k', _, a', hv, rfl, rfl⟩
    exact hv
  case mpr =>
    intro hv
    refine ⟨k, ?_, a, hv, rfl, rfl⟩
    by_contra hk
    rw [valueAt_eq_none_iff.mpr hk] at hv
    cases hv

-- Rows with a key each have the value that is given with the key.
theorem valueAt_of_nodup {rows : List (κ × α)} (hn : (rows.map Prod.fst).Nodup) (k : κ) :
    valueAt op k rows = Dict.getIn k rows := by
  induction rows
  case nil => rfl
  case cons row rows hi =>
    have ⟨k', a⟩ := row
    simp only [List.map_cons, List.nodup_cons] at hn
    have hi := hi hn.2
    rw [valueAt] at hi ⊢
    rw [Dict.getIn]
    by_cases hk : k' = k
    case pos =>
      have hnone : valueAt op k rows = none := valueAt_eq_none_iff.mpr (hk ▸ hn.1)
      rw [valueAt] at hnone
      simp [hk, hnone]
    case neg => simp [hk, hi]

-- Rows that were rolled up have one value for each key, the one of the rows they came from.
theorem valueAt_rollup (rows : List (κ × α)) (k : κ) :
    valueAt op k (rollup op rows) = valueAt op k rows := by
  have hn := rollup_nodup op rows
  ext a
  rw [valueAt_of_nodup hn, Dict.getIn_eq_some_iff hn, mem_rollup_iff]

-- Parts without those of a selection, and the selection, are the parts and what the selection repeats.
theorem filter_append_perm {ρ : Type*} [DecidableEq ρ] {parts selected : List ρ} (hn : parts.Nodup)
    (hs : selected ⊆ parts) : (parts.filter (· ∉ selected) ++ selected).Perm
      (parts ++ selected.diff selected.dedup) := by
  have hparts : (parts.filter (· ∉ selected) ++ selected.dedup).Perm parts := by
    refine ((List.perm_ext_iff_of_nodup hn ?_).mpr fun r => ?_).symm
    · refine List.nodup_append'.mpr ⟨hn.filter _, selected.nodup_dedup, fun r hm hm' => ?_⟩
      exact of_decide_eq_true (List.mem_filter.mp hm).2 (List.mem_dedup.mp hm')
    · by_cases hr : r ∈ selected
      case pos => simp [hr, hs hr]
      case neg => simp [hr]
  have hselected : (selected.dedup ++ selected.diff selected.dedup).Perm selected :=
    List.subperm_append_diff_self_of_count_le fun r _ => (List.dedup_sublist selected).count_le r
  have hp := hselected.symm.append_left (parts.filter (· ∉ selected))
  rw [← List.append_assoc] at hp
  exact hp.trans (hparts.append_right _)

-- Where a key has rows in one part only, and the part is there once, the key has the value of that part.
theorem valueAt_flatMap_of_unique {ρ : Type*} [BEq ρ] [LawfulBEq ρ] {part : ρ → List (κ × α)}
    {parts : List ρ} {r : ρ} (hc : parts.count r = 1)
    (hk : ∀ r' ∈ parts, r' ≠ r → k ∉ (part r').map Prod.fst) :
    valueAt op k (parts.flatMap part) = valueAt op k (part r) := by
  have hf : ∀ r' ∈ parts, r' ≠ r → (part r').filter (·.fst = k) = [] := by
    intro r' hm hr
    refine List.filter_eq_nil_iff.mpr fun row hrow he => hk r' hm hr ?_
    exact List.mem_map.mpr ⟨row, hrow, of_decide_eq_true he⟩
  have he : (parts.flatMap part).filter (·.fst = k) = (part r).filter (·.fst = k) := by
    clear hk
    rw [List.filter_flatMap]
    induction parts
    case nil => simp at hc
    case cons r' parts hi =>
      rw [List.flatMap_cons]
      by_cases hr : r' = r
      case pos =>
        have hnone : r ∉ parts := by
          rw [hr, List.count_cons_self] at hc
          exact List.count_eq_zero.mp (by omega)
        have htail : parts.flatMap (fun r => (part r).filter (·.fst = k)) = [] :=
          List.flatMap_eq_nil_iff.mpr fun r'' hm => hf r'' (.tail _ hm) fun h => hnone (h ▸ hm)
        rw [htail, List.append_nil, hr]
      case neg =>
        rw [List.count_cons_of_ne hr] at hc
        rw [hf r' (.head _) hr, List.nil_append, hi hc fun r'' hm => hf r'' (.tail _ hm)]
  rw [valueAt, he, valueAt]

section Associative

variable [∀ k, Std.Associative (op k)]

theorem valueAt_append (rows rows' : List (κ × α)) :
    valueAt op k (rows ++ rows') = (valueAt op k rows).merge (op k) (valueAt op k rows') := by
  rw [valueAt, List.filter_append, List.map_append, tally.append]
  rfl

variable [∀ k, Std.Commutative (op k)]

theorem valueAt_perm {rows rows' : List (κ × α)} (h : rows.Perm rows') :
    valueAt op k rows = valueAt op k rows' :=
  tally.perm <| (h.filter _).map _

-- Rows that are there already change nothing where the operation takes no notice of repetitions.
theorem valueAt_append_of_subset [Std.IdempotentOp (op k)] {rows rows' : List (κ × α)}
    (h : rows' ⊆ rows) : (valueAt op k rows).merge (op k) (valueAt op k rows') = valueAt op k rows := by
  have hrow : ∀ row ∈ rows, row.fst = k →
      (valueAt op k rows).merge (op k) (some row.snd) = valueAt op k rows := by
    intro row hm hk
    have ⟨before, after, he⟩ := List.append_of_mem hm
    have hp : rows.Perm (before ++ after ++ [row]) := by
      rw [he, List.append_assoc]
      have hc : ([row] ++ after).Perm (after ++ [row]) := List.perm_append_comm
      exact hc.append_left before
    have hv : valueAt op k [row] = some row.snd := by simp [valueAt, hk]
    have hi : (some row.snd).merge (op k) (some row.snd) = some row.snd :=
      @Std.IdempotentOp.idempotent _ (Option.merge (op k)) _ _
    have ha := tally.assoc (f := Option.merge (op k)) (valueAt op k (before ++ after)) (some row.snd)
      (some row.snd)
    rw [valueAt_perm hp, valueAt_append, hv, ha, hi]
  induction rows'
  case nil => exact Option.merge_none_right
  case cons row rows' hi =>
    have hi := hi fun x hx => h (.tail _ hx)
    have hsplit : valueAt op k (row :: rows') = (valueAt op k [row]).merge (op k) (valueAt op k rows') :=
      valueAt_append [row] rows'
    have ha := tally.assoc (f := Option.merge (op k)) (valueAt op k rows) (valueAt op k [row])
      (valueAt op k rows')
    rw [hsplit, ← ha]
    by_cases hk : row.fst = k
    case pos =>
      have hv : valueAt op k [row] = some row.snd := by simp [valueAt, hk]
      rw [hv, hrow row (h (.head _)) hk, hi]
    case neg =>
      have hv : valueAt op k [row] = none := by simp [valueAt, hk]
      rw [hv, Option.merge_none_right, hi]

-- Rows in parts. Rows that have the value of some of the parts, one part perhaps more than once, take
-- the place of these parts: the value changes by what the parts that were repeated come to.
variable {ρ : Type*} [DecidableEq ρ] {part : ρ → List (κ × α)} {parts selected : List ρ}

omit [DecidableEq κ] in
theorem subset_of_mem_diff (hs : selected ⊆ parts) :
    (selected.diff selected.dedup).flatMap part ⊆ parts.flatMap part := by
  intro row h
  have ⟨r, hr, hm⟩ := List.mem_flatMap.mp h
  exact List.mem_flatMap.mpr ⟨r, hs (List.diff_subset _ _ hr), hm⟩

theorem valueAt_replace {rolled : List (κ × α)} (hn : parts.Nodup) (hs : selected ⊆ parts)
    (hr : valueAt op k rolled = valueAt op k (selected.flatMap part)) :
    valueAt op k ((parts.filter (· ∉ selected)).flatMap part ++ rolled)
      = (valueAt op k (parts.flatMap part)).merge (op k)
          (valueAt op k ((selected.diff selected.dedup).flatMap part)) := by
  have hp := (filter_append_perm hn hs).flatMap_right part
  rw [valueAt_append, hr, ← valueAt_append, ← List.flatMap_append, valueAt_perm hp, List.flatMap_append,
    valueAt_append]

theorem valueAt_replace_of_idempotent [Std.IdempotentOp (op k)] {rolled : List (κ × α)} (hn : parts.Nodup)
    (hs : selected ⊆ parts) (hr : valueAt op k rolled = valueAt op k (selected.flatMap part)) :
    valueAt op k ((parts.filter (· ∉ selected)).flatMap part ++ rolled)
      = valueAt op k (parts.flatMap part) := by
  rw [valueAt_replace hn hs hr, valueAt_append_of_subset (subset_of_mem_diff hs)]

end Associative

-- Adding up.

section Add

variable {op : κ → Nat → Nat → Nat}

theorem valueAt_sum_eq_zero_iff {rows : List (κ × Nat)} :
    (valueAt (fun _ => (· + ·)) k rows).getD 0 = 0 ↔ ∀ row ∈ rows, row.fst = k → row.snd = 0 := by
  induction rows
  case nil => simp [valueAt]
  case cons row rows hi =>
    have hsplit : valueAt (fun _ => (· + ·)) k (row :: rows)
        = (valueAt (fun _ => (· + ·)) k [row]).merge (· + ·) (valueAt (fun _ => (· + ·)) k rows) :=
      valueAt_append [row] rows
    rw [List.forall_mem_cons, ← hi, hsplit]
    by_cases hk : row.fst = k
    case pos =>
      have hv : valueAt (fun _ => (· + ·)) k [row] = some row.snd := by simp [valueAt, hk]
      rw [hv]
      cases valueAt (fun _ => (· + ·)) k rows <;> simp [hk]
    case neg =>
      have hv : valueAt (fun _ => (· + ·)) k [row] = none := by simp [valueAt, hk]
      simp [hv, hk]

theorem valueAt_eq_zero_iff_of_add (ho : op k = (· + ·)) {rows : List (κ × Nat)} :
    (valueAt op k rows).getD 0 = 0 ↔ ∀ row ∈ rows, row.fst = k → row.snd = 0 := by
  have hv : valueAt op k rows = valueAt (fun _ => (· + ·)) k rows := valueAt_congr ho rows
  rw [hv, valueAt_sum_eq_zero_iff]

theorem merge_add_eq_left_iff {a b : Option Nat} (h : a = none → b = none) :
    a.merge (· + ·) b = a ↔ b.getD 0 = 0 := by
  cases a
  case none   => simp [h rfl]
  case some a => cases b <;> simp

theorem mem_diff_dedup_iff {ρ : Type*} [DecidableEq ρ] {selected : List ρ} {r : ρ} :
    r ∈ selected.diff selected.dedup ↔ 1 < selected.count r := by
  rw [← List.count_pos_iff, List.count_diff, List.count_dedup]
  split
  case isTrue h  => omega
  case isFalse h => simp [List.count_eq_zero_of_not_mem h]

variable (op) in
-- Where values are added up, the value stays iff the parts that were repeated come to nothing.
theorem valueAt_replace_iff_of_add [∀ k, Std.Associative (op k)] [∀ k, Std.Commutative (op k)]
    {ρ : Type*} [DecidableEq ρ] {part : ρ → List (κ × Nat)} {parts selected : List ρ}
    {rolled : List (κ × Nat)} (ho : op k = (· + ·)) (hn : parts.Nodup) (hs : selected ⊆ parts)
    (hr : valueAt op k rolled = valueAt op k (selected.flatMap part)) :
    valueAt op k ((parts.filter (· ∉ selected)).flatMap part ++ rolled)
        = valueAt op k (parts.flatMap part) ↔
      ∀ r, 1 < selected.count r → ∀ row ∈ part r, row.fst = k → row.snd = 0 := by
  have hnone : valueAt op k (parts.flatMap part) = none →
      valueAt op k ((selected.diff selected.dedup).flatMap part) = none := by
    simp only [valueAt_eq_none_iff]
    exact mt fun h => List.map_subset _ (subset_of_mem_diff hs) h
  rw [valueAt_replace hn hs hr, ho, merge_add_eq_left_iff hnone, valueAt_eq_zero_iff_of_add ho]
  simp only [List.mem_flatMap, mem_diff_dedup_iff]
  exact ⟨fun h r hr row hm => h row ⟨r, hr, hm⟩, fun h row ⟨r, hr, hm⟩ => h r hr row hm⟩

end Add

end Rollup
