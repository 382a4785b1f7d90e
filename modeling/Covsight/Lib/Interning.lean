import Mathlib.Data.List.Infix
import Mathlib.Data.List.Nodup
import Mathlib.Data.List.Perm.Subperm
import Mathlib.Tactic.Common

-- Interning numbers values by first use. The table only grows at its end, so a number that was
-- handed out keeps its value.

variable {α : Type*} [DecidableEq α]

def intern (table : List α) (x : α) : Nat × List α :=
  if x ∈ table then (table.idxOf x, table) else (table.length, table ++ [x])

namespace intern

variable {table table' : List α} {x : α}

theorem extends_table (table : List α) (x : α) : table <+: (intern table x).snd := by
  rw [intern]
  split
  case isTrue  => exact List.prefix_rfl
  case isFalse => exact List.prefix_append ..

theorem get? (table : List α) (x : α) : (intern table x).snd[(intern table x).fst]? = some x := by
  rw [intern]
  split
  case isTrue h  => exact List.getElem?_eq_some_iff.mpr ⟨List.idxOf_lt_length_of_mem h, by simp⟩
  case isFalse   => simp

-- The number stays good while the table grows.
theorem get?_of_prefix (h : (intern table x).snd <+: table') :
    table'[(intern table x).fst]? = some x := by
  have ⟨hl, hx⟩ := List.getElem?_eq_some_iff.mp (get? table x)
  exact List.prefix_iff_getElem?.mp h _ hl ▸ congrArg some hx

theorem nodup (h : table.Nodup) : (intern table x).snd.Nodup := by
  rw [intern]
  split
  case isTrue     => exact h
  case isFalse hx =>
    refine List.nodup_append.mpr ⟨h, List.nodup_singleton x, fun y hy z hz he => hx ?_⟩
    exact List.mem_singleton.mp hz ▸ he ▸ hy

theorem mem_iff {y : α} : y ∈ (intern table x).snd ↔ y ∈ table ∨ y = x := by
  rw [intern]
  split
  case isTrue h  => exact ⟨.inl, fun hy => hy.elim id fun he => he ▸ h⟩
  case isFalse   => simp

end intern

-- Interning the values of a table without repetitions gives the table back.
def internAll (xs : List α) : List α :=
  xs.foldl (fun table x => (intern table x).snd) []

theorem foldl_intern {xs table : List α} (h : (table ++ xs).Nodup) :
    xs.foldl (fun table x => (intern table x).snd) table = table ++ xs := by
  induction xs generalizing table
  case nil => simp
  case cons x xs hi =>
    have hx : x ∉ table := fun hm => (List.nodup_append.mp h).2.2 x hm x (.head _) rfl
    rw [List.foldl_cons, intern, if_neg hx, hi (by simpa using h)]
    simp

theorem internAll_of_nodup {xs : List α} (h : xs.Nodup) : internAll xs = xs := by
  rw [internAll, foldl_intern (by simpa using h), List.nil_append]

theorem nodup_internAll (xs : List α) : (internAll xs).Nodup :=
  List.foldlRecOn xs _ List.nodup_nil fun _ h _ _ => intern.nodup h

@[simp]
theorem mem_internAll_iff {xs : List α} {x : α} : x ∈ internAll xs ↔ x ∈ xs := by
  have hf : ∀ table : List α, x ∈ xs.foldl (fun table x => (intern table x).snd) table ↔
      x ∈ table ∨ x ∈ xs := by
    induction xs
    case nil => simp
    case cons y ys hi =>
      intro table
      rw [List.foldl_cons, hi, intern.mem_iff, List.mem_cons, or_assoc]
  rw [internAll, hf, or_iff_right List.not_mem_nil]

-- Only a table without repetitions is as long as what was interned.
theorem nodup_of_length_le_internAll {xs : List α} (h : xs.length ≤ (internAll xs).length) :
    xs.Nodup := by
  have hs : (internAll xs).Subperm xs :=
    List.subperm_of_subset (nodup_internAll xs) fun x hx => mem_internAll_iff.mp hx
  exact (hs.perm_of_length_le h).nodup_iff.mp (nodup_internAll xs)

-- Values that are changed on the way to a table keep their numbers if and only if none is changed.
theorem getElem?_internAll_map_iff {β : Type*} {xs : List β} {f g : β → α} (hg : (xs.map g).Nodup) :
    (∀ i < xs.length, (internAll (xs.map f))[i]? = xs[i]?.map g) ↔ ∀ x ∈ xs, f x = g x where
  mp h := by
    have hl : (xs.map f).length ≤ (internAll (xs.map f)).length := by
      by_contra hn
      rw [List.length_map] at hn
      have hi : (internAll (xs.map f)).length < xs.length := Nat.lt_of_not_le hn
      have := h _ hi
      rw [List.getElem?_eq_none (Nat.le_refl _), List.getElem?_eq_getElem hi] at this
      cases this
    have hx := internAll_of_nodup (nodup_of_length_le_internAll hl)
    intro x hm
    have ⟨i, hi, he⟩ := List.mem_iff_getElem.mp hm
    have := h i hi
    rw [hx, List.getElem?_map, List.getElem?_eq_getElem hi, he] at this
    exact Option.some.inj this
  mpr h i _ := by
    rw [List.map_congr_left h, internAll_of_nodup hg, List.getElem?_map]

theorem prefix_foldl_intern (xs table : List α) :
    table <+: xs.foldl (fun table x => (intern table x).snd) table := by
  induction xs generalizing table
  case nil          => exact List.prefix_rfl
  case cons x xs hi => exact (intern.extends_table table x).trans (hi _)

theorem getElem?_internAll_zero (x : α) (xs : List α) : (internAll (x :: xs))[0]? = some x := by
  have hp := prefix_foldl_intern xs [x]
  exact List.prefix_iff_getElem?.mp hp 0 Nat.zero_lt_one

-- A table that grows by what is wanted and not there yet.
theorem foldl_wanted {β : Type*} (f : β → α) (p : α → Prop) [DecidablePred p] (ys : List β) (table : List α) :
    ys.foldl (fun table y => if p (f y) ∧ f y ∉ table then table ++ [f y] else table) table =
      ((ys.map f).filter p).foldl (fun table x => (intern table x).snd) table := by
  induction ys generalizing table with
  | nil          => rfl
  | cons y ys hi =>
    rw [List.foldl_cons, hi, List.map_cons, List.filter_cons]
    by_cases hp : p (f y)
    case neg => simp [hp]
    case pos =>
      by_cases hm : f y ∈ table
      case pos => simp [hp, hm, intern]
      case neg => simp [hp, hm, intern]

-- What the table is once several values have been interned in turn.
def internInto (table xs : List α) : List α :=
  xs.foldl (fun table x => (intern table x).snd) table

theorem internInto_extends_table (table xs : List α) : table <+: internInto table xs := by
  induction xs generalizing table
  case nil          => exact List.prefix_rfl
  case cons x xs hi => exact (intern.extends_table table x).trans (hi _)

theorem internInto_of_mem {table : List α} {x : α} (h : x ∈ table) : internInto table [x] = table :=
  congrArg Prod.snd (if_pos h)

theorem internInto_of_not_mem {table : List α} {x : α} (h : x ∉ table) : internInto table [x] = table ++ [x] :=
  congrArg Prod.snd (if_neg h)

namespace intern

variable {table : List α} {x : α}

theorem fst_lt (table : List α) (x : α) : (intern table x).fst < (intern table x).snd.length :=
  (List.getElem?_eq_some_iff.mp (get? table x)).fst

theorem snd_of_mem (h : x ∈ table) : (intern table x).snd = table := by
  rw [intern, if_pos h]

theorem length_le {n : Nat} (h : table.length ≤ n) (hn : (intern table x).fst < n) :
    (intern table x).snd.length ≤ n := by
  rw [intern] at hn ⊢
  split
  case isTrue     => exact h
  case isFalse hx =>
    rw [if_neg hx] at hn
    simpa using Nat.succ_le_of_lt hn

-- A value whose number is that of a value that is there is that value.
theorem eq_of_fst {y : α} {i : Nat} (hi : table[i]? = some y) (he : (intern table x).fst = i) : x = y := by
  have hx := get? table x
  have hy := List.prefix_iff_getElem?.mp (extends_table table x) i (List.getElem?_eq_some_iff.mp hi).fst
  have hl := (List.getElem?_eq_some_iff.mp hi).snd
  rw [he, hy, Option.some.injEq] at hx
  exact hx.symm.trans hl

end intern

section

-- Matching the elements of several lists by a key. Elements of one list with the same key are told
-- apart by their order: the n-th of them matches the n-th with that key in every other list.

variable {α κ : Type*} [DecidableEq κ] (key : α → κ)

-- The key of every element, with the number of elements of that key before it.
def numbered : (seen : List κ) → List α → List (κ × Nat)
  | _,    []      => []
  | seen, x :: xs => (key x, seen.count (key x)) :: numbered (key x :: seen) xs

variable {key} in
theorem mem_numbered {k : κ} {n : Nat} {seen : List κ} {xs : List α} :
    (k, n) ∈ numbered key seen xs ↔ seen.count k ≤ n ∧ n < seen.count k + (xs.map key).count k := by
  induction xs generalizing seen with
  | nil          => simp [numbered]
  | cons x xs hi =>
    rw [numbered, List.mem_cons, hi, List.map_cons, Prod.mk.injEq]
    by_cases hk : k = key x
    case pos =>
      subst hk
      rw [List.count_cons_self, List.count_cons_self, and_iff_right rfl]
      omega
    case neg =>
      rw [List.count_cons_of_ne (Ne.symm hk), List.count_cons_of_ne (Ne.symm hk)]
      simp [hk]

theorem nodup_numbered (seen : List κ) (xs : List α) : (numbered key seen xs).Nodup := by
  induction xs generalizing seen with
  | nil          => exact .nil
  | cons x xs hi =>
    refine List.nodup_cons.mpr ⟨fun hm => ?_, hi _⟩
    have hm := (mem_numbered.mp hm).left
    rw [List.count_cons_self] at hm
    exact absurd hm (Nat.not_succ_le_self _)

-- The element with a numbered key.
def occurrence (xs : List α) (k : κ × Nat) : Option α :=
  (xs.filter (key · = k.fst))[k.snd]?

-- The groups of matching elements in the order in which their keys first appear. A list that has no
-- matching element adds nothing to a group.
def matching (xss : List (List α)) : List (List α) :=
  (internAll (xss.flatMap (numbered key []))).map fun k => xss.filterMap (occurrence key · k)

end
