import Mathlib.Algebra.GroupWithZero.Nat
import Mathlib.Data.List.TakeWhile
import Mathlib.Tactic.Common

-- Segments stored one after the other in a heap, each closed by a terminator, and addressed by
-- their offsets.

namespace Heap

variable {α : Type*} [DecidableEq α] (stop : α)

def pack (segs : List (List α)) : List α :=
  segs.flatMap (· ++ [stop])

def offsetsFrom (start : Nat) : List (List α) → List Nat
  | []          => []
  | seg :: segs => start :: offsetsFrom (start + (seg.length + 1)) segs

def offsets (segs : List (List α)) : List Nat :=
  offsetsFrom 0 segs

-- The segment at an offset, up to its terminator; `none` where there is no terminator.
def readAt (heap : List α) (offset : Nat) : Option (List α) :=
  if stop ∈ heap.drop offset then some ((heap.drop offset).takeWhile (· ≠ stop)) else none

-- The cells that some segments take.
def size (segs : List (List α)) : Nat :=
  (segs.map (·.length + 1)).sum

variable {stop}

omit [DecidableEq α] in
theorem pack_length (segs : List (List α)) : (pack stop segs).length = size segs := by
  induction segs <;> simp_all [pack, size]
  omega

theorem readAt_pack {seg : List α} (h : stop ∉ seg) (before after : List α) :
    readAt stop (before ++ (seg ++ stop :: after)) before.length = some seg := by
  have hp : ∀ x ∈ seg, decide (x ≠ stop) = true := by
    intro x hx
    simpa using ne_of_mem_of_not_mem hx h
  rw [readAt, List.drop_left, if_pos (by simp), List.takeWhile_append_of_pos hp]
  simp

-- What is read stops before the terminator.
theorem not_mem_of_readAt {heap : List α} {offset : Nat} {seg : List α}
    (h : readAt stop heap offset = some seg) : stop ∉ seg := by
  rw [readAt] at h
  split at h <;> cases h
  intro hm
  simpa using List.mem_takeWhile_imp hm

theorem not_mem_of_mapM_readAt {heap : List α} {base : Nat} {offsets : List Nat}
    {segs : List (List α)}
    (h : offsets.mapM (fun offset => readAt stop heap (base + offset)) = some segs) :
    ∀ seg ∈ segs, stop ∉ seg := by
  induction offsets generalizing segs
  case nil =>
    cases h
    simp
  case cons offset offsets hi =>
    rw [List.mapM_cons] at h
    have ⟨seg, hs, h⟩ := Option.bind_eq_some_iff.mp h
    have ⟨segs, ht, h⟩ := Option.bind_eq_some_iff.mp h
    cases h
    exact List.forall_mem_cons.mpr ⟨not_mem_of_readAt hs, hi ht⟩

-- Segments without the terminator are read back from the heap they were packed in.
theorem mapM_readAt {segs : List (List α)} (h : ∀ seg ∈ segs, stop ∉ seg) (before after : List α) :
    (offsetsFrom before.length segs).mapM (readAt stop (before ++ (pack stop segs ++ after)))
      = some segs := by
  induction segs generalizing before
  case nil => rfl
  case cons seg segs hi =>
    have hr := readAt_pack (h seg (.head _)) before (pack stop segs ++ after)
    have hi := hi (fun s hs => h s (.tail _ hs)) (before ++ seg ++ [stop])
    simp only [List.length_append, List.length_singleton, List.append_assoc,
      List.singleton_append] at hi
    simp only [pack, offsetsFrom, List.flatMap_cons, List.mapM_cons, List.append_assoc,
      List.singleton_append] at hr hi ⊢
    simp [hr, hi]

omit [DecidableEq α] in
theorem offsetsFrom_add (base start : Nat) (segs : List (List α)) :
    offsetsFrom (base + start) segs = (offsetsFrom start segs).map (base + ·) := by
  induction segs generalizing start
  case nil             => rfl
  case cons seg segs hi => simp only [offsetsFrom, List.map_cons, Nat.add_assoc, hi]

omit [DecidableEq α] in
theorem length_offsets (segs : List (List α)) : (offsets segs).length = segs.length := by
  have hf : ∀ start, (offsetsFrom start segs).length = segs.length := by
    induction segs
    case nil              => exact fun start => rfl
    case cons seg segs hi => exact fun start => congrArg (· + 1) (hi _)
  exact hf 0

omit [DecidableEq α] in
theorem offsets_concat (segs : List (List α)) (seg : List α) :
    offsets (segs ++ [seg]) = offsets segs ++ [size segs] := by
  have hf : ∀ start, offsetsFrom start (segs ++ [seg]) = offsetsFrom start segs ++ [start + size segs] := by
    induction segs
    case nil               => exact fun start => rfl
    case cons seg' segs hi =>
      intro start
      rw [List.cons_append, offsetsFrom, hi, offsetsFrom, List.cons_append, size, size, List.map_cons,
        List.sum_cons, Nat.add_assoc]
  rw [offsets, hf, offsets, Nat.zero_add]

-- The same, with offsets counted from a base in the heap.
theorem mapM_readAt_base {segs : List (List α)} (h : ∀ seg ∈ segs, stop ∉ seg)
    (before after : List α) :
    (offsets segs).mapM
      (fun offset => readAt stop (before ++ (pack stop segs ++ after)) (before.length + offset))
      = some segs := by
  have hb := mapM_readAt h before after
  rwa [← Nat.add_zero before.length, offsetsFrom_add, List.mapM_map] at hb

end Heap
