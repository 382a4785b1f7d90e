import Covsight.Ncdb.DfsUtil
import Covsight.Lib.Rollup
import Mathlib.Data.List.GetD

abbrev Counts := List Nat

-- The bins that are not additive, each with its merge operation.
abbrev MergeOps := Dict Nat Nat

def opSum : Nat := 0
def opMax : Nat := 1

def opForCoverType : CoverTypeT → Nat
  | .peakActiveBin => opMax
  | _              => opSum

namespace MergeOps

-- The member a database is written with; `none` when every bin is additive.
def write (db : MemUCIS) : Option MergeOps :=
  let entries := db.coverItems.zipIdx.filterMap fun (ci, index) =>
    if opForCoverType ci.data.type = opSum then none else some (index, opForCoverType ci.data.type)
  if entries.isEmpty then none else some (Dict.ofList entries)

-- An absent member reads as the empty table.
def read (ops : Option MergeOps) : MergeOps :=
  ops.getD ∅

-- The operation a bin is merged with.
def binOp (ops : MergeOps) (bin : Nat) : Nat → Nat → Nat :=
  if ops.get? bin = some opMax then max else (· + ·)

end MergeOps

-- The width of the widest row.
def width (rows : List Counts) : Nat :=
  (rows.map List.length).foldr max 0

-- `map(sum, zip(*rows))`: as wide as the shortest row.
def zipSum (rows : List Counts) : Counts :=
  (List.range ((rows.map List.length).min?.getD 0)).map fun bin => (column 0 bin rows).sum

def mergeCounts (allCounts : List Counts) (ops : MergeOps) : Counts :=
  if allCounts.isEmpty then
    []
  else
    ops.entries.foldl (fun merged (bin, op) =>
      if op = opMax ∧ bin < merged.length then
        merged.set bin ((column 0 bin allCounts).foldr max 0)
      else
        merged) (zipSum allCounts)

-- Shorter rows are extended with zeros on the right.
def padCounts (rows : List Counts) : List Counts :=
  rows.map fun a => a ++ List.replicate (width rows - a.length) 0

-- What a merge is for: each bin combines the counts the rows have for it by the bin's operation.
def combine (ops : MergeOps) (rows : List Counts) : Counts :=
  (List.range (width rows)).map fun bin => tally (ops.binOp bin) 0 (column 0 bin rows)

namespace Counts

@[ext]
theorem ext {a b : Counts} (hl : a.length = b.length) (h : ∀ bin, a.getD bin 0 = b.getD bin 0) :
    a = b := by
  refine List.ext_getElem hl fun bin h₁ h₂ => ?_
  have hb := h bin
  rwa [List.getD_eq_getElem _ _ h₁, List.getD_eq_getElem _ _ h₂] at hb

theorem getD_of_length_le {a : Counts} {bin : Nat} (h : a.length ≤ bin) : a.getD bin 0 = 0 :=
  List.getD_eq_default _ _ h

theorem getD_map_range (f : Nat → Nat) (n bin : Nat) :
    ((List.range n).map f).getD bin 0 = if bin < n then f bin else 0 := by
  split
  case isTrue h  => rw [List.getD_eq_getElem _ _ (by simpa using h)]; simp
  case isFalse h => exact getD_of_length_le (by simpa using h)

@[simp]
theorem getD_append_replicate (a : Counts) (n bin : Nat) :
    (a ++ List.replicate n 0).getD bin 0 = a.getD bin 0 := by
  by_cases h : bin < a.length
  case pos => rw [List.getD_append _ _ _ _ h]
  case neg =>
    rw [List.getD_append_right _ _ _ _ (by omega), getD_of_length_le (Nat.le_of_not_lt h)]
    simp only [List.getD, List.getElem?_replicate]
    split <;> rfl

end Counts

namespace MergeOps

variable (ops : MergeOps) (bin : Nat)

instance : Std.Commutative (ops.binOp bin) := by
  unfold binOp; split <;> infer_instance

instance : Std.Associative (ops.binOp bin) := by
  unfold binOp; split <;> infer_instance

instance : Std.LawfulIdentity (ops.binOp bin) 0 := by
  unfold binOp; split <;> infer_instance

end MergeOps

namespace width

theorem le {rows : List Counts} {a : Counts} (h : a ∈ rows) : a.length ≤ width rows := by
  induction rows
  case nil => cases h
  case cons r rows hi =>
    rw [width, List.map_cons, List.foldr_cons]
    cases h
    case head   => exact Nat.le_max_left ..
    case tail h => exact Nat.le_trans (hi h) (Nat.le_max_right ..)

theorem append (rows rows' : List Counts) :
    width (rows ++ rows') = max (width rows) (width rows') := by
  simp only [width, List.map_append]
  exact tally.append ..

theorem perm {rows rows' : List Counts} (h : rows.Perm rows') : width rows = width rows' :=
  tally.perm (h.map _)

@[simp]
theorem singleton (a : Counts) : width [a] = a.length :=
  Nat.max_zero _

theorem eq_of_uniform {rows : List Counts} {w : Nat} (hn : rows ≠ [])
    (h : ∀ a ∈ rows, a.length = w) : width rows = w := by
  induction rows
  case nil => contradiction
  case cons r rows hi =>
    have hr := h r List.mem_cons_self
    cases rows
    case nil => simp [hr]
    case cons r' rows =>
      have hw := hi (by simp) fun a ha => h a (List.mem_cons_of_mem _ ha)
      rw [width, List.map_cons, List.foldr_cons, hr, ← width, hw, Nat.max_self]

end width

namespace column

theorem eq_zero {rows : List Counts} {bin : Nat} (h : width rows ≤ bin) :
    ∀ c ∈ column 0 bin rows, c = 0 := by
  intro c hc
  have ⟨a, ha, hc⟩ := List.mem_map.mp hc
  rw [← hc]
  exact Counts.getD_of_length_le <| Nat.le_trans (width.le ha) h

@[simp]
theorem of_padCounts (bin : Nat) (rows : List Counts) :
    column 0 bin (padCounts rows) = column 0 bin rows := by
  simp only [column, padCounts, List.map_map]
  refine List.map_congr_left fun a _ => ?_
  exact Counts.getD_append_replicate ..

end column

theorem padCounts_uniform {rows : List Counts} : ∀ a ∈ padCounts rows, a.length = width rows := by
  intro a ha
  have ⟨r, hr, ha⟩ := List.mem_map.mp ha
  have hw := width.le hr
  simp only [← ha, List.length_append, List.length_replicate]
  omega

-- The result of a `zip` over rows of one width.

theorem zipSum_length {rows : List Counts} {w : Nat} (hn : rows ≠ [])
    (h : ∀ a ∈ rows, a.length = w) : (zipSum rows).length = w := by
  have hm : (rows.map List.length).min? = some w := by
    rw [List.min?_eq_some_iff]
    refine ⟨?_, by simp +contextual [h]⟩
    have ⟨r, hr⟩ := List.exists_mem_of_ne_nil _ hn
    exact List.mem_map.mpr ⟨r, hr, h r hr⟩
  simp [zipSum, hm]

theorem zipSum_getD {rows : List Counts} {w : Nat} (hn : rows ≠ []) (hw : ∀ a ∈ rows, a.length = w)
    (bin : Nat) : (zipSum rows).getD bin 0 = (column 0 bin rows).sum := by
  have hl := zipSum_length hn hw
  simp only [zipSum, List.length_map, List.length_range] at hl
  rw [zipSum, hl, Counts.getD_map_range]
  split
  case isTrue    => rfl
  case isFalse h =>
    have hz := column.eq_zero <| width.eq_of_uniform hn hw ▸ Nat.le_of_not_lt h
    exact (tally.eq_unit (f := fun a b : Nat => a + b) hz).symm

-- Replacing the bins listed as maxima.
def setMaxima (rows : List Counts) (es : List (Nat × Nat)) (merged : Counts) : Counts :=
  es.foldl (fun merged (bin, op) =>
    if op = opMax ∧ bin < merged.length then
      merged.set bin ((column 0 bin rows).foldr max 0)
    else
      merged) merged

namespace setMaxima

theorem length (rows : List Counts) (es : List (Nat × Nat)) (merged : Counts) :
    (setMaxima rows es merged).length = merged.length := by
  induction es generalizing merged
  case nil => rfl
  case cons e es hi =>
    rw [setMaxima, List.foldl_cons, ← setMaxima, hi]
    by_cases h : e.2 = opMax ∧ e.1 < merged.length <;> simp [h]

theorem getD {rows : List Counts} {es : List (Nat × Nat)} (hn : (es.map Prod.fst).Nodup)
    (merged : Counts) (bin : Nat) :
    (setMaxima rows es merged).getD bin 0
      = if Dict.getIn bin es = some opMax ∧ bin < merged.length then
          (column 0 bin rows).foldr max 0
        else
          merged.getD bin 0 := by
  induction es generalizing merged
  case nil => simp [setMaxima, Dict.getIn]
  case cons e es hi =>
    obtain ⟨hm, hn⟩ := List.nodup_cons.mp hn
    rw [setMaxima, List.foldl_cons, ← setMaxima, hi hn]
    by_cases he : e.1 = bin
    case pos =>
      have hg : Dict.getIn bin es = none := Dict.getIn_eq_none_iff.mpr (he ▸ hm)
      simp only [hg, he, Dict.getIn, if_true, reduceCtorEq, false_and, if_false, Option.some.injEq]
      split
      case isTrue h  => rw [List.getD_eq_getElem _ _ (by simpa using h.2)]; simp
      case isFalse h => rfl
    case neg =>
      simp only [he, Dict.getIn, if_false]
      split
      case isTrue h  => simp [List.getD, List.getElem?_set_ne he]
      case isFalse h => rfl

end setMaxima

namespace mergeCounts

theorem eq_setMaxima {rows : List Counts} (hn : rows ≠ []) (ops : MergeOps) :
    mergeCounts rows ops = setMaxima rows ops.entries (zipSum rows) := by
  rw [mergeCounts, if_neg (by simpa using hn)]
  rfl

theorem length {rows : List Counts} {w : Nat} (hn : rows ≠ []) (hw : ∀ a ∈ rows, a.length = w)
    (ops : MergeOps) : (mergeCounts rows ops).length = w := by
  rw [eq_setMaxima hn, setMaxima.length, zipSum_length hn hw]

theorem getD {rows : List Counts} {w : Nat} (hn : rows ≠ []) (hw : ∀ a ∈ rows, a.length = w)
    (ops : MergeOps) (bin : Nat) :
    (mergeCounts rows ops).getD bin 0 = tally (ops.binOp bin) 0 (column 0 bin rows) := by
  rw [eq_setMaxima hn, setMaxima.getD ops.nodup, zipSum_getD hn hw, zipSum_length hn hw]
  change (if ops.get? bin = _ ∧ _ then _ else _) = _
  by_cases ho : ops.get? bin = some opMax
  case neg => simp only [ho, false_and, if_false, MergeOps.binOp, tally, List.sum]
  case pos =>
    simp only [ho, true_and, if_true, MergeOps.binOp]
    split
    case isTrue    => rfl
    case isFalse h =>
      have hz := column.eq_zero <| width.eq_of_uniform hn hw ▸ Nat.le_of_not_lt h
      rw [tally.eq_unit hz]
      exact tally.eq_unit (f := fun a b : Nat => a + b) hz

end mergeCounts

namespace combine

variable (ops : MergeOps)

@[simp]
theorem length (rows : List Counts) : (combine ops rows).length = width rows := by
  simp [combine]

theorem getD (rows : List Counts) (bin : Nat) :
    (combine ops rows).getD bin 0 = tally (ops.binOp bin) 0 (column 0 bin rows) := by
  rw [combine, Counts.getD_map_range]
  split
  case isTrue    => rfl
  case isFalse h => exact (tally.eq_unit <| column.eq_zero <| Nat.le_of_not_lt h).symm

theorem perm {rows rows' : List Counts} (h : rows.Perm rows') :
    combine ops rows = combine ops rows' := by
  ext bin
  case hl => rw [length, length, width.perm h]
  case h  => rw [getD, getD, tally.perm <| column.perm h bin]

@[simp]
theorem singleton (a : Counts) : combine ops [a] = a := by
  ext bin
  case hl => rw [length, width.singleton]
  case h  => rw [getD, column.cons, column.nil, tally.singleton]

-- Rows that were combined before can be combined again with the rest.
theorem cons_combine (rows rows' : List Counts) :
    combine ops (combine ops rows :: rows') = combine ops (rows ++ rows') := by
  ext bin
  case hl =>
    rw [length, length, width.append, ← List.singleton_append, width.append, width.singleton,
      length]
  case h => rw [getD, getD, column.cons, tally.cons, getD, column.append, tally.append]

theorem eq_mergeCounts {rows : List Counts} {w : Nat} (hn : rows ≠ [])
    (hw : ∀ a ∈ rows, a.length = w) : mergeCounts rows ops = combine ops rows := by
  ext bin
  case hl => rw [mergeCounts.length hn hw, length, width.eq_of_uniform hn hw]
  case h  => rw [mergeCounts.getD hn hw, getD]

theorem eq_mergeCounts_padCounts {rows : List Counts} (hn : rows ≠ []) :
    mergeCounts (padCounts rows) ops = combine ops rows := by
  have hp : padCounts rows ≠ [] := by simpa [padCounts] using hn
  rw [eq_mergeCounts ops hp padCounts_uniform]
  ext bin
  case hl => rw [length, length, width.eq_of_uniform hp padCounts_uniform]
  case h  => rw [getD, getD, column.of_padCounts]

end combine
