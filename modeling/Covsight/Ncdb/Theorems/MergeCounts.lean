import Covsight.Ncdb.Theorems.ItemValues
import Covsight.Ncdb.Theorems.Multirun
import Covsight.Ncdb.Theorems.NcdbMerger
import Mathlib.Algebra.BigOperators.Group.List.Basic

-- The counts of a merge against the counts that its sources are read with.

namespace RunMembers

variable {a : RunMembers} {counts : Counts} {bin : Nat}

-- The rows that reading all runs combines.
def readRows (a : RunMembers) : List Counts :=
  if a.runTable.entries.isEmpty then a.counts.toList else a.arraysOf a.runIds

theorem resolveCounts_ok (h : a.resolveCounts none = .ok counts) :
    counts = combine a.ops a.readRows := by
  by_cases he : a.runTable.entries = []
  case pos =>
    simp only [resolveCounts, readRows, he, List.isEmpty_nil, if_true] at h ⊢
    split at h <;> cases h
    case h_1 hc => rw [hc]; exact (combine.singleton a.ops counts).symm
  case neg =>
    have hr : a.readRows = a.arraysOf a.runIds := by simp [readRows, he]
    rw [resolveCounts_known he (by simp), Option.getD_none, ← hr] at h
    exact (Except.ok.inj h).symm

-- The count array that a merge adds.
def baseline (a : RunMembers) : Counts :=
  a.counts.getD []

-- The rows of the appended runs, which a merge leaves out.
def leftOut (a : RunMembers) : List Counts :=
  a.readRows.erase a.baseline

-- The baseline of a bin where the run table lists it, and where it does not.

def listed (a : RunMembers) (bin : Nat) : Nat :=
  if a.baseline ∈ a.readRows then a.baseline.getD bin 0 else 0

def unlisted (a : RunMembers) (bin : Nat) : Nat :=
  if a.baseline ∈ a.readRows then 0 else a.baseline.getD bin 0

-- What the rows that are left out add to the baseline.
def surplus (a : RunMembers) (bin : Nat) : Nat :=
  if a.ops.get? bin = some opMax then
    (column 0 bin a.leftOut).foldr max 0 - a.listed bin
  else
    (column 0 bin a.leftOut).sum

theorem listed_add_unlisted (a : RunMembers) (bin : Nat) :
    a.listed bin + a.unlisted bin = a.baseline.getD bin 0 := by
  rw [listed, unlisted]
  split <;> simp

theorem tally_readRows (a : RunMembers) (bin : Nat) :
    tally (a.ops.binOp bin) 0 (column 0 bin a.readRows)
      = a.ops.binOp bin (a.listed bin) (tally (a.ops.binOp bin) 0 (column 0 bin a.leftOut)) := by
  rw [listed, leftOut]
  split
  case isTrue h  => rw [tally.perm (column.perm (List.perm_cons_erase h) bin)]; rfl
  case isFalse h => rw [List.erase_of_not_mem h]; exact (Std.LawfulLeftIdentity.left_id _).symm

-- The count a bin is read with.
theorem combine_readRows_getD (a : RunMembers) (bin : Nat) :
    (combine a.ops a.readRows).getD bin 0 = a.listed bin + a.surplus bin := by
  rw [combine.getD, tally_readRows, surplus, MergeOps.binOp]
  split
  case isTrue  => rw [Nat.add_comm, Nat.sub_add_eq_max, Nat.max_comm]; rfl
  case isFalse => rfl

end RunMembers

namespace NcdbReader

theorem Read.countAt_source {a : Archive} {db : LoadedUCIS} (rd : Read a none db) {n : Nat}
    (hn : n < db.coverItems.length) :
    countAt n db = a.listed (binAt n a) + a.surplus (binAt n a) := by
  rw [rd.countAt_eq hn, RunMembers.resolveCounts_ok rd.resolved, RunMembers.combine_readRows_getD]

theorem binAt_congr {a a' : Archive} (h : a.SameSchema a') (n : Nat) : binAt n a = binAt n a' := by
  rw [binAt, binAt, h.scopeTree, h.strings]

end NcdbReader

namespace NcdbMerger

open NcdbReader

variable {accel : Bool} {sources : List Archive} {counts : Counts}

-- The accelerated addition of two arrays drops what does not fit into 32 bits.
def wraps (accel : Bool) (sources : List Archive) : Bool :=
  accel ∧ sources.length = 2 ∧ (mergedOps sources).entries.isEmpty

theorem readCounts_mapM {rows : List Counts} (h : sources.mapM readCounts = .ok rows) :
    rows = sources.map (·.baseline) := by
  induction sources generalizing rows
  case nil => cases h; rfl
  case cons a sources hi =>
    rw [List.mapM_cons] at h
    have ⟨row, ha, h⟩ := bind_ok h
    have ⟨rows', hr, h⟩ := bind_ok h
    cases h
    have hc := orRaise_ok ha
    rw [List.map_cons, ← hi hr, RunMembers.baseline, hc]
    rfl

theorem addUint32Arrays_getD {a b : Counts} (hl : a.length = b.length)
    (h : addUint32Arrays a b = .ok counts) (bin : Nat) :
    counts.getD bin 0 = (a.getD bin 0 + b.getD bin 0) % 2 ^ 32 := by
  rw [addUint32Arrays] at h
  split at h <;> cases h
  by_cases hb : bin < a.length
  case pos =>
    have hz : bin < (List.zipWith (fun x y => (x + y) % 2 ^ 32) a b).length := by simp [← hl, hb]
    rw [List.getD_eq_getElem _ _ hz, List.getElem_zipWith, List.getD_eq_getElem _ _ hb,
      List.getD_eq_getElem _ _ (hl ▸ hb)]
  case neg =>
    have hz : (List.zipWith (fun x y => (x + y) % 2 ^ 32) a b).length ≤ bin := by
      simpa [← hl] using hb
    rw [Counts.getD_of_length_le hz, Counts.getD_of_length_le (Nat.le_of_not_lt hb),
      Counts.getD_of_length_le (hl ▸ Nat.le_of_not_lt hb), Nat.zero_mod]

theorem mergeSourceCounts_getD {rows : List Counts} {ops : MergeOps} {w : Nat} (hn : rows ≠ [])
    (hw : ∀ row ∈ rows, row.length = w) (h : mergeSourceCounts accel ops rows = .ok counts)
    (bin : Nat) :
    counts.getD bin 0
      = if accel ∧ rows.length = 2 ∧ ops.entries.isEmpty then (column 0 bin rows).sum % 2 ^ 32
        else tally (ops.binOp bin) 0 (column 0 bin rows) := by
  cases he : ops.entries.isEmpty
  case false =>
    simp only [mergeSourceCounts, he, Bool.false_eq_true, not_false_eq_true, if_true] at h
    cases h
    rw [if_neg (by simp), mergeCounts.getD hn hw]
  case true =>
    have ho : ops.get? bin = none := by
      rw [Dict.get?, List.isEmpty_iff.mp he]
      rfl
    have hs : tally (ops.binOp bin) 0 (column 0 bin rows) = (column 0 bin rows).sum := by
      rw [MergeOps.binOp, if_neg (by simp [ho])]
      rfl
    simp only [mergeSourceCounts, he, not_true_eq_false, if_false] at h
    rw [hs]
    split at h
    case h_1 a b =>
      rw [if_pos (by simp)]
      exact addUint32Arrays_getD ((hw a (by simp)).trans (hw b (by simp)).symm) h bin
    case h_2 hr =>
      cases h
      rw [if_neg ?_, zipSum_getD hn hw]
      rintro ⟨ha, hl, _⟩
      obtain ⟨a, b, hab⟩ := List.length_eq_two.mp hl
      exact hr a b ha hab

theorem mergeSourceCounts_length {rows : List Counts} {ops : MergeOps} {w : Nat} (hn : rows ≠ [])
    (hw : ∀ row ∈ rows, row.length = w) (h : mergeSourceCounts accel ops rows = .ok counts) :
    counts.length = w := by
  simp only [mergeSourceCounts] at h
  split at h
  case isTrue =>
    cases h
    exact mergeCounts.length hn hw ops
  case isFalse =>
    split at h
    case h_2 =>
      cases h
      exact zipSum_length hn hw
    case h_1 a b =>
      rw [addUint32Arrays] at h
      split at h <;> cases h
      rw [List.length_zipWith, hw a (by simp), hw b (by simp), Nat.min_self]

theorem combineCounts_ok (h : combineCounts accel sources = .ok counts) :
    (∀ row ∈ sources.map (·.baseline), row.length
      = ((sources.map (·.baseline)).headD []).length) ∧
    mergeSourceCounts accel (mergedOps sources) (sources.map (·.baseline)) = .ok counts := by
  rw [combineCounts] at h
  have ⟨rows, hr, h⟩ := bind_ok h
  simp only at h
  split at h
  case h_1 => cases h
  case h_2 hf =>
    have ⟨merged, hm, h⟩ := bind_ok h
    rw [← readCounts_mapM hr, countsSerialize_ok (runMembers_orRaise_ok h)]
    exact ⟨by simpa using hf, hm⟩

-- Every bin of the merged counts combines the baselines.
theorem combineCounts_getD (hn : sources ≠ []) (h : combineCounts accel sources = .ok counts)
    (bin : Nat) :
    counts.getD bin 0
      = if wraps accel sources then
          (column 0 bin (sources.map (·.baseline))).sum % 2 ^ 32
        else
          tally ((mergedOps sources).binOp bin) 0 (column 0 bin (sources.map (·.baseline))) := by
  have ⟨hw, hm⟩ := combineCounts_ok h
  rw [mergeSourceCounts_getD (by simpa using hn) hw hm]
  simp [wraps]

-- What the accelerated addition drops.
def dropped (accel : Bool) (sources : List Archive) (bin : Nat) : Nat :=
  if wraps accel sources then
    2 ^ 32 * ((column 0 bin (sources.map (·.baseline))).sum / 2 ^ 32)
  else
    0

-- When a bin keeps its count. The appended runs of a bin that is merged by maximum must not exceed
-- all baselines and a baseline that is out of its run table must not exceed all that is read;
-- otherwise the appended runs and what is dropped must make up for the baselines that are out of
-- their run tables.
def CountsKept (accel : Bool) (sources : List Archive) (bin : Nat) : Prop :=
  if (mergedOps sources).get? bin = some opMax then
    (∀ a ∈ sources, ∃ a' ∈ sources, a.listed bin + a.surplus bin ≤ a'.baseline.getD bin 0) ∧
    (∀ a ∈ sources, ∃ a' ∈ sources, a.unlisted bin ≤ a'.listed bin + a'.surplus bin)
  else
    (sources.map (·.surplus bin)).sum + dropped accel sources bin
      = (sources.map (·.unlisted bin)).sum

instance (bin : Nat) : Decidable (CountsKept accel sources bin) := by
  unfold CountsKept; infer_instance

theorem foldr_max_le_iff {xs : List Nat} {n : Nat} : xs.foldr max 0 ≤ n ↔ ∀ x ∈ xs, x ≤ n := by
  induction xs
  case nil          => simp
  case cons x xs hi => simp [hi]

theorem le_foldr_max_iff {xs : List Nat} {n : Nat} (hn : xs ≠ []) :
    n ≤ xs.foldr max 0 ↔ ∃ x ∈ xs, n ≤ x := by
  induction xs
  case nil => contradiction
  case cons x xs hi =>
    rw [List.foldr_cons, le_max_iff, List.exists_mem_cons_iff]
    cases xs
    case nil        => simp +contextual
    case cons x' xs => rw [hi (by simp)]

theorem foldr_max_eq_iff {α : Type*} {xs : List α} {f g : α → Nat} (hn : xs ≠ []) :
    (xs.map f).foldr max 0 = (xs.map g).foldr max 0 ↔
    (∀ x ∈ xs, ∃ y ∈ xs, g x ≤ f y) ∧ (∀ x ∈ xs, ∃ y ∈ xs, f x ≤ g y) := by
  rw [Nat.le_antisymm_iff, foldr_max_le_iff, foldr_max_le_iff, and_comm]
  simp only [le_foldr_max_iff (mt List.map_eq_nil_iff.mp hn), List.mem_map,
    exists_exists_and_eq_and, forall_exists_index, and_imp, forall_apply_eq_imp_iff₂]

theorem countsKept_iff (hn : sources ≠ []) (bin : Nat) :
    (if wraps accel sources then
        (column 0 bin (sources.map (·.baseline))).sum % 2 ^ 32
      else
        tally ((mergedOps sources).binOp bin) 0 (column 0 bin (sources.map (·.baseline))))
      = tally ((mergedOps sources).binOp bin) 0 (sources.map fun a => a.listed bin + a.surplus bin) ↔
    CountsKept accel sources bin := by
  have hc : column 0 bin (sources.map (·.baseline))
      = sources.map fun a => a.listed bin + a.unlisted bin := by
    rw [column, List.map_map]
    exact List.map_congr_left fun a _ => (a.listed_add_unlisted bin).symm
  by_cases ho : (mergedOps sources).get? bin = some opMax
  case pos =>
    have hw : wraps accel sources = false := by
      have he : (mergedOps sources).entries ≠ [] := by
        intro he
        simp [Dict.get?, he, Dict.getIn] at ho
      simp [wraps, he]
    have hb : (mergedOps sources).binOp bin = max := by rw [MergeOps.binOp, if_pos ho]
    rw [CountsKept, if_pos ho, hw, hb, hc]
    refine (foldr_max_eq_iff hn).trans (and_congr ?_ ?_)
    · simp only [RunMembers.listed_add_unlisted]
    · refine forall₂_congr fun a ha => ?_
      by_cases h : a.baseline ∈ a.readRows
      case neg => rw [RunMembers.listed, if_neg h, Nat.zero_add]
      case pos =>
        rw [RunMembers.unlisted, if_pos h, Nat.add_zero]
        exact iff_of_true ⟨a, ha, Nat.le_add_right ..⟩ ⟨a, ha, Nat.zero_le _⟩
  case neg =>
    have hb : (mergedOps sources).binOp bin = (· + ·) := by rw [MergeOps.binOp, if_neg ho]
    have hs : ∀ xs : List Nat, tally (· + ·) 0 xs = xs.sum := fun _ => rfl
    rw [CountsKept, if_neg ho, dropped, hb, hc, hs, hs, List.sum_map_add, List.sum_map_add]
    split
    case isFalse => omega
    case isTrue =>
      have hd := Nat.div_add_mod ((sources.map (·.listed bin)).sum + (sources.map (·.unlisted bin)).sum) (2 ^ 32)
      omega

variable {node : HistoryNode} {first out : Archive} {rest : List Archive} {db : LoadedUCIS}

-- A merged archive is read with its merged counts.
theorem Merged.read_counts (m : Merged accel node first rest out) (rd : Read out none db) :
    rd.counts = m.counts := by
  have hw : out.Written m.counts := by
    constructor <;> simp [m.out_runs]
  have hv : (Dict.empty.set baselineRunId m.counts).values = [m.counts] := rfl
  have hr := hw.holds.resolveCounts_all
  rw [hv, combine.singleton, rd.resolved] at hr
  exact Except.ok.inj hr

-- An archive with one item, and the same archive after a second run was appended.
def singleRun : Archive where
  counts    := some [1]
  manifest  := { pathSeparator := "/" }
  strings   := ["block", "stmt"]
  scopeTree := [.regular { type := .block, nameRef := 0, coverType := some .stmtBin } [1] []]

def doubleRun : Archive :=
  { singleRun with
    runs      := some ⟨[
      { runId := baselineRunId, member := .counts },
      { runId := "run-0001", member := .run 0 }
    ]⟩
    runCounts := Dict.empty.set 0 [2]
  }

end NcdbMerger
