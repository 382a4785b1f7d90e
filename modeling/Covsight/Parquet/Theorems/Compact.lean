import Covsight.Ncdb.Theorems.Annotations
import Covsight.Parquet.Query

-- What a compaction leaves as it was. The rows of the rollup take the place of those of its sources;
-- a source that is named twice is counted twice.

namespace ParquetDataset

-- The counts.

def mergeRule (d : ParquetDataset) (id : Nat) : Nat → Nat → Nat :=
  if id ∈ d.nonAdditiveIds then Nat.max else (· + ·)

instance (d : ParquetDataset) (id : Nat) : Std.Commutative (d.mergeRule id) where
  comm a b := by rw [mergeRule]; split <;> [exact Nat.max_comm a b; exact Nat.add_comm a b]

instance (d : ParquetDataset) (id : Nat) : Std.Associative (d.mergeRule id) where
  assoc a b c := by rw [mergeRule]; split <;> [exact Nat.max_assoc a b c; exact Nat.add_assoc a b c]

theorem mergeRule_of_additive {d : ParquetDataset} {id : Nat} (h : id ∉ d.nonAdditiveIds) :
    d.mergeRule id = (· + ·) :=
  if_neg h

theorem mergeRule_of_nonAdditive {d : ParquetDataset} {id : Nat} (h : id ∈ d.nonAdditiveIds) :
    d.mergeRule id = Nat.max :=
  if_pos h

theorem valueAt_mergeRule (d : ParquetDataset) (id : Nat) (rows : List CountRow) :
    Rollup.valueAt d.mergeRule id rows = if id ∈ d.nonAdditiveIds
      then Rollup.valueAt (fun _ => Nat.max) id rows
      else Rollup.valueAt (fun _ => (· + ·)) id rows := by
  by_cases h : id ∈ d.nonAdditiveIds
  case pos => rw [if_pos h, Rollup.valueAt, Rollup.valueAt, mergeRule_of_nonAdditive h]
  case neg => rw [if_neg h, Rollup.valueAt, Rollup.valueAt, mergeRule_of_additive h]

theorem mem_mergedCountsTable_iff {d : ParquetDataset} {id n : Nat} :
    (id, n) ∈ d.mergedCountsTable ↔ Rollup.valueAt d.mergeRule id d.countRows = some n := by
  rw [mergedCountsTable, valueAt_mergeRule]
  split
  case isTrue h => simp [List.isEmpty_iff.mp h, Rollup.valueAt]
  case isFalse =>
    split
    case isTrue h =>
      have hid : id ∉ d.nonAdditiveIds := List.isEmpty_iff.mp h ▸ List.not_mem_nil
      rw [groupSum, Rollup.mem_rollup_iff, if_neg hid]
    case isFalse =>
      rw [List.mem_append, groupSum, groupMax, Rollup.mem_rollup_iff, Rollup.mem_rollup_iff,
        Rollup.valueAt_filter (decide <| · ∉ d.nonAdditiveIds),
        Rollup.valueAt_filter (decide <| · ∈ d.nonAdditiveIds)]
      by_cases hp : id ∈ d.nonAdditiveIds
      case pos => simp [hp]
      case neg => simp [hp]

theorem mergedCountsTable_nodup (d : ParquetDataset) : (d.mergedCountsTable.map Prod.fst).Nodup := by
  have hn : ∀ op rows, ((Rollup.rollup op rows : List CountRow).map Prod.fst).Nodup := Rollup.rollup_nodup
  rw [mergedCountsTable]
  split
  case isTrue => exact .nil
  case isFalse =>
    split
    case isTrue => exact hn _ _
    case isFalse =>
      rw [List.map_append, List.nodup_append']
      refine ⟨hn _ _, hn _ _, ?_⟩
      simp only [List.disjoint_left, List.mem_map, Prod.exists]
      rintro _ ⟨id, n, hm, rfl⟩ ⟨_, n', hm', rfl⟩
      rw [groupSum, Rollup.mem_rollup_iff, Rollup.valueAt_filter (decide <| · ∉ d.nonAdditiveIds)] at hm
      rw [groupMax, Rollup.mem_rollup_iff, Rollup.valueAt_filter (decide <| · ∈ d.nonAdditiveIds)] at hm'
      grind

theorem get?_counts (d : ParquetDataset) (id : Nat) :
    d.counts.get? id = Rollup.valueAt d.mergeRule id d.countRows := by
  ext n
  rw [counts, Dict.get?_eq_some_iff, Dict.entries_ofList d.mergedCountsTable_nodup,
    mem_mergedCountsTable_iff]

theorem valueAt_mergedCountsTable (d : ParquetDataset) (id : Nat) :
    Rollup.valueAt d.mergeRule id d.mergedCountsTable = Rollup.valueAt d.mergeRule id d.countRows := by
  ext n
  rw [Rollup.valueAt_of_nodup d.mergedCountsTable_nodup, Dict.getIn_eq_some_iff d.mergedCountsTable_nodup,
    mem_mergedCountsTable_iff]

-- The associations.

-- What the rows of a test and a bin come to.
def assocCount (d : ParquetDataset) (testId : String) (coveritemId : Nat) : Option Nat :=
  Rollup.valueAt (fun _ => (· + ·)) (testId, coveritemId) <|
    d.assocRows.map fun row => ((row.testId, row.coveritemId), row.count.getD 0)

def assocEntry (row : AssocRow) : (String × Nat) × Nat :=
  ((row.testId, row.coveritemId), row.count.getD 0)

theorem valueAt_mergedAssoc (d : ParquetDataset) (key : String × Nat) :
    Rollup.valueAt (fun _ => (· + ·)) key (d.mergedAssoc.map assocEntry)
      = Rollup.valueAt (fun _ => (· + ·)) key (d.assocRows.map assocEntry) := by
  rw [mergedAssoc, List.map_map]
  exact (Rollup.valueAt_perm <| (List.map_id' _).symm ▸ List.perm_insertionSort _ _).trans
    (Rollup.valueAt_rollup _ key)

end ParquetDataset

-- What is told about a bin: the status, and how far the proof goes.
abbrev Told := FormalStatus × Nat

namespace Told

def join (a b : Told) : Told :=
  (FormalStatus.join a.fst b.fst, max a.snd b.snd)

instance : Std.Commutative join where
  comm a b := Prod.ext (@Std.Commutative.comm _ FormalStatus.join _ a.fst b.fst) (Nat.max_comm a.snd b.snd)

instance : Std.Associative join where
  assoc a b c := Prod.ext (@Std.Associative.assoc _ FormalStatus.join _ a.fst b.fst c.fst)
    (Nat.max_assoc a.snd b.snd c.snd)

instance : Std.IdempotentOp join where
  idempotent a := Prod.ext (@Std.IdempotentOp.idempotent _ FormalStatus.join _ a.fst) (Nat.max_self a.snd)

instance : Std.LawfulIdentity join (0, 0) where
  left_id a  := Prod.ext (@Std.LawfulLeftIdentity.left_id _ _ FormalStatus.join 0 _ a.fst) (Nat.zero_max a.snd)
  right_id a := Prod.ext (@Std.LawfulRightIdentity.right_id _ _ FormalStatus.join 0 _ a.fst) (Nat.max_zero a.snd)

def of (fd : FormalData) : Told :=
  (FormalStatus.of <| fd.status.getD formalNone, fd.radius.getD 0)

-- How it is reported.
def report (told : Told) : Option Nat × Option Nat :=
  (some told.fst.val, if told.snd = 0 then none else some told.snd)

theorem tally_eq (rows : List FormalData) : tally join (0, 0) (rows.map of) =
    (tally FormalStatus.join 0 (rows.map fun fd => FormalStatus.of <| fd.status.getD formalNone),
      (rows.map (·.radius.getD 0)).foldr max 0) := by
  induction rows
  case nil             => rfl
  case cons fd rows hi => rw [List.map_cons, tally.cons, hi]; rfl

-- A result without a status tells as much as one with the status none.
theorem tally_filterMap (rows : List FormalData) :
    tally FormalStatus.join 0 ((rows.filterMap (·.status)).map FormalStatus.of)
      = tally FormalStatus.join 0 (rows.map fun fd => FormalStatus.of <| fd.status.getD formalNone) := by
  induction rows
  case nil => rfl
  case cons fd rows hi =>
    rw [List.map_cons, tally.cons, ← hi]
    cases hs : fd.status
    case none =>
      rw [List.filterMap_cons_none hs]
      exact (@Std.LawfulLeftIdentity.left_id _ _ FormalStatus.join 0 _ _).symm
    case some s => rw [List.filterMap_cons_some hs, List.map_cons, tally.cons, Option.getD_some]

theorem report_mergedFormal (rows : List FormalData) :
    ((ParquetDataset.mergedFormal rows).status, (ParquetDataset.mergedFormal rows).radius)
      = report (tally join (0, 0) (rows.map of)) := by
  rw [tally_eq, ← tally_filterMap, report, ← FormalStatus.mergeFormalStatuses_eq_tally]
  rfl

theorem of_mergedFormal (rows : List FormalData) :
    of (ParquetDataset.mergedFormal rows) = tally join (0, 0) (rows.map of) := by
  rw [tally_eq, ← tally_filterMap, ← FormalStatus.of_mergeFormalStatuses, of,
    ParquetDataset.mergedFormal]
  refine Prod.ext rfl ?_
  grind

end Told

namespace ParquetDataset

-- The formal results.

def toldRows (rows : List FormalRow) : List (Nat × Told) :=
  rows.map fun row => (row.fst, Told.of row.snd)

theorem valueAt_toldRows (rows : List FormalRow) (id : Nat) :
    Rollup.valueAt (fun _ => Told.join) id (toldRows rows) = if id ∈ rows.map Prod.fst
      then some <| tally Told.join (0, 0) <| ((rows.filter (·.fst = id)).map Prod.snd).map Told.of
      else none := by
  have hk : (toldRows rows).map Prod.fst = rows.map Prod.fst := by
    rw [toldRows, List.map_map]
    rfl
  split
  case isTrue h =>
    have hne : ((rows.filter (·.fst = id)).map Prod.snd).map Told.of ≠ [] := by
      simpa [List.filter_eq_nil_iff] using h
    rw [← tally.merge_some hne, Rollup.valueAt, toldRows, List.filter_map, List.map_map, List.map_map,
      List.map_map]
    rfl
  case isFalse h => rw [Rollup.valueAt_eq_none_iff, hk]; exact h

theorem get?_formalData (d : ParquetDataset) (id : Nat) :
    d.formalData.get? id = if id ∈ d.formalRows.map Prod.fst
      then some <| mergedFormal <| (d.formalRows.filter (·.fst = id)).map Prod.snd
      else none := by
  have hk : d.formalEntries.map Prod.fst = internAll (d.formalRows.map Prod.fst) := by
    rw [formalEntries, List.map_map]
    exact List.map_id _
  have hn : (d.formalEntries.map Prod.fst).Nodup := hk ▸ nodup_internAll _
  ext fd
  rw [formalData, Dict.get?_eq_some_iff, Dict.entries_ofList hn, formalEntries, List.mem_map]
  simp only [mem_internAll_iff]
  grind

theorem of_formalData (d : ParquetDataset) (id : Nat) :
    (d.formalData.get? id).map Told.of
      = Rollup.valueAt (fun _ => Told.join) id (toldRows d.formalRows) := by
  rw [get?_formalData, valueAt_toldRows]
  split
  case isTrue  => rw [Option.map_some, Told.of_mergedFormal]
  case isFalse => rfl

-- What is reported about a bin.
theorem report_formalData (d : ParquetDataset) (id : Nat) :
    (d.formalData.get? id).map (fun fd => (fd.status, fd.radius))
      = (Rollup.valueAt (fun _ => Told.join) id (toldRows d.formalRows)).map Told.report := by
  rw [get?_formalData, valueAt_toldRows]
  split
  case isTrue  => rw [Option.map_some, Told.report_mergedFormal, Option.map_some]
  case isFalse => rfl

theorem valueAt_formalTable (d : ParquetDataset) (id : Nat) :
    Rollup.valueAt (fun _ => Told.join) id (toldRows d.formalTable)
      = Rollup.valueAt (fun _ => Told.join) id (toldRows d.formalRows) := by
  have hp : (toldRows d.formalTable).Perm (toldRows d.formalData.entries) :=
    (List.perm_insertionSort _ _).map _
  have hk : (toldRows d.formalData.entries).map Prod.fst = d.formalData.keys := by
    rw [toldRows, List.map_map]
    rfl
  have hn : ((toldRows d.formalData.entries).map Prod.fst).Nodup := hk ▸ d.formalData.keys_nodup
  ext told
  rw [Rollup.valueAt_perm hp, Rollup.valueAt_of_nodup hn, Dict.getIn_eq_some_iff hn, ← of_formalData,
    Option.map_eq_some_iff]
  simp only [Dict.get?_eq_some_iff, toldRows, List.mem_map]
  grind

end ParquetDataset

namespace Dataset

-- All runs, read as one.
def allRuns (ds : Dataset) : ParquetDataset :=
  ⟨ds, ds.runIds⟩

-- The rows of a run.
def partition {α : Type} (ds : Dataset) (table : Measures → List α) (runId : String) : List α :=
  ((ds.runs.get? runId).map table).getD []

theorem measurement_snd {α : Type} (d : ParquetDataset) (table : Measures → List α) :
    (d.measurement table).map Prod.snd = d.selection.flatMap (d.dataset.partition table) := by
  simp only [ParquetDataset.measurement, List.map_flatMap, List.map_map, Function.comp_def, List.map_id']
  rfl

-- What all runs come to.
structure SameView (ds ds' : Dataset) : Prop where
  counts : ∀ id, ds'.allRuns.counts.get? id = ds.allRuns.counts.get? id
  formal : ∀ id, (ds'.allRuns.formalData.get? id).map (fun fd => (fd.status, fd.radius))
    = (ds.allRuns.formalData.get? id).map fun fd => (fd.status, fd.radius)
  assoc  : ∀ testId id, ds'.allRuns.assocCount testId id = ds.allRuns.assocCount testId id

-- A run that is selected more than once has nothing to add up.
def RepeatedRunsIdle (ds : Dataset) (selected : List String) : Prop :=
  ∀ runId, 1 < selected.count runId →
    (∀ row ∈ ds.partition (·.counts) runId, row.fst ∉ ds.allRuns.nonAdditiveIds → row.snd = 0) ∧
    ∀ row ∈ ds.partition (·.testCoverAssoc) runId, row.count.getD 0 = 0

-- The rollup of a selection, in the place of its runs or beside them.
structure Compacted (ds ds' : Dataset) (selected : List String) (dropSources : Bool)
    (into mergeName : String) : Prop where
  subset      : selected ⊆ ds.runIds
  fresh       : into ∉ ds.runIds
  definitions : ds'.definitions = ds.definitions
  runs        : ds'.runs.entries =
    (if dropSources then ds.runs.entries.filter (·.fst ∉ selected) else ds.runs.entries) ++
      [(into, (⟨ds, selected⟩ : ParquetDataset).rolledUp into mergeName)]

end Dataset

theorem select_ok {ds : Dataset} {runs : Option (List String)} {d : ParquetDataset}
    (h : ParquetDataset.select ds runs = .ok d) :
    d = ⟨ds, runs.getD ds.runIds⟩ ∧ runs.getD ds.runIds ⊆ ds.runIds := by
  rw [ParquetDataset.select] at h
  split at h
  case isTrue => cases h
  case isFalse =>
    dsimp only at h
    split at h
    case isTrue hm =>
      have hd : (⟨ds, runs.getD ds.runIds⟩ : ParquetDataset) = d := by simpa using h
      refine ⟨hd.symm, fun r hr => ?_⟩
      by_contra hn
      have hr : r ∈ (runs.getD ds.runIds).filter (· ∉ ds.runIds) :=
        List.mem_filter.mpr ⟨hr, decide_eq_true hn⟩
      rw [List.isEmpty_iff.mp hm] at hr
      cases hr
    case isFalse => cases h

theorem foldl_dropRun (ds : Dataset) (selected : List String) :
    (selected.foldl dropRun ds).definitions = ds.definitions ∧
      (selected.foldl dropRun ds).runs.entries = ds.runs.entries.filter (·.fst ∉ selected) := by
  induction selected generalizing ds
  case nil => simp
  case cons runId selected hi =>
    have ⟨hd, hr⟩ := hi (dropRun ds runId)
    refine ⟨hd, ?_⟩
    rw [List.foldl_cons, hr, dropRun, Dict.pop, Dict.entries_filterKeys, List.filter_filter]
    refine List.filter_congr fun row _ => ?_
    grind

theorem compact_ok {ds ds' : Dataset} {runs : Option (List String)} {intoRunId : Option String}
    {dropSources : Bool} {mergeName : String} (h : compact ds runs intoRunId dropSources mergeName = .ok ds') :
    ds.Compacted ds' (runs.getD ds.runIds) dropSources
      (intoRunId.getD (rollupName (runs.getD ds.runIds))) mergeName := by
  rw [compact] at h
  cases hs : ParquetDataset.select ds runs
  case error => rw [hs] at h; cases h
  case ok d =>
    have ⟨hd, hsub⟩ := select_ok hs
    rw [hs, hd] at h
    simp only [bind, Except.bind, pure, Except.pure, throw, throwThe, MonadExceptOf.throw] at h
    generalize intoRunId.getD (rollupName (runs.getD ds.runIds)) = into at h ⊢
    generalize runs.getD ds.runIds = selected at h hsub ⊢
    split_ifs at h with _ hin hex hdrop <;> injection h with h
    all_goals
      have hfresh : into ∉ ds.runIds := fun hm => hex (List.mem_filter.mpr ⟨hm, decide_eq_true hin⟩)
      have hset := Dict.entries_set_of_not_mem hfresh <|
        (⟨ds, selected⟩ : ParquetDataset).rolledUp into mergeName
    case pos =>
      have ⟨hd, hr⟩ := foldl_dropRun (ParquetWriter.writeRun ds into <|
        (⟨ds, selected⟩ : ParquetDataset).rolledUp into mergeName) selected
      refine ⟨hsub, hfresh, h ▸ hd, ?_⟩
      rw [← h, hr, ParquetWriter.writeRun, hset, List.filter_append, if_pos hdrop]
      simp [hin]
    case neg =>
      refine ⟨hsub, hfresh, h ▸ rfl, ?_⟩
      rw [← h, ParquetWriter.writeRun, hset, if_neg hdrop]

namespace Dataset

theorem flatMap_partition {α : Type} (ds : Dataset) (table : Measures → List α) (p : String → Bool) :
    (ds.runIds.filter p).flatMap (ds.partition table)
      = (ds.runs.entries.filter (p ·.fst)).flatMap (table ·.snd) := by
  rw [runIds, Dict.keys, List.filter_map, List.flatMap_map]
  refine List.flatMap_congr fun entry hm => ?_
  rw [partition, Dict.get?_eq_some_iff.mpr (List.mem_filter.mp hm).1]
  rfl

theorem rows_allRuns {α : Type} (ds : Dataset) (table : Measures → List α) :
    (ds.allRuns.measurement table).map Prod.snd = ds.runIds.flatMap (ds.partition table) :=
  measurement_snd ds.allRuns table

-- The rows of the sources make way for those of the rollup.
theorem Compacted.rows {α : Type} {ds ds' : Dataset} {selected : List String} {into mergeName : String}
    (hc : ds.Compacted ds' selected true into mergeName) (table : Measures → List α) :
    (ds'.allRuns.measurement table).map Prod.snd =
      (ds.runIds.filter (· ∉ selected)).flatMap (ds.partition table) ++
        table ((⟨ds, selected⟩ : ParquetDataset).rolledUp into mergeName) := by
  have hall := ds'.flatMap_partition table fun _ => true
  rw [List.filter_true, List.filter_true] at hall
  rw [rows_allRuns, hall, hc.runs, if_pos rfl, List.flatMap_append, flatMap_partition, List.flatMap_singleton]

-- What compaction does to the view of all runs.

variable {ds ds' : Dataset} {selected : List String} {into mergeName : String}

theorem Compacted.mergeRule_eq (hc : ds.Compacted ds' selected true into mergeName) :
    ds'.allRuns.mergeRule = ds.allRuns.mergeRule := by
  have hd : ds'.allRuns.defs = ds.allRuns.defs := congrArg (·.getD {}) hc.definitions
  funext id
  rw [ParquetDataset.mergeRule, ParquetDataset.mergeRule, ParquetDataset.nonAdditiveIds, hd]
  rfl

theorem Compacted.counts_iff (hc : ds.Compacted ds' selected true into mergeName) (id : Nat) :
    ds'.allRuns.counts.get? id = ds.allRuns.counts.get? id ↔
      (id ∉ ds.allRuns.nonAdditiveIds → ∀ runId, 1 < selected.count runId →
        ∀ row ∈ ds.partition (·.counts) runId, row.fst = id → row.snd = 0) := by
  have hrolled : Rollup.valueAt ds.allRuns.mergeRule id (⟨ds, selected⟩ : ParquetDataset).mergedCountsTable
      = Rollup.valueAt ds.allRuns.mergeRule id (selected.flatMap <| ds.partition (·.counts)) := by
    rw [← measurement_snd (⟨ds, selected⟩ : ParquetDataset)]
    exact ParquetDataset.valueAt_mergedCountsTable ⟨ds, selected⟩ id
  rw [ParquetDataset.get?_counts, ParquetDataset.get?_counts, ParquetDataset.countRows,
    ParquetDataset.countRows, hc.rows, rows_allRuns, hc.mergeRule_eq]
  by_cases hid : id ∈ ds.allRuns.nonAdditiveIds
  case pos =>
    have : Std.IdempotentOp (ds.allRuns.mergeRule id) :=
      ⟨fun a => (ParquetDataset.mergeRule_of_nonAdditive hid) ▸ Nat.max_self a⟩
    have he := Rollup.valueAt_replace_of_idempotent ds.runs.keys_nodup hc.subset hrolled
    exact iff_of_true he fun h => absurd hid h
  case neg =>
    have he := Rollup.valueAt_replace_iff_of_add _ (ParquetDataset.mergeRule_of_additive hid)
      ds.runs.keys_nodup hc.subset hrolled
    rw [forall_prop_of_true hid]
    exact he

theorem Compacted.assoc_iff (hc : ds.Compacted ds' selected true into mergeName) (testId : String)
    (id : Nat) : ds'.allRuns.assocCount testId id = ds.allRuns.assocCount testId id ↔
      ∀ runId, 1 < selected.count runId → ∀ row ∈ ds.partition (·.testCoverAssoc) runId,
        row.testId = testId → row.coveritemId = id → row.count.getD 0 = 0 := by
  have hrolled : Rollup.valueAt (fun _ => (· + ·)) (testId, id)
        ((⟨ds, selected⟩ : ParquetDataset).mergedAssoc.map ParquetDataset.assocEntry)
      = Rollup.valueAt (fun _ => (· + ·)) (testId, id)
          (selected.flatMap fun r => (ds.partition (·.testCoverAssoc) r).map ParquetDataset.assocEntry) := by
    rw [ParquetDataset.valueAt_mergedAssoc, ParquetDataset.assocRows, measurement_snd, List.map_flatMap]
  have he := Rollup.valueAt_replace_iff_of_add (fun _ => (· + ·)) rfl ds.runs.keys_nodup hc.subset hrolled
  have hentry : ∀ d : ParquetDataset, d.assocCount testId id
      = Rollup.valueAt (fun _ => (· + ·)) (testId, id) (d.assocRows.map ParquetDataset.assocEntry) :=
    fun _ => rfl
  rw [hentry, hentry, ParquetDataset.assocRows, ParquetDataset.assocRows, hc.rows, rows_allRuns,
    List.map_append, List.map_flatMap, List.map_flatMap]
  refine he.trans <| forall₂_congr fun runId _ => ?_
  simp only [List.forall_mem_map, ParquetDataset.assocEntry, Prod.mk.injEq, and_imp]

theorem Compacted.formal (hc : ds.Compacted ds' selected true into mergeName) (id : Nat) :
    (ds'.allRuns.formalData.get? id).map (fun fd => (fd.status, fd.radius))
      = (ds.allRuns.formalData.get? id).map fun fd => (fd.status, fd.radius) := by
  have hrolled : Rollup.valueAt (fun _ => Told.join) id
        (ParquetDataset.toldRows (⟨ds, selected⟩ : ParquetDataset).formalTable)
      = Rollup.valueAt (fun _ => Told.join) id
          (selected.flatMap fun r => ParquetDataset.toldRows (ds.partition (·.formal) r)) := by
    rw [ParquetDataset.valueAt_formalTable, ParquetDataset.formalRows, measurement_snd,
      ParquetDataset.toldRows, List.map_flatMap]
    rfl
  have he := Rollup.valueAt_replace_of_idempotent ds.runs.keys_nodup hc.subset hrolled
  rw [ParquetDataset.report_formalData, ParquetDataset.report_formalData, ParquetDataset.formalRows,
    ParquetDataset.formalRows, hc.rows, rows_allRuns, ParquetDataset.toldRows, ParquetDataset.toldRows,
    List.map_append, List.map_flatMap, List.map_flatMap]
  exact congrArg _ he

theorem Compacted.sameView_iff (hc : ds.Compacted ds' selected true into mergeName) :
    SameView ds ds' ↔ RepeatedRunsIdle ds selected := by
  constructor
  case mp =>
    intro hv runId hr
    refine ⟨fun row hm hid => ?_, fun row hm => ?_⟩
    · exact (hc.counts_iff row.fst).mp (hv.counts _) hid runId hr row hm rfl
    · exact (hc.assoc_iff row.testId row.coveritemId).mp (hv.assoc _ _) runId hr row hm rfl rfl
  case mpr =>
    intro hi
    refine ⟨fun id => ?_, hc.formal, fun testId id => ?_⟩
    · refine (hc.counts_iff id).mpr fun hid runId hr row hm he => ?_
      exact (hi runId hr).1 row hm (he ▸ hid)
    · exact (hc.assoc_iff testId id).mpr fun runId hr row hm _ _ => (hi runId hr).2 row hm

-- Compacting over and over.
inductive Compactions : Dataset → Dataset → Prop
  | refl (ds : Dataset) : Compactions ds ds
  | step {ds ds₁ ds₂ : Dataset} {runs : Option (List String)} {intoRunId : Option String}
    {mergeName : String} (hs : Compactions ds ds₁)
    (hc : compact ds₁ runs intoRunId true mergeName = .ok ds₂)
    (hi : RepeatedRunsIdle ds₁ (runs.getD ds₁.runIds)) : Compactions ds ds₂

theorem SameView.trans {ds₁ ds₂ ds₃ : Dataset} (h : SameView ds₁ ds₂) (h' : SameView ds₂ ds₃) :
    SameView ds₁ ds₃ where
  counts id       := (h'.counts id).trans (h.counts id)
  formal id       := (h'.formal id).trans (h.formal id)
  assoc testId id := (h'.assoc testId id).trans (h.assoc testId id)

theorem Compactions.sameView (h : Compactions ds ds') : SameView ds ds' := by
  induction h
  case refl            => exact ⟨fun _ => rfl, fun _ => rfl, fun _ _ => rfl⟩
  case step hc hi hind =>
    exact hind.trans ((compact_ok hc).sameView_iff.mpr hi)

end Dataset

-- A dataset of one run that hit the only bin once.
def oneHit : Dataset :=
  let defs : Definitions := {
    scopes := [{
      uniqueId      := "/top#10"
      parentId      := none
      dfsOrdinal    := 0
      scopeType     := .instanceScope
      flags         := some 0
      name          := "top"
      duId          := none
      sourceFileId  := none
      sourceLine    := some (-1)
      sourceCol     := some (-1)
      weight        := some 1
      goal          := some (-1)
      source        := some 10
      instanceDuId  := none
      promotedProps := 21
    }]
    coveritems := [{
      coveritemId  := 0
      scopeId      := "/top#10"
      localIndex   := 0
      coverType    := .stmtBin
      flags        := some 0
      name         := some "stmt"
      atLeast      := some 1
      weight       := some 0
      goal         := some 0
      limit        := some 0
      bitlen       := some 0
      sourceFileId := none
      sourceLine   := none
      sourceCol    := none
    }]
    properties := [{
      objectId   := "/top#10"
      objectKind := .scope
      propId     := .int .scopeIsUnderDu
      i64        := some 0
    }]
  }
  ParquetWriter.writeRun { definitions := some defs } "run-0000" { counts := [(0, 1)] }
