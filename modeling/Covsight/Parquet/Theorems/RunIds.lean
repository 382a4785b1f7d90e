import Covsight.Lib.Call
import Covsight.Parquet.Theorems.History

-- The run ids that are counted. The next one is free as long as no run has the number of a run to come.

theorem autoRunId_injective : Function.Injective ParquetWriter.autoRunId := by
  intro m n h
  have hl := congrArg (fun s => Nat.ofDigitChars 10 (s.toList.drop 4) 0) h
  simpa [ParquetWriter.autoRunId, Nat.ofDigitChars_append] using hl

-- The name of a rollup is not counted.
theorem autoRunId_ne_rollupName (n : Nat) (selected : List String) : ParquetWriter.autoRunId n ≠ rollupName selected := by
  intro h
  have hl := congrArg (fun s => s.toList.take 2) h
  rw [rollupName.eq_def] at hl
  split at hl <;> simp [ParquetWriter.autoRunId] at hl

-- Writing and compacting a dataset.
inductive DatasetStep
  | write (db : Api.UCIS) (runId : Option String) (replaceRun : Bool)
  | compaction (runs : Option (List String)) (intoRunId : Option String) (dropSources : Bool) (mergeName : String)

namespace DatasetStep

open ParquetWriter (autoRunId)

def run (ds : Dataset) : DatasetStep → Except ParquetError Dataset
  | write db runId replaceRun                       => (ParquetWriter.write ds db runId replaceRun).map Prod.snd
  | compaction runs intoRunId dropSources mergeName => compact ds runs intoRunId dropSources mergeName

-- A step that fails leaves the dataset as it was.
def apply (step : DatasetStep) (ds : Dataset) : Dataset :=
  (step.run ds).toOption.getD ds

-- The condition on a step. An id that is given is not the number of a run to come, and neither is one that is
-- there after a compaction, which has fewer runs. A compaction that fails needs nothing.
def Keeps (ds : Dataset) : DatasetStep → Prop
  | write _ none _         => True
  | write _ (some runId) _ => runId ∈ ds.runIds ∨ ∀ n, runId = autoRunId n → n ≤ ds.runIds.length
  | compaction runs intoRunId dropSources _ =>
    let selected := runs.getD ds.runIds
    let into     := intoRunId.getD (rollupName selected)
    let kept     := ds.keptRuns selected dropSources
    selected ⊆ ds.runIds → selected ≠ [] → into ∉ ds.runIds → ∀ n, autoRunId n ∈ into :: kept → n ≤ kept.length

end DatasetStep

namespace Dataset

open ParquetWriter (autoRunId)

-- The numbers that are taken are below the number of runs.
def Numbered (ds : Dataset) : Prop :=
  ∀ n, autoRunId n ∈ ds.runIds → n < ds.runIds.length

-- Writing without an id adds one run under a new id and leaves the others as they were.
def FreshWrite (ds : Dataset) (db : Api.UCIS) (replaceRun : Bool) : Prop :=
  ∃ runId ds', ParquetWriter.write ds db none replaceRun = .ok (runId, ds') ∧ runId ∉ ds.runIds ∧
    ds'.runIds = ds.runIds ++ [runId] ∧ ∀ r ∈ ds.runIds, ds'.runs.get? r = ds.runs.get? r

-- The definitions of a database are those of the dataset, if it has any runs.
def Agrees (ds : Dataset) (db : Api.UCIS) : Prop :=
  ds.runIds = [] ∨ ParquetWriter.checkDefinitions ds (Walk.definitions <| Walk.visited db) = .ok ()

section Write

variable {ds ds' : Dataset} {db : Api.UCIS} {runId : Option String} {replaceRun : Bool} {written : String}

theorem write_runId (h : ParquetWriter.write ds db runId replaceRun = .ok (written, ds')) :
    written = runId.getD (autoRunId ds.runIds.length) := by
  rw [ParquetWriter.write] at h
  simp only [bind, Except.bind, pure, Except.pure, throw, throwThe, MonadExceptOf.throw] at h
  split at h
  case isTrue => cases h
  case isFalse =>
    split at h
    case h_1 => cases h
    case h_2 => cases h; rfl

theorem writeDefinitions_ok_iff {defs : Definitions} :
    (∃ ds', ParquetWriter.writeDefinitions ds defs (!ds.runIds.isEmpty) = .ok ds') ↔
      ds.runIds = [] ∨ ParquetWriter.checkDefinitions ds defs = .ok () := by
  rw [ParquetWriter.writeDefinitions]
  cases hr : ds.runIds with
  | nil       => simp
  | cons r rs =>
    cases ParquetWriter.checkDefinitions ds defs with
    | error e => simp [bind, Except.bind]
    | ok      => simp [bind, Except.bind, pure, Except.pure]

theorem exists_write_iff (hn : runId.getD (autoRunId ds.runIds.length) ∉ ds.runIds) :
    (∃ written ds', ParquetWriter.write ds db runId replaceRun = .ok (written, ds')) ↔ ds.Agrees db := by
  rw [Agrees, ← writeDefinitions_ok_iff, ParquetWriter.write, if_neg fun h => hn h.left]
  cases ParquetWriter.writeDefinitions ds (Walk.definitions <| Walk.visited db) !ds.runIds.isEmpty with
  | error e => simp [bind, Except.bind]
  | ok ds'  => simp [bind, Except.bind, pure, Except.pure]

theorem Numbered.auto_not_mem (h : ds.Numbered) : autoRunId ds.runIds.length ∉ ds.runIds :=
  fun hm => (h _ hm).false

theorem Numbered.freshWrite_iff (h : ds.Numbered) : ds.FreshWrite db replaceRun ↔ ds.Agrees db where
  mp  := fun ⟨written, ds', hw, _⟩ => (exists_write_iff h.auto_not_mem).mp ⟨written, ds', hw⟩
  mpr ha := by
    have ⟨written, ds', hw⟩ : ∃ written ds', ParquetWriter.write ds db none replaceRun = .ok (written, ds') :=
      (exists_write_iff h.auto_not_mem).mpr ha
    have hid : written = autoRunId ds.runIds.length := write_runId hw
    have hr := write_ok hw
    have hf : written ∉ ds.runIds := hid ▸ h.auto_not_mem
    refine ⟨written, ds', hw, hf, ?_, fun r hm => ?_⟩
    case refine_1 => exact (congrArg Dict.keys hr).trans (Dict.keys_set_of_not_mem hf _)
    case refine_2 => rw [hr, Dict.get?_set_of_ne (ne_of_mem_of_not_mem hm hf).symm]

theorem Numbered.write (h : ds.Numbered) (hw : ParquetWriter.write ds db runId replaceRun = .ok (written, ds'))
    (hk : (DatasetStep.write db runId replaceRun).Keeps ds) : ds'.Numbered := by
  have hid := write_runId hw
  have hr := write_ok hw
  by_cases hm : written ∈ ds.runIds
  case pos =>
    have hkeys : ds'.runIds = ds.runIds := (congrArg Dict.keys hr).trans (Dict.keys_set_of_mem hm _)
    rwa [Numbered, hkeys]
  case neg =>
    have hkeys : ds'.runIds = ds.runIds ++ [written] := (congrArg Dict.keys hr).trans (Dict.keys_set_of_not_mem hm _)
    have hle : ∀ n, written = autoRunId n → n ≤ ds.runIds.length := by
      subst hid
      cases runId with
      | none   => exact fun n hn => (autoRunId_injective hn).ge
      | some r => exact hk.resolve_left hm
    intro n hn
    rw [hkeys] at hn ⊢
    rw [List.length_append, List.length_singleton]
    cases List.mem_append.mp hn with
    | inl hn => exact Nat.lt_succ_of_lt (h n hn)
    | inr hn => exact Nat.lt_succ_of_le <| hle n (List.mem_singleton.mp hn).symm

end Write

theorem selected_ne_nil {ds ds' : Dataset} {runs : Option (List String)} {intoRunId : Option String} {dropSources : Bool}
    {mergeName : String} (hc : compact ds runs intoRunId dropSources mergeName = .ok ds') :
    runs.getD ds.runIds ≠ [] := by
  intro he
  rw [compact] at hc
  cases hs : ParquetDataset.select ds runs with
  | error => rw [hs] at hc; cases hc
  | ok d  =>
    obtain ⟨hd, _⟩ := select_ok hs
    rw [hs, hd, he] at hc
    cases hc

theorem Numbered.compact {ds ds' : Dataset} {runs : Option (List String)} {intoRunId : Option String} {dropSources : Bool}
    {mergeName : String} (hc : compact ds runs intoRunId dropSources mergeName = .ok ds')
    (hk : (DatasetStep.compaction runs intoRunId dropSources mergeName).Keeps ds) : ds'.Numbered := by
  have hcompacted := compact_ok hc
  intro n hn
  rw [hcompacted.runIds_eq] at hn ⊢
  rw [List.length_append, List.length_singleton]
  refine Nat.lt_succ_of_le <| hk hcompacted.subset (selected_ne_nil hc) hcompacted.fresh n ?_
  exact (List.perm_append_singleton _ _).mem_iff.mp hn

theorem Numbered.apply {ds : Dataset} (h : ds.Numbered) (step : DatasetStep) (hk : step.Keeps ds) :
    (step.apply ds).Numbered := by
  rw [DatasetStep.apply]
  cases hr : step.run ds with
  | error  => exact h
  | ok ds' =>
    cases step with
    | write db runId replaceRun =>
      cases hw : ParquetWriter.write ds db runId replaceRun with
      | error e => rw [DatasetStep.run, hw] at hr; cases hr
      | ok p    =>
        rw [DatasetStep.run, hw] at hr
        cases hr
        exact h.write hw hk
    | compaction => exact Numbered.compact hr hk

theorem numbered_empty : Numbered {} :=
  nofun

end Dataset
