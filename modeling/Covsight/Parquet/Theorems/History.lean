import Mathlib.Data.List.Pairwise
import Covsight.Mem.LinkedUCIS
import Covsight.Parquet.Query
import Covsight.Parquet.Theorems.Compact
import Covsight.Parquet.Walk

-- The history of a dataset over its whole life. A test gets its id from the run it is written to and
-- its position there, and it keeps the id when its run is rolled up.

-- Ids in one run.

theorem toDigits_injective : Function.Injective (Nat.toDigits 10) := by
  intro m n h
  rw [← Nat.ofDigitChars_ten_toDigits (n := m), h, Nat.ofDigitChars_ten_toDigits]

theorem historyNodeId_index {runId : String} {i j : Nat} {name name' : Option String}
    (h : historyNodeId runId i name = historyNodeId runId j name') : i = j := by
  have hl := congrArg String.toList h
  simp only [historyNodeId, String.toList_append, List.append_assoc, List.append_cancel_left_eq,
    Nat.toString_eq_repr, Nat.toList_repr] at hl
  have htake : ∀ n (rest : List Char),
      (Nat.toDigits 10 n ++ (":".toList ++ rest)).takeWhile Char.isDigit = Nat.toDigits 10 n := by
    intro n rest
    rw [List.takeWhile_append_of_pos fun c hc =>
      Nat.isDigit_of_mem_toDigits (by decide) (by decide) hc]
    simp
  have ht := congrArg (List.takeWhile Char.isDigit) hl
  rw [htake, htake] at ht
  exact toDigits_injective ht

theorem find?_of_nodup {α β : Type} [DecidableEq β] {f : α → β} {xs : List α} (hn : (xs.map f).Nodup) {x : α}
    (hx : x ∈ xs) : xs.find? (f · = f x) = some x := by
  induction xs
  case nil => cases hx
  case cons y xs hi =>
    simp only [List.map_cons, List.nodup_cons] at hn
    cases List.mem_cons.mp hx
    case inl h => simp [h]
    case inr h =>
      have hne : f y ≠ f x := fun he => hn.1 (he ▸ List.mem_map_of_mem h)
      rw [List.find?_cons_of_neg (by simpa using hne), hi hn.2 h]

-- What is recorded for a test.

namespace Walk

-- The recorded hits at a position, by item.
def recordedAt (db : Api.UCIS) (histIdx : Nat) : List CountRow :=
  ((((db.perTestData.getD ∅).get? histIdx).getD ∅).entries).filterMap fun (binIndex, count) =>
    (flatCoveritemIds db (visited db))[binIndex]?.map (·, count)

-- The position of a node in the history of the database.
def position (db : Api.UCIS) (node : Api.HistoryNode) : Nat :=
  ((db.historyNodes .all).map (·.handle)).idxOf node.handle

-- Hits are recorded for a test by its position in the history.
def recordedFor (db : Api.UCIS) (node : Api.HistoryNode) : List CountRow :=
  recordedAt db (position db node)

theorem mem_historyRows_iff {runId : String} {nodes : List Api.HistoryNode} {row : HistoryRow} :
    row ∈ historyRows runId nodes ↔ ∃ i node, nodes[i]? = some node ∧
      row = historyRow (historyIds runId nodes) i (historyNodeId runId i node.logicalName) node := by
  rw [historyRows, List.mem_iff_getElem?]
  simp only [List.getElem?_mapIdx, Option.map_eq_some_iff]
  exact exists₂_congr fun i node => and_congr_right' eq_comm

theorem historyRows_nodup (runId : String) (nodes : List Api.HistoryNode) :
    ((historyRows runId nodes).map (·.nodeId)).Nodup := by
  rw [List.Nodup, List.pairwise_iff_getElem]
  intro i j hi hj hij h
  simp only [historyRows, List.getElem_map, List.getElem_mapIdx, historyRow] at h
  exact absurd (historyNodeId_index h) (Nat.ne_of_lt hij)

-- The rows of a position.
def assocRowsAt (runId : String) (nodes : List Api.HistoryNode) (flat : List Nat)
    (entry : Nat × Dict Nat Nat) : List AssocRow :=
  match nodes[entry.fst]? with
  | none      => []
  | some node =>
    (entry.snd.entries.insertionSort (·.fst ≤ ·.fst)).filterMap fun (binIndex, count) =>
      flat[binIndex]?.map fun id => ⟨historyNodeId runId entry.fst node.logicalName, id, some count⟩

theorem mem_assocRowsAt {runId : String} {nodes : List Api.HistoryNode} {flat : List Nat}
    {entry : Nat × Dict Nat Nat} {row : AssocRow} (h : row ∈ assocRowsAt runId nodes flat entry) :
    ∃ node, nodes[entry.fst]? = some node ∧
      row.testId = historyNodeId runId entry.fst node.logicalName := by
  rw [assocRowsAt] at h
  split at h
  case h_1 => cases h
  case h_2 node hn =>
    have ⟨_, _, hrow⟩ := List.mem_filterMap.mp h
    have ⟨_, _, hrow⟩ := Option.map_eq_some_iff.mp hrow
    exact ⟨node, hn, hrow ▸ rfl⟩

theorem testId_of_mem_assocRows {runId : String} {nodes : List Api.HistoryNode} {flat : List Nat}
    {perTest : Dict Nat (Dict Nat Nat)} {row : AssocRow} (h : row ∈ assocRows runId nodes flat perTest) :
    ∃ i node, nodes[i]? = some node ∧ row.testId = historyNodeId runId i node.logicalName := by
  have ⟨entry, _, hm⟩ := List.mem_flatMap.mp h
  have hm : row ∈ assocRowsAt runId nodes flat entry := hm
  exact ⟨entry.fst, mem_assocRowsAt hm⟩

theorem valueAt_assocRows {db : Api.UCIS} {runId : String} {nodes : List Api.HistoryNode} {i : Nat}
    {node : Api.HistoryNode} (h : nodes[i]? = some node) (id : Nat) :
    Rollup.valueAt (fun _ => (· + ·)) (historyNodeId runId i node.logicalName, id)
        ((assocRows runId nodes (flatCoveritemIds db (visited db)) (db.perTestData.getD ∅)).map
          ParquetDataset.assocEntry)
      = Rollup.valueAt (fun _ => (· + ·)) id (recordedAt db i) := by
  generalize hflat : flatCoveritemIds db (visited db) = flat
  have hrows : assocRows runId nodes flat (db.perTestData.getD ∅) =
      ((db.perTestData.getD ∅).entries.insertionSort (·.fst ≤ ·.fst)).flatMap
        (assocRowsAt runId nodes flat) := rfl
  have hperm := List.perm_insertionSort (r := fun a b : Nat × Dict Nat Nat => a.fst ≤ b.fst)
    (db.perTestData.getD ∅).entries
  rw [hrows, List.map_flatMap, Rollup.valueAt_perm (hperm.flatMap_right _), recordedAt, hflat]
  have hkey : ∀ entry : Nat × Dict Nat Nat, entry.fst ≠ i →
      (historyNodeId runId i node.logicalName, id) ∉
        ((assocRowsAt runId nodes flat entry).map ParquetDataset.assocEntry).map Prod.fst := by
    intro entry hne hm
    simp only [List.map_map, List.mem_map, Function.comp_apply, ParquetDataset.assocEntry,
      Prod.mk.injEq] at hm
    obtain ⟨row, hrow, ht, _⟩ := hm
    obtain ⟨_, _, hid⟩ := mem_assocRowsAt hrow
    exact hne (historyNodeId_index (hid.symm.trans ht))
  cases hb : (db.perTestData.getD ∅).get? i
  case none =>
    have hnone : i ∉ (db.perTestData.getD ∅).keys := Dict.get?_eq_none_iff.mp hb
    refine Rollup.valueAt_eq_none_iff.mpr fun hm => ?_
    rw [List.map_flatMap, List.mem_flatMap] at hm
    obtain ⟨entry, he, hm⟩ := hm
    exact hkey entry (fun h => hnone (h ▸ List.mem_map_of_mem he)) hm
  case some bins =>
    have hmem : (i, bins) ∈ (db.perTestData.getD ∅).entries := Dict.get?_eq_some_iff.mp hb
    have hcount : (db.perTestData.getD ∅).entries.count (i, bins) = 1 :=
      List.count_eq_one_of_mem (db.perTestData.getD ∅).nodup.of_map hmem
    have hother : ∀ entry ∈ (db.perTestData.getD ∅).entries, entry ≠ (i, bins) → entry.fst ≠ i := by
      rintro ⟨j, bins'⟩ he hne rfl
      have hsame := Dict.get?_eq_some_iff.mpr he
      rw [hb] at hsame
      exact hne (Prod.ext rfl (Option.some.inj hsame).symm)
    rw [Rollup.valueAt_flatMap_of_unique hcount fun entry he hne => hkey entry (hother entry he hne)]
    have hinj : Function.Injective fun id : Nat => (historyNodeId runId i node.logicalName, id) :=
      fun _ _ he => (Prod.mk.inj he).2
    have hbins := List.perm_insertionSort (r := fun a b : CountRow => a.fst ≤ b.fst) bins.entries
    have hrow : (assocRowsAt runId nodes flat (i, bins)).map ParquetDataset.assocEntry =
        ((bins.entries.insertionSort (·.fst ≤ ·.fst)).filterMap fun (binIndex, count) =>
          flat[binIndex]?.map (·, count)).map
            fun row => ((historyNodeId runId i node.logicalName, row.fst), row.snd) := by
      simp only [assocRowsAt, h, List.map_filterMap, Option.map_map]
      rfl
    rw [hrow]
    exact (Rollup.valueAt_map_key hinj rfl _).trans (Rollup.valueAt_perm (hbins.filterMap _))

end Walk

-- A test that was written: its run, its row and what was recorded for it.
structure Test where
  runId    : String
  row      : HistoryRow
  recorded : List CountRow

-- What a node is by itself, not counting its place in the history.
def HistoryRow.own (row : HistoryRow) : HistoryRow :=
  { row with localIndex := 0, parentId := none }

def testsOf (db : Api.UCIS) (runId : String) : List Test :=
  let nodes := Walk.orderedHistory db
  nodes.mapIdx fun i node => {
    runId
    row      := Walk.historyRow (Walk.historyIds runId nodes) i (historyNodeId runId i node.logicalName) node
    recorded := Walk.recordedFor db node
  }

namespace Dataset

def rows {α : Type} (ds : Dataset) (table : Measures → List α) : List α :=
  ds.runIds.flatMap (ds.partition table)

def nodeIds (ds : Dataset) : List String :=
  (ds.rows (·.historyNodes)).map (·.nodeId)

-- Every test is stored once, and what the associations say about it is what was recorded for it.
structure Identified (ds : Dataset) (tests : List Test) : Prop where
  distinct : ds.nodeIds.Nodup
  yielded  : ds.allRuns.historyNodes .all = ds.allRuns.historyRows
  complete : (ds.allRuns.historyRows.map Prod.snd).Perm (ds.rows (·.historyNodes))
  stored   : ∀ t ∈ tests, ∃ row ∈ ds.rows (·.historyNodes), row.own = t.row.own
  recorded : ∀ t ∈ tests, ∀ id,
    ds.allRuns.assocCount t.row.nodeId id = Rollup.valueAt (fun _ => (· + ·)) id t.recorded
  owned    : ∀ row ∈ ds.rows (·.testCoverAssoc), ∃ t ∈ tests, t.row.nodeId = row.testId

-- The condition on a write. No node gets an id that a node of another run has, and the nodes are walked
-- in the order of the history as far as hits are recorded for them.
structure WriteFits (ds : Dataset) (db : Api.UCIS) (runId : String) : Prop where
  fresh   : ∀ row ∈ Walk.historyRows runId (Walk.orderedHistory db), ∀ r ∈ ds.runIds, r ≠ runId →
    row.nodeId ∉ (ds.partition (·.historyNodes) r).map (·.nodeId)
  inOrder : ∀ i node, (Walk.orderedHistory db)[i]? = some node → ∀ id,
    Rollup.valueAt (fun _ => (· + ·)) id (Walk.recordedAt db i)
      = Rollup.valueAt (fun _ => (· + ·)) id (Walk.recordedFor db node)

def mergeNodeId (into mergeName : String) : String :=
  into ++ "/merge:" ++ mergeName

-- The condition on a compaction. The id of the merge node is new, and a run with a history is dropped
-- and not selected twice.
structure CompactFits (ds : Dataset) (selected : List String) (dropSources : Bool)
    (into mergeName : String) : Prop where
  fresh   : mergeNodeId into mergeName ∉ ds.nodeIds
  once    : ∀ r, 1 < selected.count r → ds.partition (·.historyNodes) r = []
  dropped : dropSources = false → ∀ r ∈ selected, ds.partition (·.historyNodes) r = []

-- Writing and compacting, from an empty dataset on.
inductive Reached : Dataset → List Test → Prop
  | empty : Reached {} []
  | write {ds ds' : Dataset} {tests : List Test} {db : Api.UCIS} {runId : Option String}
    {replaceRun : Bool} {written : String} (hr : Reached ds tests)
    (hw : ParquetWriter.write ds db runId replaceRun = .ok (written, ds'))
    (hf : ds.WriteFits db written) :
    Reached ds' (tests.filter (·.runId ≠ written) ++ testsOf db written)
  | compact {ds ds' : Dataset} {tests : List Test} {runs : Option (List String)}
    {intoRunId : Option String} {dropSources : Bool} {mergeName : String} (hr : Reached ds tests)
    (hc : compact ds runs intoRunId dropSources mergeName = .ok ds')
    (hf : ds.CompactFits (runs.getD ds.runIds) dropSources
      (intoRunId.getD (rollupName (runs.getD ds.runIds))) mergeName) :
    Reached ds' (tests.map fun t =>
      if t.runId ∈ runs.getD ds.runIds
        then { t with runId := intoRunId.getD (rollupName (runs.getD ds.runIds)) }
        else t)

end Dataset

namespace Dataset

theorem partition_of_mem {α : Type} {ds : Dataset} {runId : String} {m : Measures}
    (h : (runId, m) ∈ ds.runs.entries) (table : Measures → List α) : ds.partition table runId = table m := by
  rw [partition, Dict.get?_eq_some_iff.mpr h]
  rfl

theorem exists_of_mem_runIds {ds : Dataset} {runId : String} (h : runId ∈ ds.runIds) :
    ∃ m, (runId, m) ∈ ds.runs.entries := by
  have ⟨⟨_, m⟩, hm, he⟩ := List.mem_map.mp h
  exact ⟨m, he ▸ hm⟩

def assocEntries (ds : Dataset) (runId : String) : List ((String × Nat) × Nat) :=
  (ds.partition (·.testCoverAssoc) runId).map ParquetDataset.assocEntry

def runNodeIds (ds : Dataset) (runId : String) : List String :=
  (ds.partition (·.historyNodes) runId).map (·.nodeId)

theorem nodeIds_nodup_iff {ds : Dataset} : ds.nodeIds.Nodup ↔
    (∀ r ∈ ds.runIds, (ds.runNodeIds r).Nodup) ∧
      ∀ r ∈ ds.runIds, ∀ r' ∈ ds.runIds, r ≠ r' → List.Disjoint (ds.runNodeIds r) (ds.runNodeIds r') := by
  have : Std.Symm (Function.onFun List.Disjoint ds.runNodeIds) := ⟨fun _ _ h => h.symm⟩
  have he : ds.nodeIds = ds.runIds.flatMap ds.runNodeIds := List.map_flatMap
  rw [he, List.nodup_flatMap]
  refine and_congr_right' ?_
  exact ⟨fun h r hr r' hr' hne => h.forall hr hr' hne, ds.runs.keys_nodup.pairwise_of_forall_ne⟩

-- What holds of each run by itself.
structure Invariant (ds : Dataset) (tests : List Test) : Prop where
  distinct : ds.nodeIds.Nodup
  stored   : ∀ t ∈ tests, t.runId ∈ ds.runIds ∧
    ∃ row ∈ ds.partition (·.historyNodes) t.runId, row.own = t.row.own
  recorded : ∀ t ∈ tests, ∀ id, Rollup.valueAt (fun _ => (· + ·)) (t.row.nodeId, id)
    (ds.assocEntries t.runId) = Rollup.valueAt (fun _ => (· + ·)) id t.recorded
  owned    : ∀ r ∈ ds.runIds, ∀ row ∈ ds.partition (·.testCoverAssoc) r,
    ∃ t ∈ tests, t.runId = r ∧ t.row.nodeId = row.testId

namespace Invariant

variable {ds : Dataset} {tests : List Test}

theorem nodeId_of_own {row row' : HistoryRow} (h : row.own = row'.own) : row.nodeId = row'.nodeId :=
  (congrArg HistoryRow.nodeId h : row.own.nodeId = row'.own.nodeId)

-- The run of a node.
theorem run_unique (hi : Invariant ds tests) {r r' : String} {row row' : HistoryRow} (hr : r ∈ ds.runIds)
    (hr' : r' ∈ ds.runIds) (hm : row ∈ ds.partition (·.historyNodes) r)
    (hm' : row' ∈ ds.partition (·.historyNodes) r') (he : row.nodeId = row'.nodeId) : r = r' := by
  have ⟨_, hd⟩ := nodeIds_nodup_iff.mp hi.distinct
  by_contra hne
  exact hd r hr r' hr' hne (List.mem_map_of_mem hm) (he ▸ List.mem_map_of_mem hm')

-- The associations of a test are in its run.
theorem assoc_not_mem (hi : Invariant ds tests) {t : Test} (ht : t ∈ tests) {r : String} (hr : r ∈ ds.runIds)
    (hne : r ≠ t.runId) (id : Nat) :
    (t.row.nodeId, id) ∉ (ds.assocEntries r).map Prod.fst := by
  intro hm
  simp only [assocEntries, List.map_map, List.mem_map, Function.comp_apply, ParquetDataset.assocEntry,
    Prod.mk.injEq] at hm
  obtain ⟨row, hrow, he, _⟩ := hm
  obtain ⟨t', ht', hr', he'⟩ := hi.owned r hr row hrow
  obtain ⟨hm₁, row₁, hrow₁, ho₁⟩ := hi.stored t ht
  obtain ⟨hm₂, row₂, hrow₂, ho₂⟩ := hi.stored t' ht'
  have hid : row₂.nodeId = row₁.nodeId :=
    (nodeId_of_own ho₂).trans <| he'.trans <| he.trans (nodeId_of_own ho₁).symm
  exact hne <| hr' ▸ hi.run_unique hm₂ hm₁ hrow₂ hrow₁ hid

-- What a selection says about a test is what the run of the test says.
theorem valueAt_selected (hi : Invariant ds tests) {t : Test} (ht : t ∈ tests) {selected : List String}
    (hs : selected ⊆ ds.runIds) (hc : selected.count t.runId = 1) (id : Nat) :
    Rollup.valueAt (fun _ => (· + ·)) (t.row.nodeId, id) (selected.flatMap ds.assocEntries)
      = Rollup.valueAt (fun _ => (· + ·)) id t.recorded := by
  rw [Rollup.valueAt_flatMap_of_unique hc fun r hr hne => hi.assoc_not_mem ht (hs hr) hne id]
  exact hi.recorded t ht id

theorem historyRows_perm (ds : Dataset) :
    (ds.allRuns.historyRows.map Prod.snd).Perm (ds.rows (·.historyNodes)) :=
  ((List.perm_insertionSort _ _).map _).trans (.of_eq (rows_allRuns ds _))

theorem identified (hi : Invariant ds tests) : Identified ds tests where
  distinct := hi.distinct
  yielded  := by
    have hn : (ds.allRuns.historyRows.map fun row => row.snd.nodeId).Nodup := by
      have hp := (historyRows_perm ds).map (·.nodeId)
      rw [List.map_map] at hp
      exact hp.nodup_iff.mpr hi.distinct
    have hall : (ds.allRuns.historyRows.filterMap fun row => ds.allRuns.historyNode row.snd.nodeId)
        = ds.allRuns.historyRows :=
      (List.filterMap_congr fun _ hm => find?_of_nodup hn hm).trans List.filterMap_some
    rw [ParquetDataset.historyNodes, hall]
    simp
  complete := historyRows_perm ds
  stored t ht := by
    obtain ⟨hr, row, hrow, ho⟩ := hi.stored t ht
    exact ⟨row, List.mem_flatMap.mpr ⟨_, hr, hrow⟩, ho⟩
  recorded t ht id := by
    have hc : ds.runIds.count t.runId = 1 :=
      List.count_eq_one_of_mem ds.runs.keys_nodup (hi.stored t ht).1
    have hv := hi.valueAt_selected ht (List.Subset.refl _) hc id
    rw [← hv, ParquetDataset.assocCount, ParquetDataset.assocRows, rows_allRuns, List.map_flatMap]
    rfl
  owned row hm := by
    obtain ⟨r, hr, hrow⟩ := List.mem_flatMap.mp hm
    obtain ⟨t, ht, _, he⟩ := hi.owned r hr row hrow
    exact ⟨t, ht, he⟩

end Invariant

-- Writing.

theorem runs_writeDefinitions {ds ds' : Dataset} {defs : Definitions} {allowExisting : Bool}
    (h : ParquetWriter.writeDefinitions ds defs allowExisting = .ok ds') : ds'.runs = ds.runs := by
  rw [ParquetWriter.writeDefinitions] at h
  split at h
  case isFalse => cases h; rfl
  case isTrue =>
    simp only [bind, Except.bind, pure, Except.pure] at h
    split at h <;> cases h
    rfl

theorem write_ok {ds ds' : Dataset} {db : Api.UCIS} {runId : Option String} {replaceRun : Bool}
    {written : String} (h : ParquetWriter.write ds db runId replaceRun = .ok (written, ds')) :
    ds'.runs = ds.runs.set written (Walk.measures db written) := by
  rw [ParquetWriter.write] at h
  simp only [bind, Except.bind, pure, Except.pure, throw, throwThe, MonadExceptOf.throw] at h
  split at h
  case isTrue => cases h
  case isFalse =>
    split at h
    case h_1 => cases h
    case h_2 hd =>
      cases h
      rw [ParquetWriter.writeRun, runs_writeDefinitions hd]

theorem partition_set {α : Type} {ds ds' : Dataset} {runId : String} {m : Measures}
    (h : ds'.runs = ds.runs.set runId m) (table : Measures → List α) (r : String) :
    ds'.partition table r = if r = runId then table m else ds.partition table r := by
  rw [partition, h, Dict.get?_set]
  by_cases hr : r = runId
  case pos => rw [if_pos hr.symm, if_pos hr]; rfl
  case neg => rw [if_neg (Ne.symm hr), if_neg hr]; rfl

theorem mem_testsOf_iff {db : Api.UCIS} {runId : String} {t : Test} : t ∈ testsOf db runId ↔
    ∃ i node, (Walk.orderedHistory db)[i]? = some node ∧
      t = ⟨runId, Walk.historyRow (Walk.historyIds runId (Walk.orderedHistory db)) i
        (historyNodeId runId i node.logicalName) node, Walk.recordedFor db node⟩ := by
  rw [testsOf, List.mem_iff_getElem?]
  simp only [List.getElem?_mapIdx, Option.map_eq_some_iff]
  exact exists₂_congr fun i node => and_congr_right' eq_comm

theorem Invariant.write {ds ds' : Dataset} {tests : List Test} {db : Api.UCIS} {written : String}
    (hi : Invariant ds tests) (hw : ds'.runs = ds.runs.set written (Walk.measures db written))
    (hf : ds.WriteFits db written) :
    Invariant ds' (tests.filter (·.runId ≠ written) ++ testsOf db written) := by
  have hmem : ∀ {r}, r ∈ ds'.runIds ↔ r ∈ ds.runIds ∨ r = written := by
    intro r
    have hk : r ∈ ds.runs.set written (Walk.measures db written) ↔ r ∈ ds.runs ∨ r = written :=
      Dict.mem_set_iff
    rw [← hw] at hk
    exact hk
  have hnodes : ds'.partition (·.historyNodes) written = Walk.historyRows written (Walk.orderedHistory db) := by
    rw [partition_set hw, if_pos rfl]
    rfl
  have hassoc : ds'.partition (·.testCoverAssoc) written = Walk.assocRows written (Walk.orderedHistory db)
      (Walk.flatCoveritemIds db (Walk.visited db)) (db.perTestData.getD ∅) := by
    rw [partition_set hw, if_pos rfl]
    rfl
  have hother : ∀ {α : Type} (table : Measures → List α) {r}, r ≠ written →
      ds'.partition table r = ds.partition table r := fun table r hr => by
    rw [partition_set hw, if_neg hr]
  have hold : ∀ {r}, r ∈ ds'.runIds → r ≠ written → r ∈ ds.runIds := fun hr hne =>
    (hmem.mp hr).resolve_right hne
  have ⟨hn, hd⟩ := nodeIds_nodup_iff.mp hi.distinct
  have hfresh : ∀ {r}, r ∈ ds'.runIds → r ≠ written →
      List.Disjoint (ds'.runNodeIds written) (ds'.runNodeIds r) := by
    intro r hr hne id hm hm'
    rw [runNodeIds, hnodes] at hm
    have ⟨row, hrow, he⟩ := List.mem_map.mp hm
    rw [runNodeIds, hother _ hne] at hm'
    exact hf.fresh row hrow r (hold hr hne) hne (he ▸ hm')
  constructor
  case distinct =>
    refine nodeIds_nodup_iff.mpr ⟨fun r hr => ?_, fun r hr r' hr' hne => ?_⟩
    · by_cases h : r = written
      case pos => rw [h, runNodeIds, hnodes]; exact Walk.historyRows_nodup written _
      case neg => rw [runNodeIds, hother _ h]; exact hn r (hold hr h)
    · by_cases h : r = written
      case pos => rw [h]; exact hfresh hr' fun h' => hne (h.trans h'.symm)
      case neg =>
        by_cases h' : r' = written
        case pos => rw [h']; exact (hfresh hr h).symm
        case neg =>
          rw [runNodeIds, runNodeIds, hother _ h, hother _ h']
          exact hd r (hold hr h) r' (hold hr' h') hne
  case stored =>
    intro t ht
    cases List.mem_append.mp ht
    case inl ht =>
      have ⟨ht, hne⟩ := List.mem_filter.mp ht
      have hne := of_decide_eq_true hne
      have ⟨hr, row, hrow, ho⟩ := hi.stored t ht
      exact ⟨hmem.mpr (.inl hr), row, hother (·.historyNodes) hne ▸ hrow, ho⟩
    case inr ht =>
      have ⟨i, node, hnode, he⟩ := mem_testsOf_iff.mp ht
      rw [he]
      refine ⟨hmem.mpr (.inr rfl), _, ?_, rfl⟩
      rw [hnodes]
      exact Walk.mem_historyRows_iff.mpr ⟨i, node, hnode, rfl⟩
  case recorded =>
    intro t ht id
    cases List.mem_append.mp ht
    case inl ht =>
      have ⟨ht, hne⟩ := List.mem_filter.mp ht
      rw [assocEntries, hother _ (of_decide_eq_true hne)]
      exact hi.recorded t ht id
    case inr ht =>
      have ⟨i, node, hnode, he⟩ := mem_testsOf_iff.mp ht
      rw [he, assocEntries, hassoc]
      exact (Walk.valueAt_assocRows hnode id).trans (hf.inOrder i node hnode id)
  case owned =>
    intro r hr row hrow
    by_cases h : r = written
    case pos =>
      rw [h, hassoc] at hrow
      have ⟨i, node, hnode, he⟩ := Walk.testId_of_mem_assocRows hrow
      exact ⟨_, List.mem_append_right _ (mem_testsOf_iff.mpr ⟨i, node, hnode, rfl⟩), h.symm, he.symm⟩
    case neg =>
      rw [hother _ h] at hrow
      have ⟨t, ht, hr', he⟩ := hi.owned r (hold hr h) row hrow
      refine ⟨t, List.mem_append_left _ (List.mem_filter.mpr ⟨ht, ?_⟩), hr', he⟩
      exact decide_eq_true (hr' ▸ h)

-- Compacting.

def keptRuns (ds : Dataset) (selected : List String) (dropSources : Bool) : List String :=
  if dropSources then ds.runIds.filter (· ∉ selected) else ds.runIds

section Compact

variable {ds ds' : Dataset} {selected : List String} {dropSources : Bool} {into mergeName : String}

theorem Compacted.runIds_eq (hc : ds.Compacted ds' selected dropSources into mergeName) :
    ds'.runIds = ds.keptRuns selected dropSources ++ [into] := by
  rw [runIds, Dict.keys, hc.runs, List.map_append, keptRuns]
  split
  case isTrue  => rw [runIds, Dict.keys, List.filter_map]; rfl
  case isFalse => rfl

theorem Compacted.partition_into {α : Type} (hc : ds.Compacted ds' selected dropSources into mergeName)
    (table : Measures → List α) :
    ds'.partition table into = table ((⟨ds, selected⟩ : ParquetDataset).rolledUp into mergeName) :=
  partition_of_mem (hc.runs ▸ List.mem_append_right _ (.head _)) table

theorem keptRuns_subset : ds.keptRuns selected dropSources ⊆ ds.runIds := by
  intro r hr
  rw [keptRuns] at hr
  split at hr
  case isTrue  => exact (List.mem_filter.mp hr).1
  case isFalse => exact hr

theorem Compacted.partition_kept {α : Type} (hc : ds.Compacted ds' selected dropSources into mergeName)
    (table : Measures → List α) {r : String} (hr : r ∈ ds.keptRuns selected dropSources) :
    ds'.partition table r = ds.partition table r := by
  have ⟨m, hm⟩ := exists_of_mem_runIds (keptRuns_subset hr)
  refine (partition_of_mem ?_ table).trans (partition_of_mem hm table).symm
  rw [hc.runs]
  refine List.mem_append_left _ ?_
  rw [keptRuns] at hr
  split
  case isTrue h =>
    rw [if_pos h] at hr
    exact List.mem_filter.mpr ⟨hm, (List.mem_filter.mp hr).2⟩
  case isFalse => exact hm

-- The nodes of a selection keep their ids and everything else that is their own.
theorem own_mergedHistory (d : ParquetDataset) (into mergeName : String) :
    (d.mergedHistory into mergeName).tail.map (·.own) = (d.historyRows.map Prod.snd).map (·.own) := by
  rw [ParquetDataset.mergedHistory, List.tail_cons]
  apply List.ext_getElem <;> simp [HistoryRow.own]

theorem Compacted.nodeIds_into (hc : ds.Compacted ds' selected dropSources into mergeName) :
    (ds'.runNodeIds into).Perm (mergeNodeId into mergeName :: selected.flatMap ds.runNodeIds) := by
  have hown := congrArg (List.map HistoryRow.nodeId)
    (own_mergedHistory (⟨ds, selected⟩ : ParquetDataset) into mergeName)
  have hp : (((⟨ds, selected⟩ : ParquetDataset).historyRows.map Prod.snd).map (·.nodeId)).Perm
      (selected.flatMap ds.runNodeIds) := by
    refine (((List.perm_insertionSort _ _).map _).map _).trans (.of_eq ?_)
    rw [measurement_snd, List.map_flatMap]
    rfl
  rw [List.map_map, List.map_map] at hown
  rw [runNodeIds, hc.partition_into]
  refine .cons _ <| .trans (.of_eq ?_) hp
  exact hown

theorem Compacted.nodeIds_perm (hc : ds.Compacted ds' selected dropSources into mergeName)
    (hf : ds.CompactFits selected dropSources into mergeName) :
    ds'.nodeIds.Perm (mergeNodeId into mergeName :: ds.nodeIds) := by
  have he : ∀ ds : Dataset, ds.nodeIds = ds.runIds.flatMap ds.runNodeIds := fun _ => List.map_flatMap
  have hnone : ∀ {r}, ds.partition (·.historyNodes) r = [] → ds.runNodeIds r = [] := fun h => by
    rw [runNodeIds, h, List.map_nil]
  have hkept : (ds.keptRuns selected dropSources).flatMap ds'.runNodeIds
      = (ds.keptRuns selected dropSources).flatMap ds.runNodeIds :=
    List.flatMap_congr fun r hr => congrArg _ (hc.partition_kept _ hr)
  have hall : ((ds.keptRuns selected dropSources).flatMap ds.runNodeIds ++
      selected.flatMap ds.runNodeIds).Perm ds.nodeIds := by
    cases dropSources
    case false =>
      have hs : selected.flatMap ds.runNodeIds = [] :=
        List.flatMap_eq_nil_iff.mpr fun r hr => hnone (hf.dropped rfl r hr)
      rw [hs, List.append_nil, he]
      exact .refl _
    case true =>
      have hp := (Rollup.filter_append_perm ds.runs.keys_nodup hc.subset).flatMap_right ds.runNodeIds
      have hextra : (selected.diff selected.dedup).flatMap ds.runNodeIds = [] :=
        List.flatMap_eq_nil_iff.mpr fun r hr => hnone (hf.once r (Rollup.mem_diff_dedup_iff.mp hr))
      rw [List.flatMap_append, List.flatMap_append, hextra, List.append_nil] at hp
      exact hp.trans (.of_eq (he ds).symm)
  rw [he, hc.runIds_eq, List.flatMap_append, List.flatMap_singleton, hkept]
  exact (hc.nodeIds_into.append_left _).trans <| List.perm_middle.trans (hall.cons _)

theorem exists_of_mem_mergedAssoc {d : ParquetDataset} {row : AssocRow} (h : row ∈ d.mergedAssoc) :
    ∃ row' ∈ d.assocRows, row'.testId = row.testId := by
  have hm : (ParquetDataset.assocEntry row).fst ∈ (d.mergedAssoc.map ParquetDataset.assocEntry).map Prod.fst :=
    List.mem_map_of_mem (List.mem_map_of_mem h)
  have hv := ParquetDataset.valueAt_mergedAssoc d (ParquetDataset.assocEntry row).fst
  have hk : (ParquetDataset.assocEntry row).fst ∈ (d.assocRows.map ParquetDataset.assocEntry).map Prod.fst := by
    by_contra hk
    rw [Rollup.valueAt_eq_none_iff.mpr hk, Rollup.valueAt_eq_none_iff] at hv
    exact hv hm
  simp only [List.map_map, List.mem_map, Function.comp_apply, ParquetDataset.assocEntry,
    Prod.mk.injEq] at hk
  obtain ⟨row', hm', ht, _⟩ := hk
  exact ⟨row', hm', ht⟩

-- The run of a test after a compaction.
def moved (selected : List String) (into : String) (t : Test) : Test :=
  if t.runId ∈ selected then { t with runId := into } else t

theorem moved_row (selected : List String) (into : String) (t : Test) : (moved selected into t).row = t.row := by
  rw [moved]
  split <;> rfl

theorem moved_recorded (selected : List String) (into : String) (t : Test) :
    (moved selected into t).recorded = t.recorded := by
  rw [moved]
  split <;> rfl

theorem Invariant.compact {tests : List Test} (hi : Invariant ds tests)
    (hc : ds.Compacted ds' selected dropSources into mergeName)
    (hf : ds.CompactFits selected dropSources into mergeName) :
    Invariant ds' (tests.map (moved selected into)) := by
  -- The runs of tests have nodes, so a test in a selected run is in it once, and the run is dropped.
  have hsel : ∀ t ∈ tests, t.runId ∈ selected → dropSources = true ∧ selected.count t.runId = 1 := by
    intro t ht hs
    obtain ⟨_, row, hrow, _⟩ := hi.stored t ht
    have hne : ds.partition (·.historyNodes) t.runId ≠ [] := List.ne_nil_of_mem hrow
    refine ⟨?_, ?_⟩
    · by_contra hd
      exact hne (hf.dropped (Bool.eq_false_of_not_eq_true hd) _ hs)
    · have hpos := List.count_pos_iff.mpr hs
      have hle : ¬1 < selected.count t.runId := fun h => hne (hf.once _ h)
      omega
  have hkept : ∀ t ∈ tests, t.runId ∉ selected → t.runId ∈ ds.keptRuns selected dropSources := by
    intro t ht hs
    have hr := (hi.stored t ht).1
    rw [keptRuns]
    split
    case isTrue  => exact List.mem_filter.mpr ⟨hr, decide_eq_true hs⟩
    case isFalse => exact hr
  have hin : ∀ r ∈ ds.keptRuns selected dropSources, ∀ t ∈ tests, t.runId = r → r ∉ selected := by
    intro r hr t ht he hs
    have hd := (hsel t ht (he ▸ hs)).1
    rw [keptRuns, if_pos hd] at hr
    exact of_decide_eq_true (List.mem_filter.mp hr).2 hs
  constructor
  case distinct =>
    refine (hc.nodeIds_perm hf).nodup_iff.mpr (List.nodup_cons.mpr ⟨hf.fresh, hi.distinct⟩)
  case stored =>
    intro t ht
    obtain ⟨t, ht, he⟩ := List.mem_map.mp ht
    obtain ⟨hr, row, hrow, ho⟩ := hi.stored t ht
    rw [← he, moved_row, hc.runIds_eq]
    by_cases hs : t.runId ∈ selected
    case pos =>
      have hrun : (moved selected into t).runId = into := by rw [moved, if_pos hs]
      rw [hrun, hc.partition_into]
      have hm : row.own ∈ ((⟨ds, selected⟩ : ParquetDataset).historyRows.map Prod.snd).map (·.own) := by
        refine List.mem_map_of_mem ?_
        refine (((List.perm_insertionSort _ _).map Prod.snd).mem_iff).mpr ?_
        rw [measurement_snd]
        exact List.mem_flatMap.mpr ⟨_, hs, hrow⟩
      rw [← own_mergedHistory _ into mergeName] at hm
      obtain ⟨row', hrow', ho'⟩ := List.mem_map.mp hm
      exact ⟨List.mem_append_right _ (.head _), row', List.mem_of_mem_tail hrow', ho'.trans ho⟩
    case neg =>
      have hrun : (moved selected into t).runId = t.runId := by rw [moved, if_neg hs]
      rw [hrun, hc.partition_kept _ (hkept t ht hs)]
      exact ⟨List.mem_append_left _ (hkept t ht hs), row, hrow, ho⟩
  case recorded =>
    intro t ht id
    obtain ⟨t, ht, he⟩ := List.mem_map.mp ht
    rw [← he, moved_row, moved_recorded]
    by_cases hs : t.runId ∈ selected
    case pos =>
      have hrun : (moved selected into t).runId = into := by rw [moved, if_pos hs]
      have hv := ParquetDataset.valueAt_mergedAssoc ⟨ds, selected⟩ (t.row.nodeId, id)
      have hrows : ((⟨ds, selected⟩ : ParquetDataset).assocRows.map ParquetDataset.assocEntry)
          = selected.flatMap ds.assocEntries := by
        rw [ParquetDataset.assocRows, measurement_snd, List.map_flatMap]
        rfl
      rw [hrun, assocEntries, hc.partition_into]
      exact hv.trans (hrows ▸ hi.valueAt_selected ht hc.subset (hsel t ht hs).2 id)
    case neg =>
      have hrun : (moved selected into t).runId = t.runId := by rw [moved, if_neg hs]
      rw [hrun, assocEntries, hc.partition_kept _ (hkept t ht hs)]
      exact hi.recorded t ht id
  case owned =>
    intro r hr row hrow
    rw [hc.runIds_eq] at hr
    cases List.mem_append.mp hr
    case inl hr =>
      rw [hc.partition_kept _ hr] at hrow
      obtain ⟨t, ht, he, hid⟩ := hi.owned r (keptRuns_subset hr) row hrow
      have hmoved : moved selected into t = t := by rw [moved, if_neg (he ▸ hin r hr t ht he)]
      exact ⟨_, List.mem_map_of_mem ht, by rw [hmoved, he], by rw [moved_row, hid]⟩
    case inr hr =>
      have hr := List.mem_singleton.mp hr
      rw [hr, hc.partition_into] at hrow
      obtain ⟨row', hrow', hid'⟩ := exists_of_mem_mergedAssoc hrow
      rw [ParquetDataset.assocRows, measurement_snd] at hrow'
      obtain ⟨r', hr', hm⟩ := List.mem_flatMap.mp hrow'
      obtain ⟨t, ht, he, hid⟩ := hi.owned r' (hc.subset hr') row' hm
      have hrun : (moved selected into t).runId = into := by rw [moved, if_pos (he ▸ hr')]
      refine ⟨_, List.mem_map_of_mem ht, by rw [hrun, hr], ?_⟩
      rw [moved_row, hid, hid']

end Compact

theorem Reached.invariant {ds : Dataset} {tests : List Test} (h : Reached ds tests) : Invariant ds tests := by
  induction h
  case empty           => exact ⟨.nil, by simp, by simp, by simp [runIds]⟩
  case write hw hf hi  => exact hi.write (write_ok hw) hf
  case compact hc hf hi => exact hi.compact (compact_ok hc) hf

-- A test that hit the only statement once.
def smokeTest : LinkedUCIS where
  scopes       := [.mk { type := .instanceScope, name := "top" } [⟨"stmt", ⟨.stmtBin, 0, 1, 0, 1⟩, none, ∅⟩] []]
  historyNodes := [{ logicalName := "smoke", kind := some .test }]
  perTestData  := Dict.ofList [(0, Dict.ofList [(0, 1)])]

def smokeDataset : Dataset :=
  ParquetWriter.writeRun { definitions := some (Walk.definitions <| Walk.visited smokeTest.api) } "nightly"
    (Walk.measures smokeTest.api "nightly")

-- Runs that are named by counting: after two runs were rolled up, the next but one gets the name that
-- the second had.
def countedRuns : Except ParquetError Dataset := do
  let (_, ds) ← ParquetWriter.write {} smokeTest.api none
  let (_, ds) ← ParquetWriter.write ds smokeTest.api none
  let ds ← compact ds none none
  let (_, ds) ← ParquetWriter.write ds smokeTest.api none
  return ds

end Dataset
