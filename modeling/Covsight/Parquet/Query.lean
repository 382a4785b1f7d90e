import Covsight.Lib.Rollup
import Covsight.Parquet.Schema
import Covsight.Mem.UCIS

-- Reading a dataset. A selection of runs is read as if it were one run.

structure ParquetDataset where
  dataset   : Dataset
  selection : List String

namespace ParquetDataset

-- Without a selection all runs are read. The runs are read in the order in which they are named.
def select (ds : Dataset) (runs : Option (List String)) : Except ParquetError ParquetDataset :=
  if ds.runIds.isEmpty then
    .error .noManifest
  else
    let selected := runs.getD ds.runIds
    let missing := selected.filter (· ∉ ds.runIds)
    if missing.isEmpty then .ok ⟨ds, selected⟩ else .error (.noRun missing)

def defs (d : ParquetDataset) : Definitions :=
  d.dataset.definitions.getD {}

-- The rows of a measurement table, each with its run.
def measurement {α : Type} (d : ParquetDataset) (table : Measures → List α) : List (String × α) :=
  d.selection.flatMap fun runId => (((d.dataset.runs.get? runId).map table).getD []).map (runId, ·)

def countRows (d : ParquetDataset) : List CountRow :=
  (d.measurement (·.counts)).map Prod.snd

def assocRows (d : ParquetDataset) : List AssocRow :=
  (d.measurement (·.testCoverAssoc)).map Prod.snd

def formalRows (d : ParquetDataset) : List FormalRow :=
  (d.measurement (·.formal)).map Prod.snd

-- The bins whose counts are not added.
def nonAdditiveIds (d : ParquetDataset) : List Nat :=
  (d.defs.coveritems.filter fun row => mergeOp row.coverType ≠ .sum).map (·.coveritemId)

def groupSum (rows : List CountRow) : List CountRow :=
  Rollup.rollup (fun _ => (· + ·)) rows

def groupMax (rows : List CountRow) : List CountRow :=
  Rollup.rollup (fun _ => Nat.max) rows

def mergedCountsTable (d : ParquetDataset) : List CountRow :=
  let table := d.countRows
  let peakIds := d.nonAdditiveIds
  if table.isEmpty then
    []
  else if peakIds.isEmpty then
    groupSum table
  else
    groupSum (table.filter (·.fst ∉ peakIds)) ++ groupMax (table.filter (·.fst ∈ peakIds))

def counts (d : ParquetDataset) : Dict Nat Nat :=
  Dict.ofList d.mergedCountsTable

-- The witness of a conflict is the first there is, otherwise that of the first row with the status
-- that won. A row without a status is not one with the status zero.
def mergedWitness (rows : List FormalData) (status : Nat) : Option String :=
  if status = formalConflict then
    (rows.filterMap (·.witness)).find? (· ≠ "")
  else
    (rows.find? (·.status = some status)).bind (·.witness)

def mergedFormal (rows : List FormalData) : FormalData :=
  let status := mergeFormalStatuses <| rows.filterMap (·.status)
  let radius := (rows.map (·.radius.getD 0)).foldr max 0
  {
    status  := some status
    radius  := if radius = 0 then none else some radius
    witness := mergedWitness rows status
  }

def formalEntries (d : ParquetDataset) : List FormalRow :=
  (internAll (d.formalRows.map Prod.fst)).map fun id =>
    (id, mergedFormal <| (d.formalRows.filter (·.fst = id)).map Prod.snd)

def formalData (d : ParquetDataset) : Dict Nat FormalData :=
  Dict.ofList d.formalEntries

-- The position of a run in the selection; of a run that is named twice it is the last.
def runOrder (d : ParquetDataset) (runId : String) : Nat :=
  (Dict.ofList d.selection.zipIdx).get? runId |>.getD 0

-- The history, by run and then by the index in the run.
def historyRows (d : ParquetDataset) : List (String × HistoryRow) :=
  (d.measurement (·.historyNodes)).insertionSort fun a b =>
    d.runOrder a.fst < d.runOrder b.fst ∨
      d.runOrder a.fst = d.runOrder b.fst ∧ a.snd.localIndex ≤ b.snd.localIndex

end ParquetDataset

-- A dataset as a database: what the object API shows of it.

namespace ParquetDataset

-- The node with an id; the first one, if there are several.
def historyNode (d : ParquetDataset) (nodeId : String) : Option (String × HistoryRow) :=
  d.historyRows.find? (·.snd.nodeId = nodeId)

def historyNodes (d : ParquetDataset) (kind : HistoryNodeKind) : List (String × HistoryRow) :=
  (d.historyRows.filterMap fun row => d.historyNode row.snd.nodeId).filter fun row =>
    kind = .all ∨ row.snd.kind = some kind

-- The scopes in the order in which they were visited.
def scopeRows (d : ParquetDataset) : List ScopeRow :=
  d.defs.scopes.insertionSort (·.dfsOrdinal ≤ ·.dfsOrdinal)

-- The items of a scope.
def coveritemsOf (d : ParquetDataset) (scopeId : String) : List CoveritemRow :=
  (d.defs.coveritems.filter (·.scopeId = scopeId)).insertionSort (·.localIndex ≤ ·.localIndex)

-- The ids by flat bin index: here an item is looked up by position.
def flatCoveritemIds (d : ParquetDataset) : List Nat :=
  d.scopeRows.flatMap fun row => (d.coveritemsOf row.uniqueId).map (·.coveritemId)

def getFormalData (d : ParquetDataset) (binIndex : Nat) : Option FormalData :=
  d.flatCoveritemIds[binIndex]?.bind d.formalData.get?

end ParquetDataset

-- Which tests hit a bin, over the associations of a dataset.

namespace ParquetDataset

def positions (d : ParquetDataset) : Dict Nat Nat :=
  Dict.ofList d.flatCoveritemIds.zipIdx

-- The hits of each node, by flat bin index; the last row of a bin counts.
def byNode (d : ParquetDataset) : Dict String (Dict Nat Nat) :=
  d.assocRows.foldl (fun byNode row =>
    match d.positions.get? row.coveritemId with
    | none       => byNode
    | some index =>
      byNode.set row.testId <| ((byNode.get? row.testId).getD ∅).set index (row.count.getD 0)) ∅

-- The nodes that have hits, by their position in the history.
def byTest (d : ParquetDataset) : List (Nat × Dict Nat Nat) :=
  d.historyRows.zipIdx.filterMap fun (row, i) => (d.byNode.get? row.snd.nodeId).map (i, ·)

def historyName (d : ParquetDataset) (histIdx : Nat) : Option String :=
  d.historyRows[histIdx]?.bind (·.snd.logicalName)

def getTestsForCoveritem (d : ParquetDataset) (binIndex : Nat) : CoverItemTestInfo :=
  testsForCoveritem d.byTest d.historyName binIndex

end ParquetDataset

-- Compaction: rolling runs of a dataset up into one, in place.

namespace ParquetDataset

-- Every node of the history, and a node above them for the merge.
def mergedHistory (d : ParquetDataset) (runId mergeName : String) : List HistoryRow :=
  let mergeId := runId ++ "/merge:" ++ mergeName
  {
    nodeId      := mergeId
    kind        := some .merge
    localIndex  := 0
    logicalName := some mergeName
    comment     := some <| "merge of " ++ toString d.selection.length ++ " run(s): " ++
      ", ".intercalate d.selection
  } :: (d.historyRows.map Prod.snd).mapIdx fun i row =>
    { row with localIndex := i + 1, parentId := row.parentId.or (some mergeId) }

-- The associations, with the counts of a repeated pair added up.
def mergedAssoc (d : ParquetDataset) : List AssocRow :=
  let merged := Rollup.rollup (fun _ => (· + ·)) <|
    d.assocRows.map fun row => ((row.testId, row.coveritemId), row.count.getD 0)
  (merged.insertionSort fun a b => a.fst.fst < b.fst.fst ∨
    a.fst.fst = b.fst.fst ∧ a.fst.snd ≤ b.fst.snd).map fun ((testId, coveritemId), count) =>
    ⟨testId, coveritemId, some count⟩

def formalTable (d : ParquetDataset) : List FormalRow :=
  d.formalData.entries.insertionSort (·.fst ≤ ·.fst)

-- The runs of a selection as one run.
def rolledUp (d : ParquetDataset) (runId mergeName : String) : Measures where
  counts         := d.mergedCountsTable
  historyNodes   := d.mergedHistory runId mergeName
  testCoverAssoc := d.mergedAssoc
  formal         := d.formalTable

end ParquetDataset

-- The name of a rollup says what it contains.
def rollupName (selected : List String) : String :=
  match selected with
  | []      => "rollup-"
  | [runId] => "rollup-" ++ runId
  | runIds  => "rollup-" ++ runIds.headD "" ++ ".." ++ runIds.getLastD ""

def dropRun (ds : Dataset) (runId : String) : Dataset :=
  { ds with runs := ds.runs.pop runId }

def compact (ds : Dataset) (runs : Option (List String)) (intoRunId : Option String)
    (dropSources : Bool := true) (mergeName : String := "rollup") : Except ParquetError Dataset := do
  let source ← ParquetDataset.select ds runs
  let selected := source.selection
  if selected.isEmpty then
    throw .nothingToCompact
  let into := intoRunId.getD (rollupName selected)
  if into ∈ selected then
    throw (.compactionTarget into)
  if into ∈ ds.runIds.filter (· ∉ selected) then
    throw (.fileExists into)
  let ds := ParquetWriter.writeRun ds into (source.rolledUp into mergeName)
  return if dropSources then selected.foldl dropRun ds else ds
