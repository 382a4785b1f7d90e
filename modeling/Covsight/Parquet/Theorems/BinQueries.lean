import Covsight.Lib.StableSort
import Covsight.Parquet.Theorems.FormalQueries

-- Queries by flat bin index, in memory and over a dataset that was written from there.

-- The history that is written: nodes of the kind none come first.

namespace LinkedUCIS

def writtenHistory (db : LinkedUCIS) : List HistoryNode :=
  db.historyNodes.filter (·.kind = some .none) ++ db.historyNodes.filter (·.kind ≠ some .none)

end LinkedUCIS

namespace Walk

-- Elements that are new are appended.
theorem foldl_unique {α β : Type} [DecidableEq β] {f : α → β} {xs : List α} (hn : (xs.map f).Nodup)
    (acc : List α) :
    xs.foldl (fun ordered x => if f x ∈ ordered.map f then ordered else ordered ++ [x]) acc
      = acc ++ xs.filter (f · ∉ acc.map f) := by
  induction xs generalizing acc
  case nil => simp
  case cons x xs hi =>
    have ⟨hx, hn⟩ := List.nodup_cons.mp hn
    rw [List.foldl_cons]
    by_cases hm : f x ∈ acc.map f
    case pos =>
      rw [if_pos hm, hi hn, List.filter_cons_of_neg (by simpa using hm)]
    case neg =>
      have hf : xs.filter (f · ∉ (acc ++ [x]).map f) = xs.filter (f · ∉ acc.map f) := by
        refine List.filter_congr fun y hy => decide_eq_decide.mpr <| not_congr ?_
        have hne : f y ≠ f x := fun he => hx (he ▸ List.mem_map_of_mem hy)
        simp [hne]
      rw [if_neg hm, hi hn, hf, List.filter_cons_of_pos (by simpa using hm), List.append_assoc,
        List.singleton_append]

end Walk

namespace LinkedUCIS

variable (db : LinkedUCIS)

-- Every node, as the object API shows it.
def apiHistory : List Api.HistoryNode :=
  db.historyNodes.mapIdx fun i hn => hn.api i (db.historyParents i)

theorem apiHistory_handles : db.apiHistory.map (·.handle) = List.range db.historyNodes.length := by
  refine List.ext_getElem (by simp [apiHistory]) fun i hi hi' => ?_
  simp [apiHistory, HistoryNode.api]

theorem apiHistory_nodup : (db.apiHistory.map (·.handle)).Nodup :=
  db.apiHistory_handles ▸ List.nodup_range

theorem orderedHistory_eq : Walk.orderedHistory db.api
    = db.apiHistory.filter (·.kind = some .none) ++ db.apiHistory.filter (·.kind ≠ some .none) := by
  let ofKind (kind : HistoryNodeKind) : List Api.HistoryNode :=
    db.apiHistory.filter fun node => kind = .all ∨ node.kind = some kind
  have hsub : ∀ kind, ((ofKind kind).map (·.handle)).Nodup := fun kind =>
    db.apiHistory_nodup.sublist (List.filter_sublist.map _)
  have hall : ofKind .all = db.apiHistory := List.filter_eq_self.mpr fun _ _ => by simp
  have hnone : ofKind .none = db.apiHistory.filter (·.kind = some .none) :=
    List.filter_congr fun _ _ => by simp
  have hflat : HistoryNodeKind.each.flatMap db.api.historyNodes
      = ofKind .none ++ (ofKind .all ++ (ofKind .test ++ (ofKind .merge ++ []))) := rfl
  have hrest : db.apiHistory.filter (·.handle ∉ (ofKind .none).map (·.handle))
      = db.apiHistory.filter (·.kind ≠ some .none) := by
    refine List.filter_congr fun node hm => decide_eq_decide.mpr <| not_congr ⟨fun h => ?_, fun h => ?_⟩
    · have ⟨node', hm', he⟩ := List.mem_map.mp h
      rw [hnone] at hm'
      have hsame := List.inj_on_of_nodup_map db.apiHistory_nodup (List.mem_filter.mp hm').1 hm he
      exact hsame ▸ of_decide_eq_true (List.mem_filter.mp hm').2
    · rw [hnone]
      exact List.mem_map_of_mem <| List.mem_filter.mpr ⟨hm, decide_eq_true h⟩
  have hseen : ∀ kind, (ofKind kind).filter (·.handle ∉ (ofKind .none ++
      db.apiHistory.filter (·.kind ≠ some .none)).map (·.handle)) = [] := by
    intro kind
    refine List.filter_eq_nil_iff.mpr fun node hm hnew => of_decide_eq_true hnew ?_
    refine List.mem_map_of_mem ?_
    have hm := (List.mem_filter.mp hm).1
    by_cases hk : node.kind = some .none
    case pos => exact List.mem_append_left _ (hnone ▸ List.mem_filter.mpr ⟨hm, decide_eq_true hk⟩)
    case neg => exact List.mem_append_right _ (List.mem_filter.mpr ⟨hm, decide_eq_true hk⟩)
  rw [Walk.orderedHistory, hflat, List.foldl_append, List.foldl_append, List.foldl_append,
    List.foldl_append, Walk.foldl_unique (hsub .none), Walk.foldl_unique (hsub .all)]
  simp only [List.nil_append, List.map_nil, List.not_mem_nil, not_false_eq_true, decide_true,
    List.filter_true, List.foldl_nil]
  rw [hall, hrest, Walk.foldl_unique (hsub .test), hseen, List.append_nil, Walk.foldl_unique (hsub .merge),
    hseen, List.append_nil, hnone]

-- The names in the order in which the history is written.
theorem orderedHistory_names : (Walk.orderedHistory db.api).map (·.logicalName)
    = db.writtenHistory.map (some ·.logicalName) := by
  have hpairs : db.apiHistory.map (fun node => (node.kind, node.logicalName))
      = db.historyNodes.map fun hn => (hn.kind, some hn.logicalName) := by
    refine List.ext_getElem? fun i => ?_
    simp only [apiHistory, List.getElem?_map, List.getElem?_mapIdx, Option.map_map]
    rfl
  have hfilter : ∀ p : Option HistoryNodeKind → Bool,
      (db.apiHistory.filter (p ·.kind)).map (·.logicalName)
        = (db.historyNodes.filter (p ·.kind)).map (some ·.logicalName) := by
    intro p
    have h := congrArg (fun pairs => (pairs.filter (p ·.fst)).map Prod.snd) hpairs
    simpa only [List.filter_map, List.map_map, Function.comp_def] using h
  rw [orderedHistory_eq, writtenHistory, List.map_append, List.map_append]
  exact congrArg₂ (· ++ ·) (hfilter (· = some .none)) (hfilter (· ≠ some .none))

end LinkedUCIS

namespace ParquetDataset

-- The hits of the nodes as one table.
def nodeHits (d : ParquetDataset) : List ((String × Nat) × Nat) :=
  d.assocRows.filterMap fun row =>
    (d.positions.get? row.coveritemId).map fun index => ((row.testId, index), row.count.getD 0)

-- The hits by node and the table of hits grow alike.
theorem foldl_positions_get? (d : ParquetDataset) (rows : List AssocRow) (byNode : Dict String (Dict Nat Nat))
    (hits : Dict (String × Nat) Nat) (h : ∀ t i, (byNode.get? t).bind (·.get? i) = hits.get? (t, i)) (t : String)
    (i : Nat) :
    ((rows.foldl (fun byNode row =>
      match d.positions.get? row.coveritemId with
      | none       => byNode
      | some index =>
        byNode.set row.testId <| ((byNode.get? row.testId).getD ∅).set index (row.count.getD 0))
      byNode).get? t).bind (·.get? i)
    = (hits.setAll <| rows.filterMap fun row =>
        (d.positions.get? row.coveritemId).map fun index => ((row.testId, index), row.count.getD 0)).get? (t, i) := by
  induction rows generalizing byNode hits t i
  case nil => exact h t i
  case cons row rows hi =>
    rw [List.foldl_cons]
    cases hp : d.positions.get? row.coveritemId
    case none =>
      rw [List.filterMap_cons_none (by rw [hp]; rfl)]
      exact hi byNode hits h t i
    case some index =>
      rw [List.filterMap_cons_some (by rw [hp]; rfl), Dict.setAll_cons]
      refine hi _ _ (fun t' i' => ?_) t i
      rw [Dict.get?_set, Dict.get?_set]
      by_cases ht : row.testId = t'
      case neg =>
        rw [if_neg ht, if_neg fun he => ht (congrArg Prod.fst he)]
        exact h t' i'
      case pos =>
        rw [if_pos ht, Option.bind_some, Dict.get?_set]
        by_cases hx : index = i'
        case pos => rw [if_pos hx, if_pos (by rw [ht, hx])]
        case neg =>
          rw [if_neg hx, if_neg fun he => hx (congrArg Prod.snd he), ← h t' i', ht]
          cases byNode.get? t' <;> rfl

theorem byNode_get? (d : ParquetDataset) (nodeId : String) (i : Nat) :
    (d.byNode.get? nodeId).bind (·.get? i) = (Dict.ofList d.nodeHits).get? (nodeId, i) :=
  d.foldl_positions_get? d.assocRows ∅ ∅ (fun t i => by simp) nodeId i

end ParquetDataset

namespace Walk

variable {runId : String} {nodes : List Api.HistoryNode} {flat : List Nat}
  {perTest : Dict Nat (Dict Nat Nat)}

theorem mem_assocRows_iff {row : AssocRow} : row ∈ assocRows runId nodes flat perTest ↔
    ∃ h node bins b count id, nodes[h]? = some node ∧ perTest.get? h = some bins ∧ bins.get? b = some count ∧
      flat[b]? = some id ∧ row = ⟨historyNodeId runId h node.logicalName, id, some count⟩ := by
  have hperm : ∀ {α : Type} (d : Dict Nat α) (e : Nat × α),
      e ∈ d.entries.insertionSort (·.fst ≤ ·.fst) ↔ d.get? e.fst = some e.snd := fun d e => by
    rw [List.mem_insertionSort, Dict.get?_eq_some_iff]
  rw [assocRows, List.mem_flatMap]
  constructor
  case mp =>
    intro ⟨⟨h, bins⟩, hm, hrow⟩
    have hm := (hperm perTest (h, bins)).mp hm
    dsimp only at hrow
    split at hrow
    case h_1 => cases hrow
    case h_2 node hn =>
      have ⟨⟨b, count⟩, hb, hrow⟩ := List.mem_filterMap.mp hrow
      have hb := (hperm bins (b, count)).mp hb
      have ⟨id, hid, hrow⟩ := Option.map_eq_some_iff.mp hrow
      exact ⟨h, node, bins, b, count, id, hn, hm, hb, hid, hrow.symm⟩
  case mpr =>
    intro ⟨h, node, bins, b, count, id, hn, hm, hb, hid, hrow⟩
    refine ⟨(h, bins), (hperm perTest (h, bins)).mpr hm, ?_⟩
    simp only [hn]
    exact List.mem_filterMap.mpr ⟨(b, count), (hperm bins (b, count)).mpr hb, by simp [hid, hrow]⟩

end Walk

namespace LinkedUCIS

-- The hits that are recorded for a test and a bin.
def hits (db : LinkedUCIS) (h i : Nat) : Nat :=
  (((db.perTestData.get? h).bind (·.get? i))).getD 0

end LinkedUCIS

namespace Holds

open LinkedUCIS

variable {db : LinkedUCIS} {d : ParquetDataset} {runId : String} (h : Holds d db.api runId)
  (hids : Walk.flatCoveritemIds db.api (Walk.visited db.api) = db.binIds)

include h

theorem positions_get? (id : Nat) :
    d.positions.get? id = if id < db.totalBinCount then some id else none := by
  ext i
  rw [ParquetDataset.positions, h.flatCoveritemIds, Dict.get?_ofList_zipIdx List.nodup_range,
    length_itemKeys, List.getElem?_eq_some_iff]
  simp only [List.length_range, List.getElem_range]
  split <;> grind

include hids

theorem byNode_get? {n i j : Nat} {node : Api.HistoryNode}
    (hn : (Walk.orderedHistory db.api)[n]? = some node) (hi : i < db.totalBinCount)
    (hj : db.binIds[j]? = some i) :
    (d.byNode.get? (historyNodeId runId n node.logicalName)).bind (·.get? i)
      = (db.perTestData.get? n).bind (·.get? j) := by
  have hrows : d.assocRows
      = Walk.assocRows runId (Walk.orderedHistory db.api) db.binIds db.perTestData := by
    rw [ParquetDataset.assocRows, h.measurement, List.map_map, ← hids]
    exact List.map_id _
  have hmem : ∀ count, ((historyNodeId runId n node.logicalName, i), count) ∈ d.nodeHits ↔
      (db.perTestData.get? n).bind (·.get? j) = some count := by
    intro count
    rw [ParquetDataset.nodeHits, hrows, List.mem_filterMap]
    constructor
    case mp =>
      rintro ⟨row, hm, he⟩
      obtain ⟨n', node', bins, b, count', id, hn', hbins, hb, hid, hrow⟩ := Walk.mem_assocRows_iff.mp hm
      obtain ⟨id', hid', he⟩ := Option.map_eq_some_iff.mp he
      rw [hrow, h.positions_get?] at hid'
      split at hid'
      case isFalse => cases hid'
      case isTrue =>
        simp only [hrow, Prod.mk.injEq, Option.getD_some] at he
        obtain ⟨⟨hnode, rfl⟩, rfl⟩ := he
        cases hid'
        obtain rfl := historyNodeId_index hnode
        have hbj : b = j := by
          have hlt := (List.getElem?_eq_some_iff.mp hid).1
          exact (List.getElem?_inj hlt binIds_nodup).mp (hid.trans hj.symm)
        rw [hbins, Option.bind_some, ← hbj, hb]
    case mpr =>
      intro hc
      obtain ⟨bins, hbins, hb⟩ := Option.bind_eq_some_iff.mp hc
      refine ⟨_, Walk.mem_assocRows_iff.mpr ⟨n, node, bins, j, count, i, hn, hbins, hb, hj, rfl⟩, ?_⟩
      simp [h.positions_get?, hi]
  rw [ParquetDataset.byNode_get?]
  ext count
  constructor
  case mp => exact fun hc => (hmem count).mp (Dict.mem_of_get?_ofList hc)
  case mpr =>
    intro hc
    have hk : (historyNodeId runId n node.logicalName, i) ∈ Dict.ofList d.nodeHits :=
      Dict.mem_setAll_iff.mpr <| .inr <| List.mem_map_of_mem ((hmem count).mpr hc)
    obtain ⟨count', hc'⟩ := Dict.exists_get?_of_mem hk
    have hm' := (hmem count').mp (Dict.mem_of_get?_ofList hc')
    rw [hc] at hm'
    cases hm'
    exact hc'

omit hids in
theorem historyName (n : Nat) :
    d.historyName n = (Walk.orderedHistory db.api)[n]?.bind (·.logicalName) := by
  rw [ParquetDataset.historyName, h.historyRows]
  simp only [List.getElem?_map, Walk.historyRows, List.getElem?_mapIdx]
  cases (Walk.orderedHistory db.api)[n]? <;> rfl

-- The tests of a bin, read from the dataset.
theorem mem_testsOfBin_iff {i j : Nat} (hi : i < db.totalBinCount) (hj : db.binIds[j]? = some i)
    {test : Nat × String × Nat} : test ∈ testsOfBin d.byTest d.historyName i ↔
      ∃ node, db.writtenHistory[test.fst]? = some node ∧ test.snd.snd ≠ 0 ∧
        test.snd.snd = db.hits test.fst j ∧ test.snd.fst = shownName test.fst (some node.logicalName) := by
  obtain ⟨n, name, count⟩ := test
  have hnames : ∀ m : Nat, (Walk.orderedHistory db.api)[m]?.map Api.HistoryNode.logicalName
      = db.writtenHistory[m]?.map (some ∘ HistoryNode.logicalName) := fun m => by
    have hn := congrArg (·[m]?) db.orderedHistory_names
    simp only [List.getElem?_map] at hn
    exact hn
  have hrow : ∀ m, d.historyRows[m]?.map (·.snd.nodeId)
      = (Walk.orderedHistory db.api)[m]?.map fun node => historyNodeId runId m node.logicalName := by
    intro m
    rw [h.historyRows]
    simp only [List.getElem?_map, Walk.historyRows, List.getElem?_mapIdx, Option.map_map]
    rfl
  rw [testsOfBin, List.mem_filterMap]
  constructor
  case mp =>
    rintro ⟨⟨m, bins⟩, hm, he⟩
    rw [ParquetDataset.byTest, List.mem_filterMap] at hm
    obtain ⟨⟨row, m'⟩, hz, hbins⟩ := hm
    have hz := List.mem_zipIdx_iff_getElem?.mp hz
    obtain ⟨bins', hbins, hpair⟩ := Option.map_eq_some_iff.mp hbins
    cases hpair
    dsimp only at he
    split at he
    case isTrue => cases he
    case isFalse hne =>
      simp only [Option.some.injEq, Prod.mk.injEq] at he
      obtain ⟨rfl, rfl, rfl⟩ := he
      have hr := hrow m
      rw [hz, Option.map_some] at hr
      obtain ⟨node, hnode, hid⟩ := Option.map_eq_some_iff.mp hr.symm
      have hw := hnames m
      rw [hnode, Option.map_some] at hw
      obtain ⟨written, hwritten, hname⟩ := Option.map_eq_some_iff.mp hw.symm
      have hb := h.byNode_get? hids hnode hi hj
      rw [hid, hbins, Option.bind_some] at hb
      refine ⟨written, hwritten, hne, ?_, ?_⟩
      · rw [hits, ← hb]
      · rw [h.historyName, hnode, Option.bind_some]
        exact congrArg (shownName m) hname.symm
  case mpr =>
    rintro ⟨written, hwritten, hne, hcount, hname⟩
    dsimp only at hwritten hne hcount hname
    have hw := hnames n
    rw [hwritten, Option.map_some] at hw
    obtain ⟨node, hnode, hlogical⟩ := Option.map_eq_some_iff.mp hw
    have hr := hrow n
    rw [hnode, Option.map_some] at hr
    obtain ⟨row, hrow, hid⟩ := Option.map_eq_some_iff.mp hr
    have hb := h.byNode_get? hids hnode hi hj
    rw [hits, ← hb] at hcount
    cases hbins : d.byNode.get? (historyNodeId runId n node.logicalName)
    case none =>
      rw [hbins] at hcount
      exact absurd hcount hne
    case some bins =>
      rw [hbins, Option.bind_some] at hcount
      refine ⟨(n, bins), ?_, ?_⟩
      · rw [ParquetDataset.byTest]
        refine List.mem_filterMap.mpr ⟨(row, n), List.mem_zipIdx_iff_getElem?.mpr hrow, ?_⟩
        simp only [hid, hbins, Option.map_some]
      · simp only [← hcount, if_neg hne, h.historyName, hnode, Option.bind_some, hlogical, hname,
          Function.comp_apply]

end Holds

namespace LinkedUCIS

-- What the claim is about: the ids by flat bin index, and the queries by flat bin index in memory and
-- over a dataset.
structure BinsAgree (db : LinkedUCIS) (d : ParquetDataset) : Prop where
  distinct : (Walk.flatCoveritemIds db.api (Walk.visited db.api)).Nodup
  follows  : (Walk.flatCoveritemIds db.api (Walk.visited db.api)).map some
    = db.iterFlatBins.map fun (n, i) => (Walk.visited db.api)[n]?.bind fun v =>
        (Walk.coveritemIds (Walk.visited db.api)).get? (v.uid, i)
  formal   : ∀ i < db.totalBinCount,
    FormalData.shown (d.getFormalData i) = FormalData.shown (db.formalData.get? i)
  tests    : ∀ i < db.totalBinCount, d.getTestsForCoveritem i = db.getTestsForCoveritem i

-- The databases of which a dataset says the same: no two items of a scope have a name, the formal
-- results can be given back, the bins of a reversed toggle pair are alike, and tests are listed where the
-- dataset lists them.
structure BinsTold (db : LinkedUCIS) : Prop where
  names       : ∀ s ∈ db.dfsScopeList, ¬s.isTogglePair → s.itemNames.Nodup
  readable    : ∀ i < db.totalBinCount, (db.resultAt i).Readable
  pairResults : ∀ k, db.ReversedAt k →
    FormalData.shown (db.formalData.get? k) = FormalData.shown (db.formalData.get? (k + 1))
  pairHits    : ∀ k, db.ReversedAt k → ∀ h, db.hits h k = db.hits h (k + 1)
  listed      : ∀ i < db.totalBinCount, ∀ h, db.hits h i ≠ 0 → ∃ node,
    db.writtenHistory[h]? = some node ∧ shownName h (some node.logicalName) = shownName h (db.historyName h)
  ties        : ∀ i < db.totalBinCount,
    db.perTestData.keys.Pairwise fun h h' => db.hits h i ≠ 0 → db.hits h i = db.hits h' i → h < h'

variable {db : LinkedUCIS}

theorem follows_iff : (Walk.flatCoveritemIds db.api (Walk.visited db.api)).map some
      = (db.iterFlatBins.map fun (n, i) => (Walk.visited db.api)[n]?.bind fun v =>
          (Walk.coveritemIds (Walk.visited db.api)).get? (v.uid, i)) ↔
    ∀ s ∈ db.dfsScopeList, ¬s.isTogglePair → s.itemNames.Nodup := by
  rw [map_iterFlatBins, (List.map_injective_iff.mpr (Option.some_injective Nat)).eq_iff,
    flatCoveritemIds_eq, binIds,
    orderedIds_inj (fun _ => Scope.length_nameOrder) fun _ => Scope.length_binOrder]
  exact forall₂_congr fun _ _ => Scope.nameOrder_eq_iff

-- Tests, by their positions.

theorem mem_testsOfBin_iff {i : Nat} {test : Nat × String × Nat} :
    test ∈ testsOfBin db.perTestData.entries db.historyName i ↔ test.snd.snd ≠ 0 ∧
      test.snd.snd = db.hits test.fst i ∧ test.snd.fst = shownName test.fst (db.historyName test.fst) := by
  have ⟨n, name, count⟩ := test
  rw [testsOfBin, List.mem_filterMap]
  constructor
  case mp =>
    intro ⟨⟨m, bins⟩, hm, he⟩
    have hbins : db.perTestData.get? m = some bins := Dict.get?_eq_some_iff.mpr hm
    dsimp only at he
    split at he
    case isTrue => cases he
    case isFalse hne =>
      cases he
      exact ⟨hne, by rw [hits, hbins, Option.bind_some], rfl⟩
  case mpr =>
    intro ⟨hne, hcount, hname⟩
    dsimp only at hne hcount hname
    cases hbins : db.perTestData.get? n
    case none =>
      rw [hits, hbins] at hcount
      exact absurd hcount hne
    case some bins =>
      rw [hits, hbins, Option.bind_some] at hcount
      refine ⟨(n, bins), Dict.get?_eq_some_iff.mp hbins, ?_⟩
      simp only [← hcount, if_neg hne, hname]

-- The tests of a bin that hit it equally often.
abbrev CountOrder (a b : Nat × String × Nat) : Prop :=
  b.snd.snd ≤ a.snd.snd

theorem ties_iff {i : Nat} : TiesOrdered CountOrder (fun a b => a.fst < b.fst)
      (testsOfBin db.perTestData.entries db.historyName i) ↔
    db.perTestData.keys.Pairwise fun h h' => db.hits h i ≠ 0 → db.hits h i = db.hits h' i → h < h' := by
  have hhits : ∀ e ∈ db.perTestData.entries, db.hits e.fst i = (e.snd.get? i).getD 0 := by
    intro e he
    rw [hits, Dict.get?_eq_some_iff.mpr he, Option.bind_some]
  rw [TiesOrdered, testsOfBin, List.pairwise_filterMap, Dict.keys, List.pairwise_map]
  refine List.Pairwise.iff_of_mem fun {e e'} he he' => ?_
  rw [hhits e he, hhits e' he']
  dsimp only
  constructor
  case mp =>
    intro h hne heq
    exact h _ (if_neg hne) _ (if_neg (heq ▸ hne)) (Nat.le_of_eq heq.symm) (Nat.le_of_eq heq)
  case mpr =>
    intro h b hb b' hb' hle hle'
    split at hb
    case isTrue => cases hb
    case isFalse hne =>
      split at hb'
      case isTrue => cases hb'
      case isFalse =>
        cases hb
        cases hb'
        exact h hne (Nat.le_antisymm hle' hle)

theorem positions_nodup (i : Nat) :
    (testsOfBin db.perTestData.entries db.historyName i).Pairwise fun a b => a.fst ≠ b.fst := by
  have hn := db.perTestData.nodup
  rw [List.Nodup, List.pairwise_map] at hn
  refine hn.filterMap _ fun e e' hne b hb b' hb' => ?_
  dsimp only at hb hb'
  split at hb
  case isTrue => cases hb
  case isFalse =>
    split at hb'
    case isTrue => cases hb'
    case isFalse =>
      cases hb
      cases hb'
      exact hne

end LinkedUCIS

namespace Holds

open LinkedUCIS

instance : Std.Total CountOrder :=
  ⟨fun a b => Nat.le_total b.snd.snd a.snd.snd⟩

instance : IsTrans (Nat × String × Nat) CountOrder :=
  ⟨fun _ _ _ h h' => Nat.le_trans h' h⟩

theorem testsForCoveritem_eq_iff {index index' : List (Nat × Dict Nat Nat)}
    {historyName historyName' : Nat → Option String} {i : Nat} :
    testsForCoveritem index historyName i = testsForCoveritem index' historyName' i ↔
      (testsOfBin index historyName i).insertionSort CountOrder
        = (testsOfBin index' historyName' i).insertionSort CountOrder := by
  rw [testsForCoveritem, testsForCoveritem, CoverItemTestInfo.mk.injEq]
  constructor
  case mp => exact fun h => h.2.2
  case mpr =>
    intro h
    have hp := (List.perm_insertionSort CountOrder (testsOfBin index historyName i)).symm.trans
      (h ▸ List.perm_insertionSort CountOrder (testsOfBin index' historyName' i))
    exact ⟨rfl, (hp.map _).sum_nat, h⟩

theorem byTest_pairwise (d : ParquetDataset) (i : Nat) :
    (testsOfBin d.byTest d.historyName i).Pairwise fun a b => a.fst < b.fst := by
  have hz : d.historyRows.zipIdx.Pairwise fun a b => a.snd < b.snd := by
    have hr := List.pairwise_lt_range' (s := 0) (n := d.historyRows.length)
    rw [← List.zipIdx_map_snd] at hr
    exact List.pairwise_map.mp hr
  have ht : d.byTest.Pairwise fun a b => a.fst < b.fst := by
    refine hz.filterMap _ fun a a' hlt b hb b' hb' => ?_
    have ⟨_, _, he⟩ := Option.map_eq_some_iff.mp hb
    have ⟨_, _, he'⟩ := Option.map_eq_some_iff.mp hb'
    rw [← he, ← he']
    exact hlt
  refine ht.filterMap _ fun e e' hlt b hb b' hb' => ?_
  dsimp only at hb hb'
  split at hb
  case isTrue => cases hb
  case isFalse =>
    split at hb'
    case isTrue => cases hb'
    case isFalse =>
      cases hb
      cases hb'
      exact hlt

variable {db : LinkedUCIS} {d : ParquetDataset} {runId : String} (h : Holds d db.api runId)
  (hids : Walk.flatCoveritemIds db.api (Walk.visited db.api) = db.binIds)

include h hids

theorem formal_iff : (∀ i < db.totalBinCount,
      FormalData.shown (d.getFormalData i) = FormalData.shown (db.formalData.get? i)) ↔
    (∀ i < db.totalBinCount, (db.resultAt i).Readable) ∧ ∀ k, db.ReversedAt k →
      FormalData.shown (db.formalData.get? k) = FormalData.shown (db.formalData.get? (k + 1)) := by
  simp only [← db.shown_resultAt]
  constructor
  case mp =>
    intro ha
    have hread : ∀ i < db.totalBinCount, (db.resultAt i).Readable := by
      intro i hi
      have ⟨j, hj, hij, hji, _⟩ := exists_binIds hi
      have hi' := ha i hi
      have hj' := ha j hj
      rw [h.shown_getFormalData hids hi hji] at hi'
      rw [h.shown_getFormalData hids hj hij] at hj'
      exact FormalData.Readable.of_swapped hj' hi'
    refine ⟨hread, fun k hk => ?_⟩
    have ⟨hlt, _, hk1⟩ := hk.swap
    have hk' := ha k (Nat.lt_of_succ_lt hlt)
    rw [h.shown_getFormalData hids (Nat.lt_of_succ_lt hlt) hk1,
      FormalData.reread_eq_iff.mpr (hread _ hlt)] at hk'
    exact hk'.symm
  case mpr =>
    intro ⟨hread, hpair⟩ i hi
    have ⟨j, hj, _, hji, hor⟩ := exists_binIds hi
    rw [h.shown_getFormalData hids hi hji, FormalData.reread_eq_iff.mpr (hread j hj)]
    obtain rfl | ⟨k, hk, ⟨rfl, rfl⟩ | ⟨rfl, rfl⟩⟩ := hor
    · rfl
    · exact (hpair i hk).symm
    · exact hpair j hk

theorem tests_iff : (∀ i < db.totalBinCount, d.getTestsForCoveritem i = db.getTestsForCoveritem i) ↔
    (∀ k, db.ReversedAt k → ∀ n, db.hits n k = db.hits n (k + 1)) ∧
    (∀ i < db.totalBinCount, ∀ n, db.hits n i ≠ 0 → ∃ node, db.writtenHistory[n]? = some node ∧
      shownName n (some node.logicalName) = shownName n (db.historyName n)) ∧
    ∀ i < db.totalBinCount,
      db.perTestData.keys.Pairwise fun n n' => db.hits n i ≠ 0 → db.hits n i = db.hits n' i → n < n' := by
  have hone : ∀ i, d.getTestsForCoveritem i = db.getTestsForCoveritem i ↔
      (testsOfBin db.perTestData.entries db.historyName i).Perm (testsOfBin d.byTest d.historyName i) ∧
        db.perTestData.keys.Pairwise fun n n' => db.hits n i ≠ 0 → db.hits n i = db.hits n' i → n < n' := by
    intro i
    have hties : TiesOrdered CountOrder (fun a b => a.fst < b.fst) (testsOfBin d.byTest d.historyName i) :=
      (byTest_pairwise d i).imp fun hlt _ _ => hlt
    rw [eq_comm, ParquetDataset.getTestsForCoveritem, MemUCIS.getTestsForCoveritem, testsForCoveritem_eq_iff,
      insertionSort_eq_iff (fun _ _ => Nat.lt_asymm) hties, ties_iff]
  have hperm : ∀ i, (testsOfBin db.perTestData.entries db.historyName i).Perm
        (testsOfBin d.byTest d.historyName i) ↔
      ∀ test, test ∈ testsOfBin db.perTestData.entries db.historyName i ↔
        test ∈ testsOfBin d.byTest d.historyName i := fun i =>
    List.perm_ext_iff_of_nodup ((positions_nodup i).imp fun hne he => hne (congrArg Prod.fst he))
      ((byTest_pairwise d i).imp fun hlt he => Nat.ne_of_lt hlt (congrArg Prod.fst he))
  simp only [hone, hperm, forall_and, ← and_assoc]
  refine and_congr_left' ⟨fun ha => ?_, fun ⟨hpair, hlisted⟩ i hi test => ?_⟩
  · have hin : ∀ i < db.totalBinCount, ∀ j, db.binIds[j]? = some i → ∀ n, db.hits n i ≠ 0 →
        db.hits n i = db.hits n j ∧ ∃ node, db.writtenHistory[n]? = some node ∧
          shownName n (some node.logicalName) = shownName n (db.historyName n) := by
      intro i hi j hj n hne
      have hm := (ha i hi (n, shownName n (db.historyName n), db.hits n i)).mp <|
        LinkedUCIS.mem_testsOfBin_iff.mpr ⟨hne, rfl, rfl⟩
      have ⟨node, hnode, _, hcount, hname⟩ := (h.mem_testsOfBin_iff hids hi hj).mp hm
      exact ⟨hcount, node, hnode, hname.symm⟩
    refine ⟨fun k hk n => ?_, fun i hi n hne => ?_⟩
    · have ⟨hlt, h0, h1⟩ := hk.swap
      by_cases hz : db.hits n k = 0
      case neg => exact (hin k (Nat.lt_of_succ_lt hlt) (k + 1) h1 n hz).1
      case pos =>
        by_contra hne
        have hne1 : db.hits n (k + 1) ≠ 0 := fun h1 => hne (hz.trans h1.symm)
        exact hne (hin (k + 1) hlt k h0 n hne1).1.symm
    · have ⟨j, _, _, hji, _⟩ := exists_binIds hi
      exact (hin i hi j hji n hne).2
  · have ⟨j, _, _, hji, hor⟩ := exists_binIds hi
    have hhits : ∀ n, db.hits n j = db.hits n i := by
      intro n
      obtain rfl | ⟨k, hk, ⟨rfl, rfl⟩ | ⟨rfl, rfl⟩⟩ := hor
      · rfl
      · exact (hpair i hk n).symm
      · exact hpair j hk n
    rw [LinkedUCIS.mem_testsOfBin_iff, h.mem_testsOfBin_iff hids hi hji, hhits]
    constructor
    case mp =>
      intro ⟨hne, hcount, hname⟩
      have ⟨node, hnode, hshown⟩ := hlisted i hi test.fst (hcount ▸ hne)
      exact ⟨node, hnode, hne, hcount, hname.trans hshown.symm⟩
    case mpr =>
      intro ⟨node, hnode, hne, hcount, hname⟩
      have ⟨node', hnode', hshown⟩ := hlisted i hi test.fst (hcount ▸ hne)
      cases hnode.symm.trans hnode'
      exact ⟨hne, hcount, hname.trans hshown⟩

end Holds

namespace LinkedUCIS

-- A signal with a toggle pair and a proof for its second bin.
def togglePair (names : List String) (perTestData : Dict Nat (Dict Nat Nat)) : LinkedUCIS where
  scopes       := [.mk { type := .branch, name := "sig" }
    (names.map (⟨·, { type := .toggleBin, flags := 0 }, none, ∅⟩)) []]
  historyNodes := [{ logicalName := "smoke", kind := some .test }]
  perTestData
  formalData   := Dict.ofList [(1, { status := some formalProof })]

def storedPair (names : List String) (perTestData : Dict Nat (Dict Nat Nat)) : Dataset :=
  let db := (togglePair names perTestData).api
  ParquetWriter.writeRun { definitions := some (Walk.definitions <| Walk.visited db) } "run-0000"
    (Walk.measures db "run-0000")

-- Created the other way round, the hits of the first bin are read as hits of the second.
def firstBinHit : Dict Nat (Dict Nat Nat) :=
  Dict.ofList [(0, Dict.ofList [(0, 3)])]

end LinkedUCIS
