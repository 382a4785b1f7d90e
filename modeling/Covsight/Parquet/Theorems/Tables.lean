import Covsight.Lib.Call
import Covsight.Parquet.Query
import Covsight.Lib.Blocks
import Covsight.Mem.LinkedUCIS
import Covsight.Ncdb.Theorems.DfsUtil
import Covsight.Parquet.Theorems.History

-- What the walk of the writer gets to see: every scope once and in depth-first order, each with an id of
-- its own.

-- A number that makes an id a new one is found, since there are more candidates than ids.

theorem toString_injective : Function.Injective (toString : Nat → String) := by
  intro m n h
  have hl := congrArg String.toList h
  simp only [Nat.toString_eq_repr, Nat.toList_repr] at hl
  exact toDigits_injective hl

theorem allocateUid_not_mem (seen : List String) (uid : String) : allocateUid seen uid ∉ seen := by
  rw [allocateUid]
  split
  case isFalse h => exact h
  case isTrue h =>
    generalize hc : ((List.range (seen.length + 1)).map fun n => uid ++ "~" ++ toString (n + 1)) = candidates
    have hnodup : candidates.Nodup := by
      rw [← hc]
      refine List.nodup_range.map fun m n hmn => ?_
      have hl := congrArg String.toList hmn
      simp only [String.toList_append, List.append_assoc, List.append_cancel_left_eq] at hl
      have hs : toString (m + 1) = toString (n + 1) := String.toList_injective hl
      exact Nat.succ.inj (toString_injective hs)
    have hlength : candidates.length = seen.length + 1 := by rw [← hc]; simp
    have ⟨candidate, hm, hnew⟩ : ∃ candidate ∈ candidates, candidate ∉ seen := by
      by_contra hall
      have hsub : candidates ⊆ seen := by
        intro candidate hm
        by_contra hnew
        exact hall ⟨candidate, hm, hnew⟩
      have hle := (List.subperm_of_subset hnodup hsub).length_le
      omega
    dsimp only
    cases hf : candidates.find? (· ∉ seen)
    case none =>
      have hnone := List.find?_eq_none.mp hf candidate hm
      exact absurd (decide_eq_true hnew) hnone
    case some found =>
      have hfound := List.find?_some hf
      exact of_decide_eq_true hfound

namespace Api.Scope

theorem isTogglePair_scopes {s : Scope} (h : s.isTogglePair) : s.scopes = [] := by
  simp only [isTogglePair, decide_eq_true_eq] at h
  exact List.isEmpty_iff.mp h.2.1

theorem dfs_eq (s : Scope) : s.dfs = s :: dfsAll s.scopes := by
  have ⟨d, is, ss⟩ := s
  rw [dfs, scopes_mk]
  split
  case isTrue h  => rw [show ss = [] from isTogglePair_scopes h, dfsAll]
  case isFalse h => rfl

end Api.Scope

namespace Walk

open Api.Scope (dfsAll dfs_eq)

-- What a visit keeps of a scope.
def kept (s : Api.Scope) : Api.ScopeData × List Api.CoverIndex :=
  (s.data, s.coverItems)

def Visited.kept (v : Visited) : Api.ScopeData × List Api.CoverIndex :=
  (v.data, v.coverItems)

mutual

theorem kept_visit (seen : List Visited) (parent : Option String) :
    (s : Api.Scope) → (visit seen parent s).map Visited.kept = seen.map Visited.kept ++ s.dfs.map kept
  | .mk d is ss => by
    rw [visit, kept_visitAll, dfs_eq, List.map_append, List.append_assoc]
    rfl

theorem kept_visitAll (seen : List Visited) (parent : Option String) :
    (ss : List Api.Scope) →
      (visitAll seen parent ss).map Visited.kept = seen.map Visited.kept ++ (dfsAll ss).map kept
  | []      => by rw [visitAll, dfsAll, List.map_nil, List.append_nil]
  | s :: ss => by
    rw [visitAll, kept_visitAll, kept_visit, dfsAll, List.map_append, List.append_assoc]

end

mutual

theorem uids_visit {seen : List Visited} (h : (seen.map (·.uid)).Nodup) (parent : Option String) :
    (s : Api.Scope) → ((visit seen parent s).map (·.uid)).Nodup
  | .mk d is ss => by
    rw [visit]
    refine uids_visitAll ?_ _ ss
    rw [List.map_append]
    refine List.nodup_append.mpr ⟨h, List.nodup_singleton _, fun uid hm uid' hm' he => ?_⟩
    exact allocateUid_not_mem _ _ (List.mem_singleton.mp hm' ▸ he ▸ hm)

theorem uids_visitAll {seen : List Visited} (h : (seen.map (·.uid)).Nodup) (parent : Option String) :
    (ss : List Api.Scope) → ((visitAll seen parent ss).map (·.uid)).Nodup
  | []      => h
  | s :: ss => uids_visitAll (uids_visit h parent s) parent ss

end

theorem kept_visited (db : Api.UCIS) : (visited db).map Visited.kept = db.dfsScopeList.map kept :=
  kept_visitAll [] none db.scopes

theorem uids_visited (db : Api.UCIS) : ((visited db).map (·.uid)).Nodup := by
  have h : (([] : List Visited).map (·.uid)).Nodup := List.nodup_nil
  exact uids_visitAll h none db.scopes

end Walk

-- A database in memory, as the object API shows it.

namespace Scope

variable (links : Nat → ScopeLinks) (sn : ScopeNames) (n : Nat)

theorem data_api (s : Scope) : (s.api links sn n).data = s.data.api s.coverItems (links n) sn n := by
  cases s; rw [api]; rfl

theorem coverItems_api (s : Scope) :
    (s.api links sn n).coverItems = s.coverItems.mapIdx fun i ci => ci.api ((links n).items i) := by
  cases s; rw [api]; rfl

theorem scopes_api (s : Scope) : (s.api links sn n).scopes = apiAll links sn (n + 1) s.scopes := by
  cases s; rw [api]; rfl

mutual

theorem dfs_api (n : Nat) : (s : Scope) → (s.api links sn n).dfs
    = s.dfs.mapIdx fun i s => s.api links sn (n + i)
  | mk d is ss => by
    rw [Api.Scope.dfs_eq, dfs_eq, scopes_api, scopes_mk, dfsAll_apiAll, List.mapIdx_cons]
    simp only [Nat.add_zero, Nat.add_assoc, Nat.add_comm 1]

theorem dfsAll_apiAll (n : Nat) : (ss : List Scope) → Api.Scope.dfsAll (apiAll links sn n ss)
    = (dfsAll ss).mapIdx fun i s => s.api links sn (n + i)
  | []      => by rw [apiAll, Api.Scope.dfsAll, dfsAll, List.mapIdx_nil]
  | s :: ss => by
    rw [apiAll, Api.Scope.dfsAll, dfs_api, dfsAll_apiAll, dfsAll, List.mapIdx_append]
    simp only [Nat.add_assoc, Nat.add_comm s.dfs.length]

end

theorem binNames_map_api (s : Scope) :
    (s.api links sn n).coverItems.map (·.name) = (s.coverItems.map (·.name)).map some := by
  rw [coverItems_api]
  exact List.ext_getElem? fun i => by simp [CoverIndex.api, Function.comp_def]

theorem isTogglePair_api (s : Scope) : (s.api links sn n).isTogglePair = s.isTogglePair := by
  have hscopes : (s.api links sn n).scopes.isEmpty ↔ s.scopes = [] := by
    rw [scopes_api]
    cases s.scopes <;> simp [apiAll]
  have hinj : Function.Injective (List.map (some : String → Option String)) :=
    List.map_injective_iff.mpr (Option.some_injective String)
  have hnames : ∀ names : List String, (s.api links sn n).coverItems.map (·.name) = names.map some ↔
      s.coverItems.map (·.name) = names := fun names => by
    rw [binNames_map_api, hinj.eq_iff]
  have hforward := hnames [toggleBin0To1, toggleBin1To0]
  have hreversed := hnames [toggleBin1To0, toggleBin0To1]
  refine decide_eq_decide.mpr ?_
  rw [hscopes, data_api]
  exact and_congr_right' (and_congr_right' (or_congr hforward hreversed))

theorem binNames_api (s : Scope) : (s.api links sn n).binNames = s.binNames.map some := by
  rw [Api.Scope.binNames, isTogglePair_api, binNames]
  split
  case isTrue  => rfl
  case isFalse => exact binNames_map_api ..

end Scope

namespace LinkedUCIS

variable (db : LinkedUCIS)

theorem dfsScopeList_api : db.api.dfsScopeList
    = db.dfsScopeList.mapIdx fun n s => s.api db.links db.names n := by
  have h := Scope.dfsAll_apiAll db.links db.names 0 db.scopes
  simp only [Nat.zero_add] at h
  exact h

end LinkedUCIS

-- A run that was written, read on its own: the tables are those of the walk.

-- The tables that were checked are those that would have been written.

theorem checkTable_ok {α : Type} [DecidableEq α] {name : String} {stored : Option (List α)}
    {table : List α} {u : Unit} (h : ParquetWriter.checkTable name stored table = .ok u) :
    stored.getD [] = table := by
  cases stored
  case none =>
    rw [ParquetWriter.checkTable] at h
    split at h
    case isTrue ht  => exact (List.isEmpty_iff.mp ht).symm
    case isFalse ht => cases h
  case some stored =>
    rw [ParquetWriter.checkTable] at h
    split at h
    case isTrue ht  => exact ht
    case isFalse ht => cases h

theorem checkDefinitions_ok {ds : Dataset} {defs : Definitions} {u : Unit}
    (h : ParquetWriter.checkDefinitions ds defs = .ok u) : ds.definitions.getD {} = defs := by
  have ⟨_, hs, h⟩ := bind_ok_iff.mp h
  have ⟨_, hc, h⟩ := bind_ok_iff.mp h
  have ⟨_, ho, h⟩ := bind_ok_iff.mp h
  have ⟨_, hp, hf⟩ := bind_ok_iff.mp h
  have hs := checkTable_ok hs
  have hc := checkTable_ok hc
  have ho := checkTable_ok ho
  have hp := checkTable_ok hp
  have hf := checkTable_ok hf
  have ⟨scopes, coveritems, crossOperands, properties, sourceFiles⟩ := defs
  cases hd : ds.definitions
  all_goals
    rw [hd] at hs hc ho hp hf
    cases hs
    cases hc
    cases ho
    cases hp
    cases hf
    rfl

theorem definitions_writeDefinitions {ds ds' : Dataset} {defs : Definitions} {allowExisting : Bool}
    (h : ParquetWriter.writeDefinitions ds defs allowExisting = .ok ds') :
    ds'.definitions.getD {} = defs := by
  rw [ParquetWriter.writeDefinitions] at h
  split at h
  case isTrue =>
    obtain ⟨_, hc, h⟩ := bind_ok_iff.mp h
    cases h
    exact checkDefinitions_ok hc
  case isFalse =>
    cases h
    rfl

theorem definitions_write {ds ds' : Dataset} {db : Api.UCIS} {runId : Option String} {replaceRun : Bool}
    {written : String} (h : ParquetWriter.write ds db runId replaceRun = .ok (written, ds')) :
    ds'.definitions.getD {} = Walk.definitions (Walk.visited db) := by
  rw [ParquetWriter.write] at h
  simp only [bind, Except.bind, pure, Except.pure, throw, throwThe, MonadExceptOf.throw] at h
  split at h
  case isTrue => cases h
  case isFalse =>
    split at h
    case h_1 => cases h
    case h_2 hd =>
      have hd := definitions_writeDefinitions hd
      cases h
      exact hd

-- A dataset of which one run is read, and the database this run is.
structure Holds (d : ParquetDataset) (db : Api.UCIS) (runId : String) : Prop where
  defs      : d.defs = Walk.definitions (Walk.visited db)
  selection : d.selection = [runId]
  run       : d.dataset.runs.get? runId = some (Walk.measures db runId)

theorem holds_write {ds ds' : Dataset} {db : Api.UCIS} {runId : Option String} {replaceRun : Bool}
    {written : String} (h : ParquetWriter.write ds db runId replaceRun = .ok (written, ds')) :
    Holds ⟨ds', [written]⟩ db written where
  defs      := definitions_write h
  selection := rfl
  run       := by rw [Dataset.write_ok h, Dict.get?_set_self]

namespace Walk

-- The items by scope and position.

def itemKeys (vs : List Visited) : List (String × Nat) :=
  vs.flatMap fun v => (List.range v.coverItems.length).map (v.uid, ·)

theorem items_fst (vs : List Visited) : (items vs).map Prod.fst = itemKeys vs := by
  rw [items, itemKeys, List.map_flatMap]
  refine List.flatMap_congr fun v _ => List.ext_getElem? fun i => ?_
  by_cases hi : i < v.coverItems.length <;> simp [hi]

theorem itemKeys_pairwise {vs : List Visited} (hn : (vs.map (·.uid)).Nodup) :
    (itemKeys vs).Pairwise fun a b => a.fst = b.fst → a.snd < b.snd := by
  refine List.pairwise_flatMap.mpr ⟨fun v _ => ?_, ?_⟩
  · refine List.pairwise_map.mpr <| List.pairwise_lt_range.imp fun h _ => by exact h
  · refine (List.pairwise_map.mp hn).imp fun hne a ha b hb he => absurd he ?_
    have ⟨_, _, ha⟩ := List.mem_map.mp ha
    have ⟨_, _, hb⟩ := List.mem_map.mp hb
    rw [← ha, ← hb]
    exact hne

theorem itemKeys_nodup {vs : List Visited} (hn : (vs.map (·.uid)).Nodup) : (itemKeys vs).Nodup :=
  (itemKeys_pairwise hn).imp fun {a b} h he => by
    rw [he] at h
    exact Nat.lt_irrefl _ (h rfl)

theorem coveritemIds_get? {vs : List Visited} (hn : (vs.map (·.uid)).Nodup) {key : String × Nat} {id : Nat} :
    (coveritemIds vs).get? key = some id ↔ (itemKeys vs)[id]? = some key := by
  rw [coveritemIds, items_fst, Dict.get?_ofList_zipIdx (itemKeys_nodup hn)]

end Walk

namespace Holds

variable {d : ParquetDataset} {db : Api.UCIS} {runId : String} (h : Holds d db runId)

include h

theorem scopeRows : d.scopeRows = (Walk.visited db).mapIdx (Walk.scopeRow (Walk.visited db)) := by
  rw [ParquetDataset.scopeRows, h.defs]
  refine List.Pairwise.insertionSort_eq <| List.pairwise_iff_getElem.mpr fun i j hi hj hij => ?_
  simp only [Walk.definitions, List.getElem_mapIdx, Walk.scopeRow]
  exact Nat.le_of_lt hij

-- The rows of the items, by scope and position.
theorem coveritemKeys : d.defs.coveritems.map (fun row => (row.scopeId, row.localIndex))
    = Walk.itemKeys (Walk.visited db) := by
  rw [h.defs, ← Walk.items_fst]
  exact List.ext_getElem? fun i => by simp [Walk.definitions, Walk.coveritemRow, Function.comp_def]

theorem coveritemsOf (scopeId : String) :
    d.coveritemsOf scopeId = d.defs.coveritems.filter (·.scopeId = scopeId) := by
  have hp := Walk.itemKeys_pairwise (Walk.uids_visited db)
  rw [← h.coveritemKeys, List.pairwise_map] at hp
  refine List.Pairwise.insertionSort_eq <| (hp.filter _).imp_of_mem fun ha hb hab => ?_
  have ha := of_decide_eq_true (List.mem_filter.mp ha).2
  have hb := of_decide_eq_true (List.mem_filter.mp hb).2
  exact Nat.le_of_lt (hab (ha.trans hb.symm))

-- Read scope by scope, the items come in the order of their ids.
theorem coveritems : ((Walk.visited db).flatMap fun v => d.coveritemsOf v.uid) = d.defs.coveritems := by
  simp only [h.coveritemsOf]
  refine flatMap_filter_of_blocks (n := fun v => v.coverItems.length) (Walk.uids_visited db) ?_
  have hk := congrArg (List.map Prod.fst) h.coveritemKeys
  rw [List.map_map] at hk
  refine hk.trans ?_
  rw [Walk.itemKeys, List.map_flatMap]
  exact List.flatMap_congr fun v _ => by simp [Function.comp_def, List.map_const']

theorem flatCoveritemIds :
    d.flatCoveritemIds = List.range (Walk.itemKeys (Walk.visited db)).length := by
  have hscopes : d.scopeRows.map (·.uniqueId) = (Walk.visited db).map (·.uid) := by
    rw [h.scopeRows]
    exact List.ext_getElem? fun i => by simp [Walk.scopeRow, Function.comp_def]
  have hflat : d.flatCoveritemIds = d.defs.coveritems.map (·.coveritemId) := by
    let ids (uid : String) : List Nat := (d.coveritemsOf uid).map (·.coveritemId)
    calc
      _ = d.scopeRows.flatMap fun row => ids row.uniqueId  := rfl
      _ = (d.scopeRows.map (·.uniqueId)).flatMap ids       := (List.flatMap_map ..).symm
      _ = (Walk.visited db).flatMap fun v => ids v.uid     := by rw [hscopes, List.flatMap_map]
      _ = _                                                := by rw [← List.map_flatMap, h.coveritems]
  have hlength := congrArg List.length h.coveritemKeys
  rw [List.length_map] at hlength
  rw [hflat, ← hlength, h.defs]
  refine List.ext_getElem (by simp) fun i hi hi' => ?_
  simp [Walk.definitions, Walk.coveritemRow]

theorem measurement {α : Type} (table : Measures → List α) :
    d.measurement table = (table (Walk.measures db runId)).map (runId, ·) := by
  rw [ParquetDataset.measurement, h.selection, List.flatMap_singleton, h.run]
  rfl

theorem historyRows : d.historyRows
    = (Walk.historyRows runId (Walk.orderedHistory db)).map (runId, ·) := by
  rw [ParquetDataset.historyRows, h.measurement]
  refine List.Pairwise.insertionSort_eq <| List.pairwise_map.mpr <|
    List.pairwise_iff_getElem.mpr fun i j hi hj hij => .inr ⟨rfl, ?_⟩
  simp only [Walk.measures, Walk.historyRows, List.getElem_mapIdx, Walk.historyRow]
  exact Nat.le_of_lt hij

end Holds
