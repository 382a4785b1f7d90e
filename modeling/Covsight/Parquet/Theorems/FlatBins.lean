import Covsight.Ncdb.DfsUtil
import Covsight.Parquet.Theorems.Tables

-- The flat bin indices: those of the writer go through the names of the bins, those of the reader count
-- the items, and those of a database in memory follow the canonical order.

namespace Scope

def itemNames (s : Scope) : List String :=
  s.coverItems.map (·.name)

-- A toggle pair that was created the other way round.
def isReversedPair (s : Scope) : Bool :=
  s.isTogglePair ∧ s.itemNames = [toggleBin1To0, toggleBin0To1]

-- The items in the order in which the writer finds them.
def nameOrder (s : Scope) : List Nat :=
  s.binNames.map s.itemNames.idxOf

variable {s : Scope}

theorem itemNames_of_isTogglePair (h : s.isTogglePair) : s.itemNames = [toggleBin0To1, toggleBin1To0] ∨
    s.itemNames = [toggleBin1To0, toggleBin0To1] := by
  simp only [isTogglePair, decide_eq_true_eq] at h
  exact h.2.2

theorem length_binNames : s.binNames.length = s.coverItems.length := by
  rw [binNames]
  split
  case isFalse   => exact List.length_map _
  case isTrue hp =>
    have hl : s.itemNames.length = s.coverItems.length := List.length_map _
    rw [← hl]
    cases itemNames_of_isTogglePair hp
    case inl h => rw [h]
    case inr h => rw [h]; rfl

theorem length_binOrder : s.binOrder.length = s.coverItems.length := by
  rw [binOrder]
  split
  case isTrue  => rw [List.length_map, length_binNames]
  case isFalse => exact List.length_range

theorem length_nameOrder : s.nameOrder.length = s.coverItems.length := by
  rw [nameOrder, List.length_map, length_binNames]

theorem binCount_eq : s.binCount = s.coverItems.length := by
  rw [← length_binNames, binCount, binNames]
  split
  case isTrue  => rfl
  case isFalse => exact (List.length_map _).symm

theorem mem_itemNames_of_mem_binNames {name : String} (h : name ∈ s.binNames) : name ∈ s.itemNames := by
  rw [binNames] at h
  split at h
  case isFalse   => exact h
  case isTrue hp =>
    cases itemNames_of_isTogglePair hp
    case inl hn => exact hn ▸ h
    case inr hn => simp only [hn, List.mem_cons] at h ⊢; tauto

theorem binOrder_of_reversed (h : s.isReversedPair) : s.binOrder = [1, 0] := by
  have ⟨hp, hn⟩ := of_decide_eq_true h
  have ho : s.binOrder = s.binNames.map s.itemNames.idxOf := if_pos hp
  rw [ho, binNames, if_pos hp, hn]
  decide

theorem binOrder_of_not_reversed (h : ¬s.isReversedPair) : s.binOrder = List.range s.coverItems.length := by
  by_cases hp : s.isTogglePair
  case neg => exact if_neg hp
  case pos =>
    have hn := (itemNames_of_isTogglePair hp).resolve_right fun hn => h (decide_eq_true ⟨hp, hn⟩)
    have ho : s.binOrder = s.binNames.map s.itemNames.idxOf := if_pos hp
    have hl : s.itemNames.length = s.coverItems.length := List.length_map _
    rw [ho, ← hl, binNames, if_pos hp, hn]
    decide

theorem length_of_reversed (h : s.isReversedPair) : s.coverItems.length = 2 := by
  rw [← length_binOrder, binOrder_of_reversed h]
  rfl

end Scope

-- The first positions of the elements of a list are all the positions where no element repeats.
theorem map_idxOf_eq_range_iff {α : Type} [BEq α] [LawfulBEq α] {xs : List α} :
    xs.map xs.idxOf = List.range xs.length ↔ xs.Nodup := by
  constructor
  case mp =>
    intro h
    have hn : (xs.map xs.idxOf).Nodup := h ▸ List.nodup_range
    exact hn.of_map
  case mpr =>
    intro h
    exact List.ext_getElem (by simp) fun i hi hi' => by simp [h.idxOf_getElem]

theorem Scope.nameOrder_eq_iff {s : Scope} :
    s.nameOrder = s.binOrder ↔ (¬s.isTogglePair → s.itemNames.Nodup) := by
  by_cases hp : s.isTogglePair
  case pos =>
    have ho : s.binOrder = s.nameOrder := if_pos hp
    exact ⟨fun _ h => absurd hp h, fun _ => ho.symm⟩
  case neg =>
    have ho : s.binOrder = List.range s.coverItems.length := if_neg hp
    have hb : s.binNames = s.itemNames := if_neg hp
    have hl : s.itemNames.length = s.coverItems.length := List.length_map _
    rw [nameOrder, hb, ho, ← hl, map_idxOf_eq_range_iff]
    exact ⟨fun h _ => h, fun h => h hp⟩

namespace LinkedUCIS

open Walk (visited uidOf kept Visited.kept itemKeys)

variable (db : LinkedUCIS)

-- The scopes that are visited, by position.
theorem visited_getElem? (n : Nat) : (visited db.api)[n]?.map Visited.kept
    = db.dfsScopeList[n]?.map fun s => kept (s.api db.links db.names n) := by
  have h := congrArg (·[n]?) (Walk.kept_visited db.api)
  rw [dfsScopeList_api] at h
  simp only [List.getElem?_map, List.getElem?_mapIdx, Option.map_map] at h
  exact h

variable {db} in
theorem handle_of_visited {n : Nat} {v : Visited} (h : (visited db.api)[n]? = some v) : v.data.handle = n := by
  have hv := db.visited_getElem? n
  rw [h, Option.map_some] at hv
  have ⟨s, _, hs⟩ := Option.map_eq_some_iff.mp hv.symm
  have hd : (s.api db.links db.names n).data = v.data := congrArg Prod.fst hs
  rw [← hd, Scope.data_api]
  rfl

variable {db} in
theorem names_of_visited {n : Nat} {v : Visited} {s : Scope} (h : (visited db.api)[n]? = some v)
    (hs : db.dfsScopeList[n]? = some s) : v.coverItems.length = s.coverItems.length := by
  have hv := db.visited_getElem? n
  rw [h, hs] at hv
  have hi : v.coverItems = (s.api db.links db.names n).coverItems := congrArg Prod.snd (Option.some.inj hv)
  rw [hi, Scope.coverItems_api, List.length_mapIdx]

theorem handles_visited : (visited db.api).map (·.data.handle) = List.range (visited db.api).length := by
  refine List.ext_getElem (by simp) fun n hn hn' => ?_
  rw [List.length_map] at hn
  rw [List.getElem_map, List.getElem_range]
  exact handle_of_visited (List.getElem?_eq_getElem hn)

-- A scope is known to the writer by its position.
theorem uidOf_visited (n : Nat) : uidOf (visited db.api) n = (visited db.api)[n]?.map (·.uid) := by
  have hn : (((visited db.api).map fun v => (v.data.handle, v.uid)).map Prod.fst).Nodup := by
    rw [List.map_map]
    exact (db.handles_visited ▸ List.nodup_range : ((visited db.api).map (·.data.handle)).Nodup)
  ext uid
  rw [uidOf, Walk.scopeByObj, Dict.get?_ofList_of_nodup hn, List.mem_map, Option.map_eq_some_iff]
  constructor
  case mp =>
    intro ⟨v, hm, he⟩
    have ⟨i, hv⟩ := List.mem_iff_getElem?.mp hm
    have hi : i = n := (handle_of_visited hv).symm.trans (congrArg Prod.fst he)
    exact ⟨v, hi ▸ hv, congrArg Prod.snd he⟩
  case mpr =>
    intro ⟨v, hv, he⟩
    exact ⟨v, List.mem_of_getElem? hv, by rw [handle_of_visited hv, he]⟩

-- Positions of items.

theorem lengths_visited : (visited db.api).map (·.coverItems.length) = db.dfsScopeList.map (·.binCount) := by
  refine List.ext_getElem? fun n => ?_
  have hv := db.visited_getElem? n
  rw [List.getElem?_map, List.getElem?_map]
  cases hs : db.dfsScopeList[n]?
  case none =>
    rw [hs, Option.map_none] at hv
    rw [Option.map_eq_none_iff.mp hv]
    rfl
  case some s =>
    rw [hs, Option.map_some] at hv
    have ⟨v, hv, _⟩ := Option.map_eq_some_iff.mp hv
    rw [hv, Option.map_some, Option.map_some, names_of_visited hv hs, Scope.binCount_eq]

-- Blocks of bins start where the canonical order has their scope.
theorem blockBase_eq_scopeBinBase {α : Type} {xss : List (List α)}
    (h : xss.map List.length = db.dfsScopeList.map (·.binCount)) (n : Nat) :
    blockBase xss n = db.scopeBinBase n := by
  rw [blockBase, List.map_take, h, MemUCIS.scopeBinBase, List.map_take]

theorem itemKeys_getElem? {n j : Nat} {v : Visited} (hv : (visited db.api)[n]? = some v)
    (hj : j < v.coverItems.length) :
    (itemKeys (visited db.api))[db.scopeBinBase n + j]? = some (v.uid, j) := by
  let xss := (visited db.api).map fun v => (List.range v.coverItems.length).map (v.uid, ·)
  have hl : xss.map List.length = db.dfsScopeList.map (·.binCount) := by
    rw [← lengths_visited, List.map_map]
    exact List.map_congr_left fun v _ => by simp
  have hn : xss[n]? = some ((List.range v.coverItems.length).map (v.uid, ·)) := by
    rw [List.getElem?_map, hv, Option.map_some]
  have hk : itemKeys (visited db.api) = xss.flatten := List.flatMap_def ..
  rw [hk, ← db.blockBase_eq_scopeBinBase hl, getElem?_flatten_blockBase hn (by simpa using hj)]
  simp [hj]

theorem coveritemIds_visited {n j : Nat} {v : Visited} (hv : (visited db.api)[n]? = some v)
    (hj : j < v.coverItems.length) :
    (Walk.coveritemIds (visited db.api)).get? (v.uid, j) = some (db.scopeBinBase n + j) :=
  (Walk.coveritemIds_get? (Walk.uids_visited db.api)).mpr (db.itemKeys_getElem? hv hj)

-- Ids of items in an order of the items of each scope.
def orderedIds (order : Scope → List Nat) : List Nat :=
  (db.dfsScopeList.mapIdx fun n s => (order s).map (db.scopeBinBase n + ·)).flatten

theorem findIdx?_name {s : Scope} {n : Nat} {name : String} (h : name ∈ s.itemNames) :
    (s.api db.links db.names n).coverItems.findIdx? (·.name = some name) = some (s.itemNames.idxOf name) := by
  have hnames : (s.api db.links db.names n).coverItems.map (·.name) = s.itemNames.map some :=
    Scope.binNames_map_api ..
  calc
    _ = ((s.api db.links db.names n).coverItems.map (·.name)).findIdx? (· = some name) := by
      rw [List.findIdx?_map]; rfl
    _ = s.itemNames.findIdx? (some · = some name) := by
      rw [hnames, List.findIdx?_map]; rfl
    _ = s.itemNames.findIdx? (· == name) :=
      congrArg (List.findIdx? · s.itemNames) <| funext fun x => Bool.eq_iff_iff.mpr (by simp)
    _ = _ :=
      List.findIdx?_eq_some_iff_findIdx_eq.mpr ⟨List.idxOf_lt_length_of_mem h, rfl⟩

-- What the writer takes for the ids.
theorem flatCoveritemIds_eq : Walk.flatCoveritemIds db.api (visited db.api) = db.orderedIds Scope.nameOrder := by
  rw [Walk.flatCoveritemIds, dfsScopeList_api, orderedIds, List.flatMap_def]
  refine congrArg List.flatten <| List.ext_getElem? fun n => ?_
  rw [List.getElem?_map, List.getElem?_mapIdx, List.getElem?_mapIdx]
  cases hs : db.dfsScopeList[n]?
  case none => rfl
  case some s =>
    have hv := db.visited_getElem? n
    rw [hs, Option.map_some] at hv
    have ⟨v, hv, _⟩ := Option.map_eq_some_iff.mp hv
    have hh : (s.api db.links db.names n).data.handle = n := by rw [Scope.data_api]; rfl
    rw [Option.map_some, Option.map_some, Option.map_some, hh, uidOf_visited, hv, Option.map_some, Scope.binNames_api]
    refine congrArg some ?_
    have hid : ∀ name ∈ s.binNames, ∀ position,
        (Walk.coveritemIds (visited db.api)).get? (v.uid, ((s.api db.links db.names n).coverItems.findIdx?
          (·.name = some name)).getD position) = some (db.scopeBinBase n + s.itemNames.idxOf name) := by
      intro name hm position
      have hm := Scope.mem_itemNames_of_mem_binNames hm
      have hl : s.itemNames.length = s.coverItems.length := List.length_map _
      have hi := List.idxOf_lt_length_of_mem hm
      rw [findIdx?_name db hm, Option.getD_some]
      refine db.coveritemIds_visited hv ?_
      rw [names_of_visited hv hs, ← hl]
      exact hi
    rw [List.zipIdx_map]
    dsimp only
    rw [List.filterMap_map]
    calc
      _ = s.binNames.zipIdx.filterMap fun x => some (db.scopeBinBase n + s.itemNames.idxOf x.fst) :=
        List.filterMap_congr fun x hx => hid x.fst (List.fst_mem_of_mem_zipIdx hx) x.snd
      _ = _ := by
        rw [List.filterMap_eq_map', Scope.nameOrder, List.map_map]
        have hz := congrArg (List.map fun name => db.scopeBinBase n + s.itemNames.idxOf name)
          (List.zipIdx_map_fst 0 s.binNames)
        rw [List.map_map] at hz
        exact hz

section Order

variable {db} {order order' : Scope → List Nat} {n j : Nat} {s : Scope}

theorem length_blocks (h : ∀ s, (order s).length = s.coverItems.length) :
    (db.dfsScopeList.mapIdx fun n s => (order s).map (db.scopeBinBase n + ·)).map List.length
      = db.dfsScopeList.map (·.binCount) := by
  refine List.ext_getElem? fun n => ?_
  rw [List.getElem?_map, List.getElem?_mapIdx, List.getElem?_map]
  cases db.dfsScopeList[n]?
  case none   => rfl
  case some s => simp [h, Scope.binCount_eq]

theorem length_orderedIds (h : ∀ s, (order s).length = s.coverItems.length) :
    (db.orderedIds order).length = db.totalBinCount := by
  rw [orderedIds, List.length_flatten, length_blocks h]
  rfl

theorem orderedIds_getElem? (h : ∀ s, (order s).length = s.coverItems.length)
    (hs : db.dfsScopeList[n]? = some s) (hj : j < s.coverItems.length) :
    (db.orderedIds order)[db.scopeBinBase n + j]? = (order s)[j]?.map (db.scopeBinBase n + ·) := by
  have hn : (db.dfsScopeList.mapIdx fun n s => (order s).map (db.scopeBinBase n + ·))[n]?
      = some ((order s).map (db.scopeBinBase n + ·)) := by
    rw [List.getElem?_mapIdx, hs, Option.map_some]
  rw [orderedIds, ← db.blockBase_eq_scopeBinBase (length_blocks h),
    getElem?_flatten_blockBase hn (by rw [List.length_map, h]; exact hj), List.getElem?_map,
    db.blockBase_eq_scopeBinBase (length_blocks h)]

-- Every flat index is that of an item of a scope.
theorem exists_bin {i : Nat} (hi : i < db.totalBinCount) :
    ∃ n s j, db.dfsScopeList[n]? = some s ∧ j < s.coverItems.length ∧ i = db.scopeBinBase n + j := by
  have h : ∀ s : Scope, s.binOrder.length = s.coverItems.length := fun _ => Scope.length_binOrder
  rw [← length_orderedIds h, orderedIds] at hi
  have ⟨n, xs, j, hn, hj, he⟩ := exists_blockBase hi
  rw [List.getElem?_mapIdx] at hn
  have ⟨s, hs, hx⟩ := Option.map_eq_some_iff.mp hn
  rw [db.blockBase_eq_scopeBinBase (length_blocks h)] at he
  refine ⟨n, s, j, hs, ?_, he⟩
  rw [← hx, List.length_map, h] at hj
  exact hj

theorem bin_lt (hs : db.dfsScopeList[n]? = some s) (hj : j < s.coverItems.length) :
    db.scopeBinBase n + j < db.totalBinCount := by
  have h : ∀ s : Scope, s.binOrder.length = s.coverItems.length := fun _ => Scope.length_binOrder
  have hg := orderedIds_getElem? h hs hj
  have hb : j < s.binOrder.length := h s ▸ hj
  rw [List.getElem?_eq_getElem hb, Option.map_some] at hg
  rw [← length_orderedIds h]
  exact (List.getElem?_eq_some_iff.mp hg).1

theorem orderedIds_inj (h : ∀ s, (order s).length = s.coverItems.length)
    (h' : ∀ s, (order' s).length = s.coverItems.length) :
    db.orderedIds order = db.orderedIds order' ↔ ∀ s ∈ db.dfsScopeList, order s = order' s := by
  rw [orderedIds, orderedIds, flatten_inj ((length_blocks h).trans (length_blocks h').symm)]
  constructor
  case mp =>
    intro he s hm
    have ⟨n, hs⟩ := List.mem_iff_getElem?.mp hm
    have he := congrArg (·[n]?) he
    simp only [List.getElem?_mapIdx, hs, Option.map_some, Option.some.injEq] at he
    exact List.map_injective_iff.mpr (fun _ _ => Nat.add_left_cancel) he
  case mpr =>
    intro he
    refine List.ext_getElem? fun n => ?_
    rw [List.getElem?_mapIdx, List.getElem?_mapIdx]
    cases hs : db.dfsScopeList[n]?
    case none   => rfl
    case some s => rw [Option.map_some, Option.map_some, he s (List.mem_of_getElem? hs)]

end Order

-- The bins as the canonical order has them, by the position of the item.

def binIds : List Nat :=
  db.orderedIds Scope.binOrder

theorem length_binIds : db.binIds.length = db.totalBinCount :=
  length_orderedIds fun _ => Scope.length_binOrder

theorem map_iterFlatBins : (db.iterFlatBins.map fun (n, i) =>
    (visited db.api)[n]?.bind fun v => (Walk.coveritemIds (visited db.api)).get? (v.uid, i))
      = db.binIds.map some := by
  rw [MemUCIS.iterFlatBins, binIds, orderedIds, List.map_flatten, List.map_flatten]
  refine congrArg List.flatten <| List.ext_getElem? fun n => ?_
  simp only [List.getElem?_map, List.getElem?_mapIdx, Option.map_map]
  cases hs : db.dfsScopeList[n]?
  case none => rfl
  case some s =>
    have hv := db.visited_getElem? n
    rw [hs, Option.map_some] at hv
    have ⟨v, hv, _⟩ := Option.map_eq_some_iff.mp hv
    have hb : ∀ i ∈ s.binOrder, i < v.coverItems.length := by
      intro i hi
      rw [names_of_visited hv hs]
      by_cases hp : s.isReversedPair
      case pos =>
        rw [Scope.binOrder_of_reversed hp] at hi
        have hl := Scope.length_of_reversed hp
        simp only [List.mem_cons, List.not_mem_nil, or_false] at hi
        omega
      case neg =>
        rw [Scope.binOrder_of_not_reversed hp] at hi
        exact List.mem_range.mp hi
    simp only [Option.map_some, Function.comp_apply, List.map_map]
    refine congrArg some <| List.map_congr_left fun i hi => ?_
    simp only [Function.comp_apply, hv, Option.bind_some]
    exact db.coveritemIds_visited hv (hb i hi)

-- A flat index at which a toggle pair starts that was created the other way round.
def ReversedAt (k : Nat) : Prop :=
  ∃ n s, db.dfsScopeList[n]? = some s ∧ s.isReversedPair ∧ k = db.scopeBinBase n

variable {db}

theorem ReversedAt.swap {k : Nat} (h : db.ReversedAt k) :
    k + 1 < db.totalBinCount ∧ db.binIds[k]? = some (k + 1) ∧ db.binIds[k + 1]? = some k := by
  have ⟨n, s, hs, hp, hk⟩ := h
  have hl := Scope.length_of_reversed hp
  have ho := Scope.binOrder_of_reversed hp
  have hlength : ∀ s : Scope, s.binOrder.length = s.coverItems.length := fun _ => Scope.length_binOrder
  have h0 := orderedIds_getElem? (j := 0) hlength hs (by omega)
  have h1 := orderedIds_getElem? (j := 1) hlength hs (by omega)
  rw [ho] at h0 h1
  rw [hk]
  exact ⟨bin_lt hs (by omega), h0, h1⟩

-- The bins of a reversed pair change places; every other bin is where it is.
theorem exists_binIds {i : Nat} (hi : i < db.totalBinCount) : ∃ j < db.totalBinCount,
    db.binIds[i]? = some j ∧ db.binIds[j]? = some i ∧
      (j = i ∨ ∃ k, db.ReversedAt k ∧ (i = k ∧ j = k + 1 ∨ i = k + 1 ∧ j = k)) := by
  have ⟨n, s, j, hs, hj, he⟩ := exists_bin hi
  by_cases hp : s.isReversedPair
  case pos =>
    have hr : db.ReversedAt (db.scopeBinBase n) := ⟨n, s, hs, hp, rfl⟩
    have ⟨hlt, h0, h1⟩ := hr.swap
    have hl := Scope.length_of_reversed hp
    obtain rfl | rfl : j = 0 ∨ j = 1 := by omega
    · exact ⟨_, hlt, he ▸ h0, he ▸ h1, .inr ⟨_, hr, .inl ⟨he, rfl⟩⟩⟩
    · exact ⟨_, Nat.lt_of_succ_lt hlt, he ▸ h1, he ▸ h0, .inr ⟨_, hr, .inr ⟨he, rfl⟩⟩⟩
  case neg =>
    have hlength : ∀ s : Scope, s.binOrder.length = s.coverItems.length := fun _ => Scope.length_binOrder
    have hg := orderedIds_getElem? hlength hs hj
    rw [Scope.binOrder_of_not_reversed hp, List.getElem?_range hj, Option.map_some, ← he] at hg
    exact ⟨i, hi, hg, hg, .inl rfl⟩

theorem binIds_nodup : db.binIds.Nodup := by
  rw [List.nodup_iff_getElem?_ne_getElem?]
  intro i i' hlt hl he
  rw [length_binIds] at hl
  have ⟨j, _, hj, hj', _⟩ := exists_binIds (Nat.lt_trans hlt hl)
  have ⟨l, _, hl, hl', _⟩ := exists_binIds hl
  rw [hj, hl] at he
  cases he
  rw [hj'] at hl'
  exact absurd (Option.some.inj hl') (Nat.ne_of_lt hlt)

end LinkedUCIS
