import Covsight.Ncdb.Theorems.WriteRead

-- What the tables that are keyed by items say, by the place of the item.

namespace MemUCIS

-- The items in creation order, each with its scope.
def scopedItems (db : MemUCIS) : List (Scope × CoverIndex) :=
  db.dfsScopeList.flatMap fun s => s.coverItems.map (s, ·)

theorem scopedItems_snd (db : MemUCIS) : db.scopedItems.map Prod.snd = db.coverItems := by
  rw [scopedItems, coverItems, List.map_flatMap]
  exact List.flatMap_congr fun s _ => by simp

variable {db : MemUCIS} {n i j : Nat} {s : Scope} {ci : CoverIndex}

-- The item that was created at the place of a bin. It is the item of the bin but in a toggle pair
-- that was created the other way round.
theorem scopedItem_of_placed (h : db.placedBins[n]? = some (s, i, j, ci)) :
    ∃ ci', s.coverItems[j]? = some ci' ∧ db.scopedItems[n]? = some (s, ci') := by
  obtain ⟨created, hc⟩ : ∃ created, created
      = (db.dfsScopeList.mapIdx fun i s => s.coverItems.mapIdx fun j ci => (s, i, j, ci)).flatten :=
    ⟨_, rfl⟩
  have hplaces : created.map (fun x => (x.fst, x.snd.fst, x.snd.snd.fst))
      = db.placedBins.map fun x => (x.fst, x.snd.fst, x.snd.snd.fst) := by
    rw [hc, placedBins, List.map_flatten, List.map_flatten, map_mapIdx, map_mapIdx]
    refine congrArg List.flatten <| List.mapIdx_eq_mapIdx_iff.mpr fun i hi => ?_
    rw [map_mapIdx, map_mapIdx]
    apply List.ext_getElem
    · simp [Scope.length_binItems]
    · simp
  have hn := congrArg (·[n]?) hplaces
  simp only [List.getElem?_map, h, Option.map_some, Option.map_eq_some_iff, Prod.mk.injEq,
    Prod.exists] at hn
  have ⟨s', i', j', ci', hn, hs, hi, hj⟩ := hn
  have hitems : created.map (fun x => (x.fst, x.snd.snd.snd)) = db.scopedItems := by
    rw [hc, scopedItems, List.map_flatten, map_mapIdx, List.flatMap_def]
    simp only [map_mapIdx, mapIdx_const]
  refine ⟨ci', ?_, ?_⟩
  · have hm := List.mem_of_getElem? hn
    rw [hc] at hm
    simp only [List.mem_flatten, List.mem_mapIdx] at hm
    have ⟨_, ⟨_, _, he⟩, hm⟩ := hm
    rw [← he] at hm
    have ⟨_, hj', he⟩ := List.mem_mapIdx.mp hm
    cases he
    rw [← hs, ← hj]
    exact List.getElem?_eq_getElem hj'
  · rw [← hitems, List.getElem?_map, hn, ← hs]
    rfl

theorem coverItem_of_placed (h : db.placedBins[n]? = some (s, i, j, ci)) :
    ∃ ci', s.coverItems[j]? = some ci' ∧ db.coverItems[n]? = some ci' := by
  have ⟨ci', hj, hn⟩ := scopedItem_of_placed h
  refine ⟨ci', hj, ?_⟩
  rw [← scopedItems_snd, List.getElem?_map, hn]
  rfl

end MemUCIS

theorem getD_ofEntries {κ α : Type*} [DecidableEq κ] (entries : List (κ × α)) :
    (if entries.isEmpty then none else some (Dict.ofList entries)).getD ∅ = Dict.ofList entries := by
  cases entries <;> rfl

theorem CoveritemFlags.get?_write (db : MemUCIS) (n : Nat) :
    ((write db).getD ∅).get? n = db.coverItems[n]?.bind fun ci =>
      if ci.data.flags = defaultFlags ci.data.type then none else some ci.data.flags := by
  rw [← Dict.get?_ofList_atPositions, write, getD_ofEntries]
  refine congrArg (fun es => (Dict.ofList es).get? n) ?_
  refine List.filterMap_congr fun x _ => ?_
  split
  split <;> simp [*]

-- The entries for items outside of toggle pairs.
namespace CoveritemSources

def looseSource : Scope × CoverIndex → Option SourceInfo
  | (s, ci) => if s.isTogglePair then none else ci.storedSource

end CoveritemSources

-- The runs of items with the same values.
namespace CoveritemTypes

-- What an item needs an entry for.
def lostValues : Scope × CoverIndex → Option ItemValues
  | (s, ci) =>
    if s.isTogglePair then none
    else if some ci.data.values = rebuilt s.coverItems then none
    else some ci.data.values

theorem entriesFrom_eq (ss : List Scope) (k : Nat) :
    entriesFrom k ss = ((ss.flatMap fun s => s.coverItems.map (s, ·)).zipIdx k).filterMap
      fun (x, n) => (lostValues x).map (n, ·) := by
  induction ss generalizing k
  case nil => rfl
  case cons s ss hi =>
    rw [entriesFrom, hi, List.flatMap_cons, List.zipIdx_append, List.filterMap_append,
      List.length_map, List.zipIdx_map, List.filterMap_map]
    refine congrArg (· ++ _) ?_
    split
    case isTrue h  => exact (List.filterMap_eq_nil_iff.mpr fun x _ => by simp [lostValues, h]).symm
    case isFalse h =>
      refine List.filterMap_congr fun x _ => ?_
      simp only [Function.comp_apply, lostValues, Prod.map_fst, Prod.map_snd, id, h]
      split <;> simp [*]

-- The items that runs stand for, each with its values.
def expand (runs : CoveritemTypes) : List (Nat × ItemValues) :=
  runs.flatMap fun run => (List.range' run.start run.length).map (·, run.values)

theorem expand_append (runs runs' : CoveritemTypes) :
    expand (runs ++ runs') = expand runs ++ expand runs' :=
  List.flatMap_append

theorem expand_push (runs : List TypeRun) (e : Nat × ItemValues) :
    expand (push runs e).reverse = expand runs.reverse ++ [e] := by
  have ⟨n, values⟩ := e
  cases runs
  case nil => rfl
  case cons last runs =>
    rw [push]
    split
    case isTrue h  =>
      rw [List.reverse_cons, List.reverse_cons, expand_append, expand_append, List.append_assoc]
      refine congrArg (expand runs.reverse ++ ·) ?_
      simp [expand, List.range'_concat, h.1, h.2]
    case isFalse h =>
      rw [List.reverse_cons, expand_append]
      rfl

theorem push_length_pos {runs : List TypeRun} (h : ∀ run ∈ runs, 0 < run.length)
    (e : Nat × ItemValues) : ∀ run ∈ push runs e, 0 < run.length := by
  have ⟨n, values⟩ := e
  cases runs
  case nil => simp [push]
  case cons last runs =>
    rw [push]
    split <;> simp_all

theorem expand_foldl_push (es : List (Nat × ItemValues)) (runs : List TypeRun)
    (h : ∀ run ∈ runs, 0 < run.length) :
    expand (es.foldl push runs).reverse = expand runs.reverse ++ es ∧
      ∀ run ∈ es.foldl push runs, 0 < run.length := by
  induction es generalizing runs
  case nil => exact ⟨(List.append_nil _).symm, h⟩
  case cons e es hi =>
    have ⟨he, hl⟩ := hi (push runs e) (push_length_pos h e)
    refine ⟨?_, hl⟩
    rw [List.foldl_cons, he, expand_push, List.append_assoc]
    rfl

theorem valuesAt_cons (run : TypeRun) (runs : CoveritemTypes) (n : Nat) :
    valuesAt (run :: runs) n = if n < run.start + run.length then
      (if run.start ≤ n then some run.values else none) else runs.valuesAt n := by
  rw [valuesAt, List.find?_cons]
  by_cases h : n < run.start + run.length
  · simp [h]
  · simp [h, valuesAt]

theorem expand_cons (run : TypeRun) (runs : CoveritemTypes) : expand (run :: runs) =
    (List.range' run.start run.length).map (·, run.values) ++ expand runs :=
  List.flatMap_cons

theorem mem_expand_cons {run : TypeRun} {runs : CoveritemTypes} {n : Nat} {values : ItemValues} :
    (n, values) ∈ expand (run :: runs) ↔
      (run.start ≤ n ∧ n < run.start + run.length ∧ run.values = values) ∨ (n, values) ∈ expand runs := by
  rw [expand_cons, List.mem_append]
  refine or_congr_left ?_
  simp [List.mem_range'_1, and_assoc]

-- Looking values up in the runs is looking them up among the items that they stand for.
theorem valuesAt_eq_some_iff {runs : CoveritemTypes} (hl : ∀ run ∈ runs, 0 < run.length)
    (ha : (expand runs).Pairwise (·.fst < ·.fst)) {n : Nat} {values : ItemValues} :
    valuesAt runs n = some values ↔ (n, values) ∈ expand runs := by
  induction runs
  case nil => simp [valuesAt, expand]
  case cons run runs hi =>
    have ⟨_, ha', hlt⟩ := List.pairwise_append.mp <| expand_cons run runs ▸ ha
    have hlast : ∀ m values', (m, values') ∈ expand runs → run.start + run.length ≤ m := by
      intro m values' hm
      have hpos := hl run (.head _)
      have hr : (run.start + (run.length - 1), run.values)
          ∈ (List.range' run.start run.length).map (·, run.values) :=
        List.mem_map_of_mem (f := (·, run.values)) <| List.mem_range'_1.mpr ⟨by omega, by omega⟩
      have := hlt _ hr _ hm
      simp only at this
      omega
    rw [valuesAt_cons, mem_expand_cons, ← hi (fun r hr => hl r (.tail _ hr)) ha']
    split
    case isTrue hn  =>
      have hnone : valuesAt runs n ≠ some values := by
        intro hv
        have := hlast n values <| (hi (fun r hr => hl r (.tail _ hr)) ha').mp hv
        omega
      simp [hn, hnone]
    case isFalse hn => simp [hn]

-- What the stored runs say of an item.
theorem valuesAt_write (db : MemUCIS) (n : Nat) :
    ((write db).getD []).valuesAt n = db.scopedItems[n]?.bind lostValues := by
  have he : entriesFrom 0 db.dfsScopeList = Dict.atPositions lostValues db.scopedItems :=
    entriesFrom_eq ..
  have ⟨hexpand, hl⟩ := expand_foldl_push (entriesFrom 0 db.dfsScopeList) [] (by simp)
  have hw : (write db).getD [] = ((entriesFrom 0 db.dfsScopeList).foldl push []).reverse := by
    rw [write]
    split
    case isTrue h  => exact (List.isEmpty_iff.mp h).symm
    case isFalse h => rfl
  have hexpand : expand ((write db).getD []) = Dict.atPositions lostValues db.scopedItems := by
    rw [hw, hexpand, he]
    rfl
  ext values
  rw [valuesAt_eq_some_iff, hexpand, Dict.mem_atPositions_iff, Option.bind_eq_some_iff]
  · rw [hw]
    exact fun run hm => hl run (List.mem_reverse.mp hm)
  · rw [hexpand]
    exact Dict.atPositions_pairwise ..

end CoveritemTypes
