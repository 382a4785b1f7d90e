import Covsight.Ncdb.Theorems.LazyUCIS
import Covsight.Ncdb.Theorems.MergeHistory

-- Opening an archive lazily against reading it at once.

namespace LazyUCIS

open NcdbReader MemUCIS

-- The nodes of an archive as the lazy loader creates them, before attributes are set.
def reloadedNodes (a : Archive) : List HistoryNode :=
  a.history.map HistoryNode.reload

-- What the scopes hold once they are loaded.
structure ScopesLoaded (a : Archive) (db : MemUCIS) where
  counts     : Counts
  scopes     : List Scope
  rest       : Counts
  baseline   : a.counts = some counts
  tree       : ScopeTreeReader.readScopes { strings := internAll a.strings, files := a.sources } none []
    a.scopeTree counts = some (scopes, rest)
  items      : db.itemData = (MemUCIS.itemData { scopes := scopes }).mapIdx (loadData a)
  attributes : db.attributeTree = Attrs.applyTree a.attrs (attributeTree { scopes := scopes })
  global     : db.attributes = (∅ : Dict String String).update ((a.attrs.map (·.global)).getD ∅)

-- What the loaded units hold.
structure Loaded (a : Archive) (db : LazyUCIS) : Prop where
  history : db.historyNodes
    = if db.loadedHistory then
        attachAttrs (if db.loadedScopes then a.attrs else none) (reloadedNodes a)
      else
        []
  early   : db.loadedScopes → a.attrs.isSome → db.loadedHistory
  scopes  : db.loadedScopes → Nonempty (ScopesLoaded a db.toMemUCIS)
  fresh   : ¬db.loadedScopes → db.attributes = ∅

variable {a : Archive} {db db' : LazyUCIS}

theorem Loaded.init (a : Archive) : Loaded a {} where
  history := rfl
  early   := nofun
  scopes  := nofun
  fresh _ := rfl

theorem Loaded.ensureHistory (h : Loaded a db) :
    Loaded a (db.ensureHistory a) ∧ (db.ensureHistory a).loadedHistory ∧
      (db.ensureHistory a).loadedScopes = db.loadedScopes := by
  rw [LazyUCIS.ensureHistory]
  split
  case isTrue hl => exact ⟨h, hl, rfl⟩
  case isFalse hl =>
    refine ⟨⟨?_, fun _ _ => rfl, fun hs => ?_, fun hs => ?_⟩, rfl, rfl⟩
    · have hh := h.history
      rw [if_neg hl] at hh
      have ha : (if db.loadedScopes then a.attrs else none) = none := by
        cases hs : db.loadedScopes
        case false => rfl
        case true  =>
          cases ha : a.attrs
          case none   => rfl
          case some m => exact absurd (h.early hs (by simp [ha])) hl
      simp only [if_true, ha]
      rw [historyNodes_createHistoryNodes, hh]
      rfl
    · have ⟨sl⟩ := h.scopes hs
      exact ⟨{ sl with
        items      := (itemData_congr (scopes_createHistoryNodes ..)).trans sl.items
        attributes := (attributeTree_congr (scopes_createHistoryNodes ..)).trans sl.attributes
        global     := (attributes_createHistoryNodes ..).trans sl.global
      }⟩
    · exact (attributes_createHistoryNodes ..).trans (h.fresh hs)

-- The scopes before the members are applied to them, with the history if there are attributes.
structure BeforeMembers (a : Archive) (db db₁ : LazyUCIS) (scopes : List Scope) : Prop where
  scopes     : db₁.scopes = scopes
  attributes : db₁.attributes = db.attributes
  loaded     : db₁.loadedScopes
  history    : db₁.historyNodes = if db₁.loadedHistory then reloadedNodes a else []
  early      : a.attrs.isSome → db₁.loadedHistory
  kept       : db.loadedHistory → db₁.loadedHistory

theorem Loaded.beforeMembers (h : Loaded a db) (hs : ¬db.loadedScopes) (scopes : List Scope)
    (separator : Char) : BeforeMembers a db (db.setScopes a scopes separator) scopes := by
  have hh := h.history
  rw [if_neg hs] at hh
  rw [setScopes]
  split
  case isFalse ha => exact ⟨rfl, rfl, rfl, hh, fun hs => absurd hs ha, id⟩
  case isTrue ha =>
    rw [LazyUCIS.ensureHistory.eq_def]
    split
    case isTrue hl => exact ⟨rfl, rfl, rfl, hh, fun _ => hl, id⟩
    case isFalse hl =>
      replace hl : ¬db.loadedHistory := hl
      rw [if_neg hl] at hh
      refine ⟨?_, ?_, rfl, ?_, fun _ => rfl, fun _ => rfl⟩
      · exact scopes_createHistoryNodes ..
      · exact attributes_createHistoryNodes ..
      · refine (historyNodes_createHistoryNodes ..).trans ?_
        rw [if_pos rfl]
        exact congrArg (· ++ _) hh

theorem Loaded.ensureScopes (h : Loaded a db) (hr : db.ensureScopes a = .ok db') :
    Loaded a db' ∧ db'.loadedScopes ∧ (db.loadedHistory → db'.loadedHistory) := by
  rw [LazyUCIS.ensureScopes] at hr
  split at hr
  case isTrue hl =>
    cases hr
    exact ⟨h, hl, id⟩
  case isFalse hl =>
    simp only at hr
    split at hr
    case isTrue => cases hr
    case isFalse =>
      have ⟨separator, _, hr⟩ := bind_ok hr
      have ⟨counts, hc, hr⟩ := bind_ok hr
      have ⟨ss, ht, hr⟩ := bind_ok hr
      have ⟨⟨ss', rest⟩, htree, he⟩ := Option.map_eq_some_iff.mp (orRaise_ok ht)
      replace he : ss' = ss := he
      subst he
      have hb := h.beforeMembers hl ss' separator
      cases hr
      generalize db.setScopes a ss' separator = db₁ at hb
      refine ⟨⟨?_, fun _ => hb.early, fun _ => ⟨{
        counts, rest
        scopes     := ss'
        baseline   := orRaise_ok hc
        tree       := htree
        items      := (itemData_applyMembers ..).trans <|
          congrArg (List.mapIdx _) (itemData_congr hb.scopes)
        attributes := (attributeTree_applyMembers ..).trans <|
          congrArg _ (attributeTree_congr hb.scopes)
        global     := (attributes_applyMembers ..).trans ?_
      }⟩, fun hs => absurd hb.loaded hs⟩, hb.loaded, hb.kept⟩
      · refine (historyNodes_applyMembers ..).trans ?_
        rw [hb.history, if_pos hb.loaded]
        cases hh : db₁.loadedHistory
        case true  => rfl
        case false =>
          have ha : a.attrs = none := by
            cases ha : a.attrs
            case none   => rfl
            case some m => simp [hb.early (by simp [ha])] at hh
          rw [ha]
          rfl
      · rw [hb.attributes, h.fresh hl]

-- A unit that neither the items nor the history are in.
theorem Loaded.congr (h : Loaded a db) (hm : db'.toMemUCIS = db.toMemUCIS)
    (hh : db'.loadedHistory = db.loadedHistory) (hs : db'.loadedScopes = db.loadedScopes) :
    Loaded a db' where
  history := by rw [hm, hh, hs]; exact h.history
  early   := by rw [hh, hs]; exact h.early
  scopes  := by rw [hm, hs]; exact h.scopes
  fresh   := by rw [hm, hs]; exact h.fresh

theorem Loaded.load {unit : LazyUnit} (h : Loaded a db) (hr : db.load a unit = .ok db') :
    Loaded a db' ∧ (unit = .history ∨ db.loadedHistory → db'.loadedHistory) ∧
      (unit = .scopes ∨ db.loadedScopes → db'.loadedScopes) := by
  cases unit <;> rw [LazyUCIS.load] at hr
  case history =>
    cases hr
    have ⟨h, hh, hs⟩ := h.ensureHistory
    exact ⟨h, fun _ => hh, by simp [hs]⟩
  case scopes =>
    have ⟨h, hs, hh⟩ := h.ensureScopes hr
    exact ⟨h, by simpa using hh, fun _ => hs⟩
  case v2History =>
    rw [LazyUCIS.ensureV2History] at hr
    split at hr
    case h_1 =>
      cases hr
      exact ⟨h, by simp, by simp⟩
    case h_2 =>
      have ⟨s, _, hr⟩ := bind_ok hr
      cases hr
      exact ⟨h.congr rfl rfl rfl, by simp, by simp⟩
  case testplan =>
    cases hr
    rw [LazyUCIS.ensureTestplan]
    split
    · exact ⟨h, by simp, by simp⟩
    · exact ⟨h.congr rfl rfl rfl, by simp, by simp⟩
  case waivers =>
    cases hr
    rw [LazyUCIS.ensureWaivers]
    split
    · exact ⟨h, by simp, by simp⟩
    · exact ⟨h.congr rfl rfl rfl, by simp, by simp⟩
  case issues =>
    cases hr
    rw [LazyUCIS.ensureIssues]
    split
    · exact ⟨h, by simp, by simp⟩
    · exact ⟨h.congr rfl rfl rfl, by simp, by simp⟩

-- Loading units in any order.
theorem Loaded.loads {units : List LazyUnit} (h : Loaded a db)
    (hr : units.foldlM (LazyUCIS.load a) db = .ok db') :
    Loaded a db' ∧ (.history ∈ units ∨ db.loadedHistory → db'.loadedHistory) ∧
      (.scopes ∈ units ∨ db.loadedScopes → db'.loadedScopes) := by
  induction units generalizing db
  case nil =>
    cases hr
    exact ⟨h, by simp, by simp⟩
  case cons unit units hi =>
    rw [List.foldlM_cons] at hr
    have ⟨db₁, hu, hr⟩ := bind_ok hr
    have ⟨h, hh, hs⟩ := h.load hu
    have ⟨h, hh', hs'⟩ := hi h hr
    refine ⟨h, fun hu => hh' ?_, fun hu => hs' ?_⟩
    · rw [List.mem_cons, or_assoc, or_left_comm] at hu
      exact hu.imp_right (hh ∘ Or.imp_left Eq.symm)
    · rw [List.mem_cons, or_assoc, or_left_comm] at hu
      exact hu.imp_right (hs ∘ Or.imp_left Eq.symm)

-- The items of the tree, each with the data that the types member gives it.
def typedItems (a : Archive) : List (Bool × String × CoverData) :=
  (numberedItems a.strings a.scopeTree).mapIdx (loadData a)

-- The types of these items, in creation order.
def itemTypes (a : Archive) : List CoverTypeT :=
  (typedItems a).map (·.snd.snd.type)

-- What the two ways of opening an archive are compared by.
structure SameContents (db db' : MemUCIS) : Prop where
  counts       : countsOf db = countsOf db'
  flags        : db.coverItems.map (·.data.flags) = db'.coverItems.map (·.data.flags)
  attributes   : db.attributeTree = db'.attributeTree ∧ db.attributes = db'.attributes
  historyNodes : db.historyNodes = db'.historyNodes

-- When the lazy loader misses nothing. The appended runs make up for a baseline that is out of the
-- run table, no item has other flags than those of its type, and no history node has one of the
-- fields that the loader drops.
structure NothingMissed (a : Archive) : Prop where
  counts  : ∀ bin < ScopeRecord.binCountAll a.scopeTree, a.surplus bin = a.unlisted bin
  flags   : ∀ n type, (itemTypes a)[n]? = some type → ∀ flags,
    (a.flags.getD ∅).get? n = some flags → flags = defaultFlags type
  history : ∀ hn ∈ a.history, hn.compulsory = none ∧ hn.cost < 0 ∧ hn.sameTests < 0

theorem reload_eq_reread_iff (hn : HistoryNode) :
    hn.reload = hn.reread ↔ hn.compulsory = none ∧ hn.cost < 0 ∧ hn.sameTests < 0 := by
  have hc : (-1 = if hn.cost ≥ 0 then hn.cost else -1) ↔ hn.cost < 0 := by
    split <;> grind
  have hs : (-1 = if hn.sameTests ≥ 0 then hn.sameTests else -1) ↔ hn.sameTests < 0 := by
    split <;> omega
  rw [HistoryNode.reload, HistoryNode.reread, HistoryNode.mk.injEq, ← hc, ← hs]
  simp [eq_comm (a := none)]

-- Attributes come on top of the nodes.
theorem attachAttrs_bare (attrs : Option Attrs) {nodes : List HistoryNode}
    (he : ∀ hn ∈ nodes, hn.attributes = ∅) :
    (attachAttrs attrs nodes).map (fun hn => { hn with attributes := ∅ }) = nodes := by
  apply List.ext_getElem?
  intro p
  rw [List.getElem?_map, attachAttrs_getElem? attrs he, Option.map_map]
  cases hp : nodes[p]?
  case none    => rfl
  case some hn => exact congrArg some <| by rw [← he hn (List.mem_of_getElem? hp)]; rfl

theorem historyNodes_eq_iff (a : Archive) :
    attachAttrs a.attrs (reloadedNodes a) = readHistory a ↔
    ∀ hn ∈ a.history, hn.compulsory = none ∧ hn.cost < 0 ∧ hn.sameTests < 0 := by
  have hl : ∀ hn ∈ reloadedNodes a, hn.attributes = ∅ := by
    intro hn hm
    have ⟨_, _, he⟩ := List.mem_map.mp hm
    exact he ▸ rfl
  have hr : ∀ hn ∈ createdNodes a, hn.attributes = ∅ := by
    intro hn hm
    have ⟨_, _, he⟩ := List.mem_map.mp hm
    exact he ▸ rfl
  have he : attachAttrs a.attrs (reloadedNodes a) = readHistory a ↔
      reloadedNodes a = createdNodes a := by
    refine ⟨fun h => ?_, fun h => by rw [h, readHistory_eq]⟩
    rw [readHistory_eq] at h
    rw [← attachAttrs_bare a.attrs hl, h, attachAttrs_bare a.attrs hr]
  rw [he, reloadedNodes, createdNodes, List.map_inj_left]
  exact forall₂_congr fun hn _ => reload_eq_reread_iff hn

section Items

variable {x : Bool × String × CoverData} {n : Nat}

theorem loadData_data : (loadData a n x).snd.snd.data = x.snd.snd.data := by
  rw [loadData, CoveritemTypes.retype]
  split <;> [rfl; split <;> rfl]

theorem loadData_recount (φ : Nat → Nat) :
    loadData a n (Read.recountData φ x) = Read.recountData φ (loadData a n x) := by
  have ⟨pair, _, _⟩ := x
  cases pair
  case true => rfl
  case false =>
    simp only [loadData, Read.recountData, CoveritemTypes.retype]
    cases (a.types.getD []).valuesAt n <;> rfl

theorem loadData_flags (h : HasDefaultFlags x) : HasDefaultFlags (loadData a n x) := by
  rw [HasDefaultFlags, loadData]
  split
  · exact h
  · exact retype_flags h

theorem readData_eq :
    readData a n x = ((loadData a n x).fst, (loadData a n x).snd.fst, { (loadData a n x).snd.snd with
      flags := ((a.flags.getD ∅).get? n).getD (defaultFlags (loadData a n x).snd.snd.type) }) :=
  rfl

end Items

-- The attributes of a tree are those of its outline.
theorem attributeTree_outline (φ : Nat → Nat) (ss : List Scope) :
    attributeTree { scopes := ss.map (Scope.outline (CoverIndex.recount φ)) }
      = attributeTree { scopes := ss } := by
  simp only [attributeTree, dfsScopeList, Scope.dfsAll_outline, List.map_map]
  refine List.map_congr_left fun s _ => ?_
  rw [Function.comp_apply, Scope.outline_coverItems, Scope.outline_data, List.map_map]
  rfl

theorem exists_attributeTree {strings files : List String} {tree : List ScopeRecord}
    {counts rest : Counts} {ss : List Scope}
    (h : ScopeTreeReader.readScopes { strings := internAll strings, files := files } none [] tree
      counts = some (ss, rest)) :
    ∃ ns, numberedScopes strings tree = some ns ∧
      attributeTree { scopes := ns } = attributeTree { scopes := ss } := by
  have ⟨ns, hn, hs⟩ := exists_numberedScopes h
  refine ⟨ns, hn, ?_⟩
  rw [← attributeTree_outline (counts.getD · 0) ns, hs, attributeTree_outline]

section Views

variable {db : LoadedUCIS} {db' : LazyUCIS}

variable (rd : Read a none db) (sl : ScopesLoaded a db'.toMemUCIS)

include rd in
theorem itemData_read : db.itemData = (typedItems a).mapIdx fun n x =>
    Read.recountData (rd.counts.getD · 0) (x.fst, x.snd.fst, { x.snd.snd with
      flags := ((a.flags.getD ∅).get? n).getD (defaultFlags x.snd.snd.type) }) := by
  have hd : rd.raw.itemData = _ :=
    (MemUCIS.itemData_congr rfl).trans (itemData_readScopes rd.tree)
  rw [rd.itemData_eq, hd, typedItems, List.mapIdx_mapIdx]
  apply List.ext_getElem?
  intro n
  rw [List.getElem?_mapIdx, List.getElem?_map, List.getElem?_mapIdx, Option.map_map]
  refine congrArg (Option.map · _) <| funext fun x => ?_
  simp only [Function.comp_apply]
  rw [readData_eq, loadData_recount]
  rfl

include sl in
theorem itemData_load :
    db'.itemData = (typedItems a).map (Read.recountData (a.baseline.getD · 0)) := by
  have hb : a.baseline = sl.counts := by rw [RunMembers.baseline, sl.baseline]; rfl
  rw [sl.items, itemData_readScopes sl.tree, typedItems, hb]
  apply List.ext_getElem?
  intro n
  rw [List.getElem?_mapIdx, List.getElem?_map, List.getElem?_map, List.getElem?_mapIdx,
    Option.map_map, Option.map_map]
  exact congrArg (Option.map · _) <| funext fun x => loadData_recount ..

include rd in
theorem typedItems_flags : ∀ x ∈ typedItems a, HasDefaultFlags x := by
  intro x hx
  have hd : rd.raw.itemData = _ :=
    (MemUCIS.itemData_congr rfl).trans (itemData_readScopes rd.tree)
  have ⟨n, hn, he⟩ := List.mem_mapIdx.mp hx
  rw [← he]
  apply loadData_flags
  have hm : HasDefaultFlags (Read.recountData (rd.counts.getD · 0) _) :=
    rd.defaultFlags_raw _ (hd ▸ List.mem_map_of_mem (List.getElem_mem hn))
  exact hm

theorem typedItems_bins : (typedItems a).map (·.snd.snd.data) = binsOf a.strings a.scopeTree := by
  rw [typedItems, binsOf]
  apply List.ext_getElem?
  intro n
  rw [List.getElem?_map, List.getElem?_mapIdx, List.getElem?_map, Option.map_map]
  exact congrArg (Option.map · _) <| funext fun x => loadData_data

include rd sl in
theorem counts_eq_iff : countsOf db'.toMemUCIS = countsOf db.toMemUCIS ↔
    ∀ bin < ScopeRecord.binCountAll a.scopeTree, a.surplus bin = a.unlisted bin := by
  have hc' : countsOf db'.toMemUCIS
      = (binsOf a.strings a.scopeTree).map (a.baseline.getD · 0) := by
    rw [MemUCIS.countsOf_eq, itemData_load sl, ← typedItems_bins, List.map_map, List.map_map]
    rfl
  rw [hc', rd.countsOf_eq_bins, List.map_inj_left]
  have hb : ∀ bin, bin ∈ binsOf a.strings a.scopeTree ↔ bin < ScopeRecord.binCountAll a.scopeTree := by
    intro bin
    rw [(binsOf_perm rd.tree).mem_iff, List.mem_range]
  refine forall_congr' fun bin => ?_
  rw [hb]
  refine imp_congr_right fun _ => ?_
  rw [RunMembers.resolveCounts_ok rd.resolved, RunMembers.combine_readRows_getD,
    ← RunMembers.listed_add_unlisted]
  omega

theorem flags_eq (db : MemUCIS) :
    db.coverItems.map (·.data.flags) = db.itemData.map (·.snd.snd.flags) := by
  have hm := congrArg (List.map CoverData.flags) db.coverItems_data
  rwa [List.map_map, List.map_map] at hm

include rd sl in
theorem flags_eq_iff : db'.coverItems.map (·.data.flags) = db.coverItems.map (·.data.flags) ↔
    ∀ n type, (itemTypes a)[n]? = some type → ∀ flags,
      (a.flags.getD ∅).get? n = some flags → flags = defaultFlags type := by
  rw [flags_eq, flags_eq, itemData_load sl, itemData_read rd, List.map_map, List.ext_getElem?_iff]
  refine forall_congr' fun n => ?_
  rw [itemTypes, List.getElem?_map, List.getElem?_map, List.getElem?_mapIdx, List.getElem?_map,
    Option.map_map]
  cases hx : (typedItems a)[n]?
  case none => simp
  case some x =>
    have hf : x.snd.snd.flags = _ := typedItems_flags rd x (List.mem_of_getElem? hx)
    cases hg : (a.flags.getD ∅).get? n <;> simp [Read.recountData, hf, eq_comm]

-- Attributes go to the same scopes and items in both ways.
include rd sl in
theorem attributes_eq :
    db'.attributeTree = db.attributeTree ∧ db'.attributes = db.attributes := by
  constructor
  case right =>
    rw [sl.global, rd.members, NcdbReader.attributes_applyMembers]
  case left =>
    rw [sl.attributes, rd.members, NcdbReader.attributeTree_applyMembers]
    have ⟨ns, hn, ht⟩ := exists_attributeTree sl.tree
    have ⟨ns', hn', ht'⟩ := exists_attributeTree rd.tree
    cases hn.symm.trans hn'
    exact congrArg _ (ht.symm.trans (ht'.trans (attributeTree_congr rfl)))

end Views

-- A lazily opened database whose units are loaded holds what the reader gives exactly when the lazy
-- loader misses nothing.
theorem load_eq_read_iff {db : LoadedUCIS} {db' : LazyUCIS} {units : List LazyUnit}
    (hr : read a = .ok db) (hl : units.foldlM (load a) {} = .ok db') (hh : .history ∈ units)
    (hs : .scopes ∈ units) :
    SameContents db'.toMemUCIS db.toMemUCIS ↔ NothingMissed a := by
  have ⟨rd⟩ := read_ok hr
  have ⟨h, hh, hs⟩ := (Loaded.init a).loads hl
  replace hh := hh (.inl ‹_›)
  replace hs := hs (.inl ‹_›)
  have ⟨sl⟩ := h.scopes hs
  have hn := h.history
  rw [if_pos hh, if_pos hs] at hn
  have hi := historyNodes_eq_iff a
  rw [← hn, ← rd.historyNodes_eq] at hi
  constructor
  · intro ⟨hc, hf, _, hhn⟩
    exact ⟨(counts_eq_iff rd sl).mp hc, (flags_eq_iff rd sl).mp hf, hi.mp hhn⟩
  · intro ⟨hc, hf, hhn⟩
    exact ⟨(counts_eq_iff rd sl).mpr hc, (flags_eq_iff rd sl).mpr hf, attributes_eq rd sl, hi.mpr hhn⟩

open NcdbMerger (singleRun doubleRun)

theorem load_eq_read_single : ∃ db db',
    NcdbReader.read singleRun = .ok db ∧
    [LazyUnit.scopes, LazyUnit.history].foldlM (load singleRun) {} = .ok db' ∧
    SameContents db'.toMemUCIS db.toMemUCIS := by
  have ⟨db, hr⟩ : ∃ db, NcdbReader.read singleRun = .ok db := ⟨_, rfl⟩
  have ⟨db', hl⟩ : ∃ db', [LazyUnit.scopes, LazyUnit.history].foldlM (load singleRun) {} = .ok db' :=
    ⟨_, rfl⟩
  refine ⟨db, db', hr, hl, ?_⟩
  apply (load_eq_read_iff hr hl (by simp) (by simp)).mpr
  constructor
  · decide
  · simp [singleRun]
  · simp [singleRun]

-- The appended run is missing from the count.
theorem load_read_appended_run : ∃ db db',
    NcdbReader.read doubleRun = .ok db ∧
    [LazyUnit.scopes, LazyUnit.history].foldlM (load doubleRun) {} = .ok db' ∧
    countsOf db.toMemUCIS = [3] ∧ countsOf db'.toMemUCIS = [1] :=
  ⟨_, _, rfl, rfl, rfl, rfl⟩

end LazyUCIS
