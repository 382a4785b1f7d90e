import Covsight.Lib.Call
import Covsight.Ncdb.Archive
import Covsight.Ncdb.Theorems.ScopeTree

-- An item without what is told by where its scope is: its name and its data, with whether it is in
-- a toggle pair.
def MemUCIS.itemData (db : MemUCIS) : List (Bool × String × CoverData) :=
  db.markedItems.map fun x => (x.fst, x.snd.name, x.snd.data)

namespace MemUCIS

variable {db db' : MemUCIS}

theorem markedItems_congr (h : db'.scopes = db.scopes) : db'.markedItems = db.markedItems := by
  rw [markedItems, dfsScopeList, h]
  rfl

theorem itemData_congr (h : db'.scopes = db.scopes) : db'.itemData = db.itemData := by
  rw [itemData, markedItems_congr h, itemData]

theorem coverItems_data (db : MemUCIS) :
    db.coverItems.map (·.data) = db.itemData.map (·.snd.snd) := by
  rw [← markedItems_snd, itemData, List.map_map, List.map_map]
  rfl

theorem countsOf_eq (db : MemUCIS) : countsOf db = db.itemData.map (·.snd.snd.data) := by
  rw [countsOf, ← markedItems_snd, itemData, List.map_map, List.map_map]
  rfl

-- Rewriting attributes and locations of items leaves their data.
theorem itemData_mapScopeItems {f : Nat → Nat → Scope → List CoverIndex}
    (h : ∀ i k s, (f i k s).map (fun ci => (ci.name, ci.data))
      = s.coverItems.map fun ci => (ci.name, ci.data)) :
    (db.mapScopeItems f).itemData = db.itemData := by
  have hn : ∀ i k s, (f i k s).map (·.name) = s.coverItems.map (·.name) := by
    intro i k s
    have hm := congrArg (List.map Prod.fst) (h i k s)
    simpa only [List.map_map, Function.comp_def] using hm
  have hm : (db.mapScopeItems f).markedItems = _ :=
    markedItems_rewritten db (f := fun _ _ i k s => (s.data, f i k s)) (fun _ _ _ _ _ => rfl)
      (fun _ _ i k s => hn i k s) (fun _ _ _ _ _ => rfl)
  rw [itemData, hm, List.map_flatten, Scope.scan.map, itemData, markedItems, List.map_flatMap,
    List.flatMap_def, ← Scope.scan.const (i := 0) (k := 0)]
  refine congrArg List.flatten <| Scope.scan.congr fun i k s _ => ?_
  simp only [Scope.markedItems, List.map_map, Function.comp_def]
  have hs := congrArg (List.map (s.isTogglePair, ·)) (h i k s)
  simpa only [List.map_map, Function.comp_def] using hs

theorem itemData_mapScopeData {g : Nat → ScopeData → ScopeData} (ht : ∀ i d, (g i d).type = d.type) :
    (db.mapScopeData g).itemData = db.itemData := by
  rw [itemData, markedItems_mapScopeData _ _ ht, itemData]

end MemUCIS

-- The scopes a member does not touch.

theorem Tags.itemData_apply (entries : Tags) (db : MemUCIS) :
    (Tags.apply entries db).itemData = db.itemData :=
  MemUCIS.itemData_mapScopeData fun _ _ => rfl

theorem Crosses.itemData_apply (entries : Crosses) (db : MemUCIS) :
    (Crosses.apply entries db).itemData = db.itemData := by
  have hm := db.markedItems_mapIdx
    (f := fun parent siblings i _ s =>
      ({ s.data with crossed := entries.crossedOf parent siblings i s.data }, s.coverItems))
    (h := fun _ _ ci => ci) (fun _ _ _ => rfl) (fun _ _ _ _ _ => rfl)
    (fun _ _ _ _ s => (mapIdx_snd _).symm)
  have hs : (Crosses.apply entries db).markedItems = db.markedItems := hm.trans (mapIdx_snd _)
  rw [MemUCIS.itemData, hs, MemUCIS.itemData]

-- A part of a state that no step of a loop changes.
theorem foldl_preserves {α β γ : Type*} (p : β → γ) {f : β → α → β} (h : ∀ b a, p (f b a) = p b)
    (xs : List α) (b : β) : p (xs.foldl f b) = p b := by
  induction xs generalizing b
  case nil          => rfl
  case cons x xs hi => rw [List.foldl_cons, hi, h]

theorem Contributions.scopes_apply (members : Contributions) (db : MemUCIS) :
    (Contributions.apply members db).scopes = db.scopes := by
  refine foldl_preserves (·.scopes) (fun db e => ?_) _ db
  exact foldl_preserves (·.scopes) (f := fun db (b : Nat × Nat) =>
    MemUCIS.recordTestAssociation db e.fst b.fst b.snd) (fun _ _ => rfl) _ db

theorem FormalResults.scopes_apply (results : FormalResults) (db : MemUCIS) :
    (FormalResults.apply results db).scopes = db.scopes := by
  refine foldl_preserves (·.scopes) ?_ _ db
  exact fun _ _ => rfl

theorem scopes_createFileHandles (files : List String) (db : MemUCIS) :
    (files.foldl MemUCIS.createFileHandle db).scopes = db.scopes := by
  refine foldl_preserves (·.scopes) (fun db file => ?_) files db
  rw [MemUCIS.createFileHandle]
  split <;> rfl

theorem scopes_createHistoryNodes (nodes : List HistoryNode) (db : MemUCIS) :
    (nodes.foldl MemUCIS.createHistoryNode db).scopes = db.scopes := by
  refine foldl_preserves (·.scopes) ?_ nodes db
  exact fun _ _ => rfl

theorem historyNodes_createHistoryNodes (nodes : List HistoryNode) (db : MemUCIS) :
    (nodes.foldl MemUCIS.createHistoryNode db).historyNodes = db.historyNodes ++ nodes := by
  induction nodes generalizing db
  case nil            => simp
  case cons hn hns hi => rw [List.foldl_cons, hi]; simp [MemUCIS.createHistoryNode]

-- A member that changes nothing but the scopes.
def MemUCIS.ScopesOnly {α : Type} (apply : α → MemUCIS → MemUCIS) : Prop :=
  ∀ m db, ∃ scopes, apply m db = { db with scopes := scopes }

namespace MemUCIS.ScopesOnly

theorem tags : ScopesOnly Tags.apply :=
  fun _ _ => ⟨_, rfl⟩

theorem crosses : ScopesOnly Crosses.apply :=
  fun _ _ => ⟨_, rfl⟩

theorem types : ScopesOnly CoveritemTypes.apply :=
  fun _ _ => ⟨_, rfl⟩

theorem sources (files : List String) : ScopesOnly fun sources => CoveritemSources.apply sources files :=
  fun _ _ => ⟨_, rfl⟩

theorem flags : ScopesOnly CoveritemFlags.apply := by
  intro flags db
  rw [CoveritemFlags.apply]
  split
  · exact ⟨_, rfl⟩
  · exact ⟨_, rfl⟩

variable {α : Type} {apply : α → MemUCIS → MemUCIS} (h : ScopesOnly apply)

include h

theorem applying (member : Option α) (db : MemUCIS) :
    ∃ scopes, db.applying member apply = { db with scopes := scopes } := by
  cases member
  case none   => exact ⟨_, rfl⟩
  case some m => exact h m db

theorem historyNodes (member : Option α) (db : MemUCIS) :
    (db.applying member apply).historyNodes = db.historyNodes := by
  have ⟨_, he⟩ := h.applying member db
  rw [he]

theorem attributes (member : Option α) (db : MemUCIS) :
    (db.applying member apply).attributes = db.attributes := by
  have ⟨_, he⟩ := h.applying member db
  rw [he]

theorem perTestData (member : Option α) (db : MemUCIS) :
    (db.applying member apply).perTestData = db.perTestData := by
  have ⟨_, he⟩ := h.applying member db
  rw [he]

end MemUCIS.ScopesOnly

theorem Attrs.itemData_apply (a : Attrs) (db : MemUCIS) : (a.apply db).itemData = db.itemData := by
  rw [Attrs.apply]
  refine (MemUCIS.itemData_congr rfl).trans ?_
  refine (MemUCIS.itemData_mapScopeItems fun i _ s => ?_).trans
    (MemUCIS.itemData_mapScopeData fun _ _ => rfl)
  simp [List.mapIdx_eq_zipIdx_map, Function.comp_def]
  rw [← Function.comp_def (fun ci : CoverIndex => (ci.name, ci.data)) Prod.fst, ← List.map_map,
    List.zipIdx_map_fst]

namespace MemUCIS

variable {db : MemUCIS} {h : Nat → CoverIndex → CoverIndex} {g : Nat → CoverData → CoverData}

theorem itemData_mapCoverItems (hn : ∀ n ci, (h n ci).name = ci.name)
    (hd : ∀ n ci, (h n ci).data = g n ci.data) :
    (db.mapCoverItems h).itemData
      = db.itemData.mapIdx fun n x => (x.fst, x.snd.fst, g n x.snd.snd) := by
  rw [itemData, markedItems_mapCoverItems _ _ hn, itemData]
  simp [List.mapIdx_eq_zipIdx_map, List.zipIdx_map, Function.comp_def, hn, hd]

theorem itemData_mapLooseItems (hn : ∀ n ci, (h n ci).name = ci.name)
    (hd : ∀ n ci, (h n ci).data = g n ci.data) :
    (db.mapLooseItems h).itemData
      = db.itemData.mapIdx fun n x =>
          (x.fst, x.snd.fst, if x.fst then x.snd.snd else g n x.snd.snd) := by
  rw [itemData, markedItems_mapLooseItems _ _ hn, itemData]
  simp only [List.mapIdx_eq_zipIdx_map, List.zipIdx_map, List.map_map, Function.comp_def]
  refine List.map_congr_left fun x _ => ?_
  cases hx : x.fst.fst <;> simp [hn, hd, hx]

end MemUCIS

-- What the types member makes of the data of an item.
def CoveritemTypes.retype (runs : CoveritemTypes) (n : Nat) (cd : CoverData) : CoverData :=
  match runs.valuesAt n with
  | none        => cd
  | some values => {
      cd with
      flags   := if cd.type = values.type then cd.flags else defaultFlags values.type
      type    := values.type
      atLeast := values.atLeast
      goal    := values.goal
    }

theorem CoveritemTypes.itemData_apply (runs : CoveritemTypes) (db : MemUCIS) :
    (runs.apply db).itemData = db.itemData.mapIdx fun n x =>
      (x.fst, x.snd.fst, if x.fst then x.snd.snd else runs.retype n x.snd.snd) := by
  refine MemUCIS.itemData_mapLooseItems (fun n ci => ?_) fun n ci => ?_
  · cases runs.valuesAt n <;> rfl
  · simp only [retype]
    cases runs.valuesAt n <;> rfl

theorem CoveritemFlags.itemData_apply (flags : CoveritemFlags) (db : MemUCIS)
    (he : ¬flags.entries.isEmpty) :
    (flags.apply db).itemData = db.itemData.mapIdx fun n x => (x.fst, x.snd.fst,
      { x.snd.snd with flags := (flags.get? n).getD (defaultFlags x.snd.snd.type) }) := by
  rw [apply, if_neg he]
  exact MemUCIS.itemData_mapCoverItems
    (g := fun n cd => { cd with flags := (flags.get? n).getD (defaultFlags cd.type) })
    (fun _ _ => rfl) fun _ _ => rfl

theorem CoveritemSources.itemData_apply (sources : CoveritemSources) (files : List String)
    (db : MemUCIS) : (sources.apply files db).itemData = db.itemData := by
  refine (MemUCIS.itemData_mapLooseItems (g := fun _ cd => cd) (fun n ci => ?_) fun n ci => ?_).trans
    ?_
  · cases sources.get? n
    case none     => rfl
    case some ref => cases hf : files[ref.fileId]? <;> simp only [hf]
  · cases sources.get? n
    case none     => rfl
    case some ref => cases hf : files[ref.fileId]? <;> simp only [hf]
  · simp only [ite_self]
    exact mapIdx_snd _

namespace NcdbReader

open MemUCIS (ScopesOnly)

-- The data of an item with the types and flags of an archive.
def readData (a : Archive) (n : Nat) (x : Bool × String × CoverData) : Bool × String × CoverData :=
  let cd := if x.fst then x.snd.snd else (a.types.getD []).retype n x.snd.snd
  (x.fst, x.snd.fst, { cd with flags := ((a.flags.getD ∅).get? n).getD (defaultFlags cd.type) })

-- An item whose flags are those of its type.
def HasDefaultFlags (x : Bool × String × CoverData) : Prop :=
  x.snd.snd.flags = defaultFlags x.snd.snd.type

theorem retype_nil (n : Nat) (cd : CoverData) : CoveritemTypes.retype [] n cd = cd :=
  rfl

theorem retype_flags {runs : CoveritemTypes} {n : Nat} {cd : CoverData}
    (h : cd.flags = defaultFlags cd.type) :
    (runs.retype n cd).flags = defaultFlags (runs.retype n cd).type := by
  simp only [CoveritemTypes.retype]
  split
  case h_1 => exact h
  case h_2 values _ =>
    simp only
    split
    case isTrue ht  => rw [h, ht]
    case isFalse ht => rfl

-- Applying types and flags to a tree as it is read.
theorem itemData_types_flags (a : Archive) {db : MemUCIS} (hf : ∀ x ∈ db.itemData, HasDefaultFlags x) :
    ((db.applying a.types CoveritemTypes.apply).applying a.flags CoveritemFlags.apply).itemData
      = db.itemData.mapIdx (readData a) := by
  have ht : (db.applying a.types CoveritemTypes.apply).itemData
      = db.itemData.mapIdx fun n x =>
        (x.fst, x.snd.fst, if x.fst then x.snd.snd else (a.types.getD []).retype n x.snd.snd) := by
    cases a.types
    case none      => simp [MemUCIS.applying, retype_nil, mapIdx_snd]
    case some runs => exact CoveritemTypes.itemData_apply runs db
  have hd : (∀ n, (a.flags.getD ∅).get? n = none) →
      db.itemData.mapIdx (fun n x =>
        (x.fst, x.snd.fst, if x.fst then x.snd.snd else (a.types.getD []).retype n x.snd.snd))
      = db.itemData.mapIdx (readData a) := by
    intro hg
    refine List.mapIdx_eq_mapIdx_iff.mpr fun n hn => ?_
    have hx := hf _ (List.getElem_mem hn)
    simp only [readData, hg, Option.getD_none, Prod.mk.injEq, true_and]
    split
    · exact hx ▸ rfl
    · rw [← retype_flags hx]
  cases hfl : a.flags
  case none => exact ht.trans (hd (by simp [hfl]))
  case some flags =>
    rw [MemUCIS.applying.eq_def]
    by_cases he : flags.entries.isEmpty
    case pos =>
      have hg : ∀ n, flags.get? n = none := by
        intro n
        rw [Dict.get?_eq_none_iff, Dict.mem_def, Dict.keys, List.isEmpty_iff.mp he]
        exact List.not_mem_nil
      simp only [CoveritemFlags.apply, if_pos he, ht]
      exact hd (by simpa [hfl] using hg)
    case neg =>
      simp only [CoveritemFlags.itemData_apply flags _ he, ht, List.mapIdx_mapIdx]
      refine List.mapIdx_eq_mapIdx_iff.mpr fun n hn => ?_
      simp only [readData, hfl, Option.getD_some, Function.comp_apply]

theorem itemData_applying {α : Type} {apply : α → MemUCIS → MemUCIS}
    (h : ∀ m db, (apply m db).itemData = db.itemData) (member : Option α) (db : MemUCIS) :
    (db.applying member apply).itemData = db.itemData := by
  cases member
  case none   => rfl
  case some m => exact h m db

theorem itemData_applyMembers (a : Archive) {db : MemUCIS}
    (hf : ∀ x ∈ db.itemData, HasDefaultFlags x) :
    (applyMembers a db).itemData = db.itemData.mapIdx (readData a) := by
  rw [applyMembers]
  rw [itemData_applying Attrs.itemData_apply]
  rw [MemUCIS.itemData_congr (scopes_createHistoryNodes ..)]
  rw [MemUCIS.itemData_congr (scopes_createFileHandles ..)]
  rw [itemData_applying fun m db => CoveritemSources.itemData_apply m a.sources db]
  have hd : ((((db.applying a.tags Tags.apply).applying a.crosses Crosses.apply).applying
      (some a.contrib) Contributions.apply).applying a.formal FormalResults.apply).itemData
      = db.itemData := by
    rw [itemData_applying fun m db => MemUCIS.itemData_congr (FormalResults.scopes_apply m db),
      itemData_applying fun m db => MemUCIS.itemData_congr (Contributions.scopes_apply m db),
      itemData_applying Crosses.itemData_apply, itemData_applying Tags.itemData_apply]
  have ht := itemData_types_flags a (hd ▸ hf)
  rw [hd] at ht
  exact ht

-- The history as the reader rebuilds it, with the attributes of the nodes.
def readHistory (a : Archive) : List HistoryNode :=
  match a.attrs with
  | none       => a.history.map HistoryNode.reread
  | some attrs => attrs.applyHistory (a.history.map HistoryNode.reread)

theorem historyNodes_createFileHandles (files : List String) (db : MemUCIS) :
    (files.foldl MemUCIS.createFileHandle db).historyNodes = db.historyNodes := by
  refine foldl_preserves (·.historyNodes) (fun db file => ?_) files db
  rw [MemUCIS.createFileHandle]
  split <;> rfl

theorem historyNodes_contributions (members : Contributions) (db : MemUCIS) :
    (Contributions.apply members db).historyNodes = db.historyNodes := by
  refine foldl_preserves (·.historyNodes) (fun db e => ?_) _ db
  exact foldl_preserves (·.historyNodes) (f := fun db (b : Nat × Nat) =>
    MemUCIS.recordTestAssociation db e.fst b.fst b.snd) (fun _ _ => rfl) _ db

theorem historyNodes_formal (results : Option FormalResults) (db : MemUCIS) :
    (db.applying results FormalResults.apply).historyNodes = db.historyNodes := by
  cases results
  case none => rfl
  case some results =>
    refine foldl_preserves (·.historyNodes) ?_ _ db
    exact fun _ _ => rfl

theorem historyNodes_applyMembers (a : Archive) {db : MemUCIS} (h : db.historyNodes = []) :
    (applyMembers a db).historyNodes = readHistory a := by
  have hb : ((a.history.map HistoryNode.reread).foldl MemUCIS.createHistoryNode
      (a.sources.foldl MemUCIS.createFileHandle
        (((((db.applying a.tags Tags.apply).applying a.crosses Crosses.apply).applying
          (some a.contrib) Contributions.apply).applying a.formal FormalResults.apply).applying
            a.types CoveritemTypes.apply |>.applying a.flags CoveritemFlags.apply |>.applying
              a.itemSources fun sources => CoveritemSources.apply sources a.sources))).historyNodes
      = a.history.map HistoryNode.reread := by
    rw [historyNodes_createHistoryNodes, historyNodes_createFileHandles,
      (ScopesOnly.sources _).historyNodes, ScopesOnly.flags.historyNodes,
      ScopesOnly.types.historyNodes, historyNodes_formal]
    refine (congrArg (· ++ _) ?_).trans (List.nil_append _)
    refine (historyNodes_contributions ..).trans ?_
    rw [ScopesOnly.crosses.historyNodes, ScopesOnly.tags.historyNodes, h]
  rw [readHistory]
  cases ha : a.attrs
  case none =>
    refine Eq.trans ?_ hb
    rw [applyMembers, ha]
    rfl
  case some attrs =>
    simp only
    rw [← hb, applyMembers, ha]
    rfl

-- What a successful read went through.
structure Read (a : Archive) (runs : Option (List String)) (db : LoadedUCIS) where
  counts    : Counts
  scopes    : List Scope
  rest      : Counts
  separator : Char
  resolved  : a.resolveCounts runs = .ok counts
  baseline  : a.counts.isSome
  format    : a.manifest.format = ncdbFormat
  tree      : ScopeTreeReader.readScopes { strings := internAll a.strings, files := a.sources } none []
    a.scopeTree counts = some (scopes, rest)
  members   : db.toMemUCIS = applyMembers a { scopes := scopes, pathSeparator := separator }
  v2History : readV2History a = .ok db.v2History
  testplan  : db.testplan = a.testplan
  waivers   : db.waivers = a.waivers
  issues    : db.issues = a.issues ∧ db.issuesMetaRaw = a.issuesMeta ∧
    db.issuesHistory = a.issuesHistory

theorem orRaise_ok {α : Type*} {e : NcdbError} {o : Option α} {x : α} (h : o.orRaise e = .ok x) :
    o = some x := by
  cases o <;> cases h
  rfl

theorem runMembers_orRaise_ok {α : Type*} {o : Except RunError α} {x : α}
    (h : RunMembers.orRaise o = .ok x) : o = .ok x := by
  cases o <;> cases h
  rfl

theorem read_ok {a : Archive} {runs : Option (List String)} {db : LoadedUCIS}
    (h : read a runs = .ok db) : Nonempty (Read a runs db) := by
  rw [read] at h
  have ⟨counts, hc, h⟩ := bind_ok h
  have ⟨base, hb, h⟩ := bind_ok h
  split at h
  case isTrue => cases h
  case isFalse hf =>
    have ⟨separator, _, h⟩ := bind_ok h
    have ⟨scopes, ht, h⟩ := bind_ok h
    have ⟨v2, hv, h⟩ := bind_ok h
    cases h
    have ⟨⟨tree, rest⟩, hr, he⟩ := Option.map_eq_some_iff.mp (orRaise_ok ht)
    replace he : tree = scopes := he
    subst he
    exact ⟨{
      counts, rest, separator
      scopes    := tree
      resolved  := runMembers_orRaise_ok hc
      baseline  := by simp [orRaise_ok hb]
      format    := not_not.mp hf
      tree      := hr
      members   := rfl
      v2History := hv
      testplan  := rfl
      waivers   := rfl
      issues    := ⟨rfl, rfl, rfl⟩
    }⟩

namespace Read

variable {a a' : Archive} {runs runs' : Option (List String)} {db db' : LoadedUCIS}

-- The database as the scope tree alone gives it.
def raw (rd : Read a runs db) : MemUCIS :=
  { scopes := rd.scopes, pathSeparator := rd.separator }

theorem reads (rd : Read a runs db) :
    ScopeTreeReader.Reads (ScopeRecord.binCountAll a.scopeTree) rd.counts [] rd.raw.coverItems :=
  ScopeTreeReader.readScopes_reads a.scopeTree rd.tree

theorem defaultFlags_raw (rd : Read a runs db) : ∀ x ∈ rd.raw.itemData, HasDefaultFlags x := by
  intro x hx
  have ⟨m, hm, he⟩ := List.mem_map.mp hx
  have ⟨new, hp, _, hn⟩ := rd.reads.exists_new
  have hc : m.snd ∈ rd.raw.coverItems := MemUCIS.markedItems_snd _ ▸ List.mem_map_of_mem hm
  have ⟨type, _, _, _, hf⟩ := hn m.snd (hp.mem_iff.mp hc)
  rw [← he, HasDefaultFlags, hf]
  rfl

theorem itemData_eq (rd : Read a runs db) :
    db.itemData = rd.raw.itemData.mapIdx (readData a) := by
  rw [rd.members]
  exact itemData_applyMembers a rd.defaultFlags_raw

theorem historyNodes_eq (rd : Read a runs db) : db.historyNodes = readHistory a := by
  rw [rd.members]
  exact historyNodes_applyMembers a rfl

-- The flags of an item are the stored ones, or those of its type.
theorem flags_eq (rd : Read a runs db) {n : Nat} {cd : CoverData}
    (h : (db.coverItems.map (·.data))[n]? = some cd) :
    cd.flags = ((a.flags.getD ∅).get? n).getD (defaultFlags cd.type) := by
  rw [MemUCIS.coverItems_data, rd.itemData_eq, List.getElem?_map, List.getElem?_mapIdx] at h
  cases hx : rd.raw.itemData[n]? <;> rw [hx] at h <;> cases h
  rfl

theorem countsOf_eq (rd : Read a runs db) : countsOf db.toMemUCIS = countsOf rd.raw := by
  rw [MemUCIS.countsOf_eq, rd.itemData_eq, MemUCIS.countsOf_eq]
  apply List.ext_getElem?
  intro n
  rw [List.getElem?_map, List.getElem?_mapIdx, List.getElem?_map]
  cases rd.raw.itemData[n]?
  case none => rfl
  case some x =>
    have hr : ∀ runs : CoveritemTypes, (runs.retype n x.snd.snd).data = x.snd.snd.data := by
      intro runs
      simp only [CoveritemTypes.retype]
      split <;> rfl
    simp only [Option.map_some, readData]
    split
    · rfl
    · rw [hr]

-- The counts of the items are those of the bins, in some order.
theorem countsOf_perm (rd : Read a runs db) :
    (countsOf db.toMemUCIS).Perm
      (ScopeTreeReader.takeCounts (ScopeRecord.binCountAll a.scopeTree) rd.counts) := by
  have ⟨new, hp, hc, _⟩ := rd.reads.exists_new
  rw [rd.countsOf_eq, ← hc]
  exact hp.map _

theorem coverItems_length (rd : Read a runs db) :
    db.coverItems.length = ScopeRecord.binCountAll a.scopeTree := by
  have hl := rd.countsOf_perm.length_eq
  rwa [ScopeTreeReader.takeCounts_length, countsOf, List.length_map] at hl

section Outline

open Scope (outline)

-- The data of an item with another count.
def recountData (φ : Nat → Nat) (x : Bool × String × CoverData) : Bool × String × CoverData :=
  (x.fst, x.snd.fst, { x.snd.snd with data := φ x.snd.snd.data })

theorem isTogglePair_outline {g : CoverIndex → CoverIndex} (hg : ∀ ci, (g ci).name = ci.name)
    (s : Scope) : (s.outline g).isTogglePair = s.isTogglePair := by
  rw [← MemUCIS.togglePairNode_node, ← MemUCIS.togglePairNode_node, Scope.node, Scope.node]
  have hl : (s.outline g).scopes.isEmpty = s.scopes.isEmpty := by
    rw [Scope.outline_scopes, List.isEmpty_map]
  rw [hl]
  apply MemUCIS.togglePairNode_congr
  · simp
  · simp [Function.comp_def, hg]

theorem itemData_outline (φ : Nat → Nat) (m : MemUCIS) :
    MemUCIS.itemData { m with scopes := m.scopes.map (outline (CoverIndex.recount φ)) }
      = m.itemData.map (recountData φ) := by
  simp only [MemUCIS.itemData, MemUCIS.markedItems, MemUCIS.dfsScopeList, Scope.dfsAll_outline,
    List.map_flatMap, List.flatMap_map]
  refine List.flatMap_congr fun s _ => ?_
  simp only [Scope.markedItems, List.map_map, Scope.outline_coverItems]
  rw [isTogglePair_outline (g := CoverIndex.recount φ) fun _ => rfl]
  rfl

-- Two reads of one tree give the same items, with the counts in the same places.
theorem itemData_recount (rd : Read a runs db) (rd' : Read a' runs' db') {φ ψ : Nat → Nat}
    (ht : a'.scopeTree = a.scopeTree) (hs : a'.strings = a.strings)
    (hc : (ScopeTreeReader.takeCounts (ScopeRecord.binCountAll a.scopeTree) rd'.counts).map ψ
      = (ScopeTreeReader.takeCounts (ScopeRecord.binCountAll a.scopeTree) rd.counts).map φ) :
    rd'.raw.itemData.map (recountData ψ) = rd.raw.itemData.map (recountData φ) := by
  have hb : ([] : List Scope).map (outline (CoverIndex.recount ψ))
      = ([] : List Scope).map (outline (CoverIndex.recount φ)) := rfl
  have hi : internAll a'.strings = internAll a.strings := by rw [hs]
  have ⟨_, ss, hr, hss⟩ := ScopeTreeReader.readScopes_outline
    (q := { strings := internAll a'.strings, files := a'.sources }) hi a.scopeTree hc hb rd.tree
  have he := rd'.tree
  rw [ht, hr] at he
  have he : ss = rd'.scopes := congrArg Prod.fst (Option.some.inj he)
  rw [he] at hss
  rw [← itemData_outline, ← itemData_outline]
  exact MemUCIS.itemData_congr hss

end Outline

end Read

end NcdbReader

namespace NcdbWriter

open NcdbReader (orRaise_ok runMembers_orRaise_ok)

-- What a successful write went through.
structure Written (accel : Bool) (db : LoadedUCIS) (v2 : Option V2Members) (out : Archive) where
  scopeTree : List ScopeRecord
  writer    : ScopeTreeWriter
  tree      : ScopeTreeWriter.writeScopes {} db.scopes = some (scopeTree, writer)
  counts    : ∃ counts, countsSerialize accel writer.counts = .ok counts
  members   : out = NcdbWriter.members db scopeTree writer v2

variable {accel : Bool} {db : LoadedUCIS} {v2 : Option V2Members} {out : Archive}

theorem write_ok (h : write accel db v2 = .ok out) : Nonempty (Written accel db v2 out) := by
  rw [write] at h
  have ⟨⟨scopeTree, writer⟩, ht, h⟩ := bind_ok h
  have ⟨counts, hc, h⟩ := bind_ok h
  cases h
  exact ⟨{
    scopeTree, writer
    tree    := orRaise_ok ht
    counts  := ⟨counts, runMembers_orRaise_ok hc⟩
    members := rfl
  }⟩

namespace Written

variable (w : Written accel db v2 out)

include w

-- The binary run history only adds members of its own.

theorem history : out.history = (storedNodes db.historyNodes).map HistoryNode.store := by
  rw [w.members, NcdbWriter.members]
  cases v2 <;> rfl

theorem scopeTree_eq : out.scopeTree = w.scopeTree := by
  refine (congrArg Archive.scopeTree w.members).trans ?_
  cases v2 <;> rfl

theorem manifest :
    out.manifest = buildManifest db.toMemUCIS w.scopeTree w.writer v2.isSome := by
  refine (congrArg Archive.manifest w.members).trans ?_
  cases v2 <;> rfl

theorem runs : out.counts = some w.writer.counts ∧ out.runs = none ∧ out.runCounts = ∅ := by
  have hm := congrArg Archive.toRunMembers w.members
  rw [hm]
  cases v2 <;> exact ⟨rfl, rfl, rfl⟩

end Written

end NcdbWriter
