import Covsight.Ncdb.DfsUtil
import Covsight.Ncdb.Theorems.NcdbReader
import Covsight.Ncdb.Theorems.PlacedItems
import Covsight.Ncdb.Theorems.ScopeTreeRoundTrip

-- Reading an archive that was written: the scopes, and what there is on the items.

-- The location of an item as it is stored.
def CoverIndex.storedSource (ci : CoverIndex) : Option SourceInfo :=
  ci.srcinfo.bind fun si => si.file.map fun file => ⟨some file, si.line.toNat, si.token.toNat⟩

namespace CoveritemSources

-- What an entry says, given the table of files.
def located (files : List String) (ref : SourceRef) : SourceInfo :=
  ⟨files[ref.fileId]?, ref.line, ref.token⟩

-- Numbering the files of items only adds to the table, and the entries are those of the items that
-- have a file.
theorem writeEntries_ok (items : List (CoverIndex × Nat)) (w : ScopeTreeWriter) :
    w.files <+: (writeEntries w items).snd.files ∧
    ∀ files, (writeEntries w items).snd.files <+: files →
      (writeEntries w items).fst.map (fun e => (e.fst, located files e.snd))
        = items.filterMap fun (ci, n) => ci.storedSource.map (n, ·) := by
  induction items generalizing w
  case nil => exact ⟨List.prefix_rfl, fun _ _ => rfl⟩
  case cons item items hi =>
    have ⟨ci, n⟩ := item
    rw [writeEntries]
    cases hs : ci.srcinfo
    case none => simpa [CoverIndex.storedSource, hs] using hi w
    case some si =>
      cases hf : si.file
      case none => simpa [CoverIndex.storedSource, hs, hf] using hi w
      case some file =>
        have ⟨hp, he⟩ := hi (w.getFileId file).snd
        simp only [hf]
        refine ⟨(intern.extends_table w.files file).trans hp, fun files hfiles => ?_⟩
        have hget : files[(intern w.files file).fst]? = some file :=
          intern.get?_of_prefix (hp.trans hfiles)
        have he := he files hfiles
        simp only [CoverIndex.storedSource, hs, hf, List.filterMap_cons, Option.bind_some,
          Option.map_some, List.map_cons, he]
        exact congrArg (· :: _) (by rw [located, ScopeTreeWriter.getFileId, hget])

end CoveritemSources

namespace NcdbWriter.Written

open ScopeTreeReader (Knows)
open ScopeTreeWriter (Extends)

variable {accel : Bool} {db : LoadedUCIS} {v2 : Option V2Members} {out : Archive}
variable (w : Written accel db v2 out)

include w

theorem strings : out.strings = w.writer.strings := by
  refine (congrArg Archive.strings w.members).trans ?_
  cases v2 <;> rfl

theorem sources : out.sources =
    if (CoveritemSources.write w.writer db.toMemUCIS).snd.files.isEmpty then db.fileHandles
    else (CoveritemSources.write w.writer db.toMemUCIS).snd.files := by
  refine (congrArg Archive.sources w.members).trans ?_
  cases v2 <;> rfl

theorem flags : out.flags = CoveritemFlags.write db.toMemUCIS := by
  refine (congrArg Archive.flags w.members).trans ?_
  cases v2 <;> rfl

theorem types : out.types = CoveritemTypes.write db.toMemUCIS := by
  refine (congrArg Archive.types w.members).trans ?_
  cases v2 <;> rfl

-- Numbering the files of items only adds to the files of the scope tree.
theorem files_prefix : w.writer.files <+: (CoveritemSources.write w.writer db.toMemUCIS).snd.files :=
  (CoveritemSources.writeEntries_ok _ w.writer).1

theorem knows : Knows { strings := internAll out.strings, files := out.sources } w.writer := by
  have he := ScopeTreeReader.extends_writeScopes db.scopes w.tree
  have hn : w.writer.strings.Nodup := he.nodup List.nodup_nil
  refine ⟨?_, ?_⟩
  · have hs : internAll out.strings = w.writer.strings := by rw [w.strings, internAll_of_nodup hn]
    exact hs ▸ List.prefix_rfl
  · have hp := w.files_prefix
    rw [w.sources]
    split
    case isFalse  => exact hp
    case isTrue h =>
      rw [List.isEmpty_iff.mp h, List.prefix_nil] at hp
      rw [hp]
      exact List.nil_prefix

-- The counts that a read takes.
theorem resolveCounts : out.resolveCounts none = .ok w.writer.counts := by
  have ⟨hc, hr, hd⟩ := w.runs
  simp [RunMembers.resolveCounts, RunMembers.arraysOf, RunMembers.runIds, RunMembers.runTable,
    RunTable.runIds, RunTable.get, RunMembers.read, hc, hr]

-- The scopes of a database that was built through the interface are read as they are stored.
theorem tree_read (hb : Scope.BuiltAll none db.scopes) :
    ScopeTreeReader.readScopes { strings := internAll out.strings, files := out.sources } none []
      out.scopeTree w.writer.counts = some (db.scopes.map (Scope.restored none), []) := by
  have ⟨counts, hcounts, hread⟩ := ScopeTreeReader.readScopes_writeScopes db.scopes hb w.tree w.knows
  have hcounts : w.writer.counts = counts := hcounts.trans (List.nil_append _)
  have hread := hread [] []
  rw [List.append_nil, ← hcounts, ← w.scopeTree_eq] at hread
  have hp : (none : Option ScopeTypeT) ≠ some .fsm := by simp
  rw [hread, ScopeTreeReader.addScopes_of_not_fsm hp, List.nil_append]

theorem scopes_read {db' : LoadedUCIS} (rd : NcdbReader.Read out none db')
    (hb : Scope.BuiltAll none db.scopes) : rd.scopes = db.scopes.map (Scope.restored none) := by
  have hc : rd.counts = w.writer.counts := Except.ok.inj (rd.resolved.symm.trans w.resolveCounts)
  have ht := rd.tree
  rw [hc, w.tree_read hb] at ht
  exact (congrArg Prod.fst (Option.some.inj ht)).symm

end NcdbWriter.Written

-- What is written of a database without a binary run history can be read.
theorem NcdbWriter.Written.exists_read {accel : Bool} {db : LoadedUCIS} {out : Archive}
    (w : Written accel db none out) (hb : Scope.BuiltAll none db.scopes) :
    ∃ db', NcdbReader.read out = .ok db' := by
  have hm := w.manifest
  have hr := w.resolveCounts
  have hc := w.runs.1
  have hs : NcdbReader.readSeparator out.manifest.pathSeparator = .ok db.pathSeparator := by
    rw [hm]
    simp [buildManifest, NcdbReader.readSeparator, Char.toString]
  have hv : NcdbReader.readV2History out = .ok none := by
    have hne : historyFormatV1 ≠ historyFormatV2 := by decide
    rw [NcdbReader.readV2History, hm]
    exact if_neg hne
  have ht : NcdbReader.readTree out w.writer.counts = .ok (db.scopes.map (Scope.restored none)) := by
    simp only [NcdbReader.readTree, w.tree_read hb]
    rfl
  have hf : out.manifest.format = ncdbFormat := by
    rw [hm]
    rfl
  refine ⟨{
    toMemUCIS     := NcdbReader.applyMembers out {
      scopes        := db.scopes.map (Scope.restored none)
      pathSeparator := db.pathSeparator
    }
    testplan      := out.testplan
    waivers       := out.waivers
    issues        := out.issues
    issuesMetaRaw := out.issuesMeta
    issuesHistory := out.issuesHistory
    v2History     := none
  }, ?_⟩
  simp only [NcdbReader.read, hr, hc, hf, hs, hv, RunMembers.orRaise, Option.orRaise, bind,
    Except.bind, ne_eq, not_true, if_false, ht]
  rfl

-- The two bins of a toggle pair, in their canonical order.

namespace Scope

theorem pair_of_names {cis : List CoverIndex} {n m : String} (h : cis.map (·.name) = [n, m]) :
    ∃ a b, cis = [a, b] ∧ a.name = n ∧ b.name = m := by
  obtain ⟨a, _, rfl, ha, h⟩ := List.map_eq_cons_iff.mp h
  obtain ⟨b, _, rfl, hb, h⟩ := List.map_eq_cons_iff.mp h
  rw [List.map_eq_nil_iff.mp h]
  exact ⟨a, b, rfl, ha, hb⟩

theorem binItems_of_isTogglePair {s : Scope} (h : s.isTogglePair) :
    ∃ a b, a.name = toggleBin0To1 ∧ b.name = toggleBin1To0 ∧ s.binItems = [a, b] ∧
      (s.coverItems = [a, b] ∨ s.coverItems = [b, a]) := by
  have hne : toggleBin0To1 ≠ toggleBin1To0 := by decide
  have hp := h
  simp only [isTogglePair, decide_eq_true_eq] at hp
  rw [binItems, if_pos h]
  cases hp.2.2
  case inl hn =>
    obtain ⟨a, b, hs, ha, hb⟩ := pair_of_names hn
    refine ⟨a, b, ha, hb, ?_, .inl hs⟩
    simp [hs, ha, hb, hne, hne.symm]
  case inr hn =>
    obtain ⟨b, a, hs, hb, ha⟩ := pair_of_names hn
    refine ⟨a, b, ha, hb, ?_, .inr hs⟩
    simp [hs, ha, hb, hne, hne.symm]

theorem binItems_of_not_isTogglePair {s : Scope} (h : s.isTogglePair = false) :
    s.binItems = s.coverItems := by
  rw [binItems, if_neg (by simp [h])]

theorem length_binItems (s : Scope) : s.binItems.length = s.coverItems.length := by
  cases h : s.isTogglePair
  case false => rw [binItems_of_not_isTogglePair h]
  case true  =>
    have ⟨_, _, _, _, hb, hs⟩ := binItems_of_isTogglePair h
    cases hs <;> simp_all

-- What the scope tree keeps of an item of a scope.
def storedItem (s : Scope) (ci : CoverIndex) : CoverIndex :=
  if s.isTogglePair then
    ScopeTreeReader.coverItem .toggleBin (defaultAtLeast .toggleBin) ci.name ci.data.data
  else
    match s.coverItems.head? with
    | none       => ci
    | some first =>
      ScopeTreeReader.coverItem first.data.type first.data.atLeast.toNat ci.name ci.data.data

theorem restored_coverItems (parent : Option ScopeData) (s : Scope) :
    (s.restored parent).coverItems = s.binItems.map s.storedItem := by
  cases h : s.isTogglePair
  case true =>
    have ⟨a, b, ha, hb, hbins, hs⟩ := binItems_of_isTogglePair h
    have hne : toggleBin0To1 ≠ toggleBin1To0 := by decide
    have hi : ∀ ci, s.storedItem ci = ScopeTreeReader.coverItem .toggleBin
        (defaultAtLeast .toggleBin) ci.name ci.data.data := fun _ => if_pos h
    simp only [hbins, List.map_cons, List.map_nil, hi, ha, hb]
    have ⟨d, is, ss⟩ := s
    rw [restored, if_pos h]
    cases hs
    case inl hs =>
      replace hs : is = [a, b] := hs
      simp [ScopeTreeReader.togglePair, ScopeTreeWriter.countNamed, hs, ha, hb, hne]
    case inr hs =>
      replace hs : is = [b, a] := hs
      simp [ScopeTreeReader.togglePair, ScopeTreeWriter.countNamed, hs, ha, hb, hne.symm]
  case false =>
    rw [binItems_of_not_isTogglePair h]
    have ⟨d, is, ss⟩ := s
    rw [restored, if_neg (by simp [h]), coverItems_mk]
    cases is
    case nil => rfl
    case cons first cis =>
      rw [storedItems]
      exact List.map_congr_left fun ci _ => by simp [storedItem, h]

theorem restored_scopes_of_not_isTogglePair (parent : Option ScopeData) {s : Scope}
    (h : s.isTogglePair = false) :
    (s.restored parent).scopes = s.scopes.map (restored (some s.data)) := by
  have ⟨d, is, ss⟩ := s
  rw [restored, if_neg (by simp [h])]
  exact restoredAll_eq_map ..

theorem restored_scopes_of_isTogglePair (parent : Option ScopeData) {s : Scope}
    (h : s.isTogglePair) : (s.restored parent).scopes = [] := by
  have ⟨d, is, ss⟩ := s
  rw [restored, if_pos h]
  rfl

theorem name_storedItem (s : Scope) (ci : CoverIndex) : (s.storedItem ci).name = ci.name := by
  rw [storedItem]
  split
  · rfl
  · split <;> rfl

theorem isTogglePair_restored (parent : Option ScopeData) (s : Scope) :
    (s.restored parent).isTogglePair = s.isTogglePair := by
  have ht := ScopeTreeReader.restored_type parent s
  have hn : ((s.restored parent).coverItems.map (·.name)) = s.binItems.map (·.name) := by
    rw [restored_coverItems, List.map_map]
    exact List.map_congr_left fun ci _ => s.name_storedItem ci
  cases h : s.isTogglePair
  case true =>
    have ⟨a, b, ha, hb, hbins, _⟩ := binItems_of_isTogglePair h
    have hbranch : s.type = .branch := by
      simp only [isTogglePair, decide_eq_true_eq] at h
      exact h.1
    rw [isTogglePair, ht, restored_scopes_of_isTogglePair parent h, hn, hbins]
    simp [hbranch, ha, hb]
  case false =>
    rw [isTogglePair, ht, restored_scopes_of_not_isTogglePair parent h, hn,
      binItems_of_not_isTogglePair h, ← h, isTogglePair]
    simp

mutual

-- The items of the scopes that are read, one scope after the other.
theorem items_restored : (s : Scope) → (parent : Option ScopeData) →
    (s.restored parent).dfs.map (fun s => (s.isTogglePair, s.coverItems))
      = s.dfs.map fun s => (s.isTogglePair, s.binItems.map s.storedItem)
  | mk d is ss, parent => by
    rw [dfs_eq, dfs_eq (mk d is ss), List.map_cons, List.map_cons, isTogglePair_restored,
      restored_coverItems]
    refine congrArg (_ :: ·) ?_
    cases h : (mk d is ss).isTogglePair
    case true =>
      rw [restored_scopes_of_isTogglePair parent h, isTogglePair_scopes h]
      rfl
    case false =>
      rw [restored_scopes_of_not_isTogglePair parent h]
      exact itemsAll_restored ss (some d)

theorem itemsAll_restored : (ss : List Scope) → (parent : Option ScopeData) →
    (dfsAll (ss.map (restored parent))).map (fun s => (s.isTogglePair, s.coverItems))
      = (dfsAll ss).map fun s => (s.isTogglePair, s.binItems.map s.storedItem)
  | [],      parent => rfl
  | s :: ss, parent => by
    rw [List.map_cons, dfsAll, dfsAll, List.map_append, List.map_append, items_restored s,
      itemsAll_restored ss]

end

end Scope

namespace MemUCIS

-- The items of the bins, each with its scope, the position of the scope and its own position there.
def placedBins (db : MemUCIS) : List (Scope × Nat × Nat × CoverIndex) :=
  (db.dfsScopeList.mapIdx fun i s => s.binItems.mapIdx fun j ci => (s, i, j, ci)).flatten

variable {db : MemUCIS} {n i j : Nat} {s : Scope} {ci : CoverIndex}

theorem mem_placedBins_iff :
    (s, i, j, ci) ∈ db.placedBins ↔ db.dfsScopeList[i]? = some s ∧ s.binItems[j]? = some ci := by
  simp only [placedBins, List.mem_flatten, List.mem_mapIdx, List.getElem?_eq_some_iff]
  constructor
  case mp =>
    rintro ⟨_, ⟨i', hi, rfl⟩, hx⟩
    have ⟨j', hj, he⟩ := List.mem_mapIdx.mp hx
    cases he
    exact ⟨⟨hi, rfl⟩, hj, rfl⟩
  case mpr =>
    rintro ⟨⟨hi, rfl⟩, hj, rfl⟩
    exact ⟨_, ⟨i, hi, rfl⟩, List.mem_mapIdx.mpr ⟨j, hj, rfl⟩⟩

-- Where all bins are in the order of the items, they are told by the same places.
theorem placedItems_of_canonical (h : ∀ s ∈ db.dfsScopeList, s.binItems = s.coverItems) :
    db.placedItems = db.placedBins.map fun (s, i, j, ci) => (s.isTogglePair, i, j, ci) := by
  rw [placedItems, placedBins, List.map_flatten, map_mapIdx]
  refine congrArg List.flatten <| List.mapIdx_eq_mapIdx_iff.mpr fun i hi => ?_
  rw [h _ (List.getElem_mem hi), map_mapIdx]
  rfl

end MemUCIS

namespace Scope

mutual

theorem paths_restored : (s : Scope) → (parent : Option ScopeData) → (above : List String) →
    (s.restored parent).paths above = s.paths above
  | mk d is ss, parent, above => by
    have hn : ∀ parent : Option ScopeData, (d.restored parent).name = d.name := by
      intro parent
      cases parent
      case none => rfl
      case some =>
        simp only [ScopeData.restored]
        split <;> rfl
    rw [restored]
    split
    case isTrue ht =>
      have hs : ss = [] := isTogglePair_scopes ht
      rw [ScopeTreeReader.togglePair, paths, paths, hs]
    case isFalse =>
      rw [paths, paths, hn, restoredAll_eq_map, pathsAll_restored ss]

theorem pathsAll_restored : (ss : List Scope) → (parent : Option ScopeData) → (above : List String) →
    pathsAll above (ss.map (restored parent)) = pathsAll above ss
  | [],      parent, above => rfl
  | s :: ss, parent, above => by
    rw [List.map_cons, pathsAll, pathsAll, paths_restored s, pathsAll_restored ss]

end

-- The bins of a scope that is read are in the order of its items.
theorem binItems_of_names {s : Scope}
    (h : s.isTogglePair → s.coverItems.map (·.name) = [toggleBin0To1, toggleBin1To0]) :
    s.binItems = s.coverItems := by
  cases ht : s.isTogglePair
  case false => exact binItems_of_not_isTogglePair ht
  case true  =>
    have hne : toggleBin0To1 ≠ toggleBin1To0 := by decide
    have ⟨a, b, hs, ha, hb⟩ := pair_of_names (h ht)
    rw [binItems, if_pos ht]
    simp [hs, ha, hb, hne, hne.symm]

theorem names_binItems_of_isTogglePair {s : Scope} (h : s.isTogglePair) :
    s.binItems.map (·.name) = [toggleBin0To1, toggleBin1To0] := by
  have ⟨a, b, ha, hb, hs, _⟩ := binItems_of_isTogglePair h
  rw [hs, List.map_cons, List.map_cons, ha, hb]
  rfl

end Scope

namespace MemUCIS

theorem placedItems_eq (db : MemUCIS) : db.placedItems = ((db.dfsScopeList.map fun s =>
    (s.isTogglePair, s.coverItems)).mapIdx fun i (b, cis) => cis.mapIdx fun j ci => (b, i, j, ci)).flatten := by
  rw [mapIdx_map]
  rfl

-- The places of items that are those of another database as the file holds them.
theorem placedItems_of_items {db raw : MemUCIS} (h : raw.dfsScopeList.map (fun s => (s.isTogglePair, s.coverItems))
    = db.dfsScopeList.map fun s => (s.isTogglePair, s.binItems.map s.storedItem)) :
    raw.placedItems = db.placedBins.map fun (s, i, j, ci) => (s.isTogglePair, i, j, s.storedItem ci) := by
  rw [placedItems_eq, h, mapIdx_map, placedBins, List.map_flatten, map_mapIdx]
  simp only [mapIdx_map, map_mapIdx]

theorem flatBins_eq (db : MemUCIS) : db.flatBins = ((Scope.pathsAll [] db.scopes).zip
    (db.dfsScopeList.map fun s => s.binItems.map (·.name))).flatMap fun (path, names) => names.map (path, ·) := by
  rw [flatBins, List.zip_map_right, List.flatMap_map]
  simp only [Prod.map_fst, Prod.map_snd, List.map_map]
  rfl

end MemUCIS

namespace NcdbReader.Read

variable {accel : Bool} {db db' : LoadedUCIS} {v2 : Option V2Members} {out : Archive}

-- Reading what was written of a database that was built through the interface.
structure Rewritten (db : MemUCIS) (out : Archive) (db' : MemUCIS) : Prop where
  items    : db'.placedBins.map (fun (s, i, j, ci) => (s.isTogglePair, i, j, ci))
    = db.placedBins.mapIdx fun n (s, i, j, ci) =>
        (s.isTogglePair, i, j, readItem out s.isTogglePair n i j (s.storedItem ci))
  paths    : Scope.pathsAll [] db'.scopes = Scope.pathsAll [] db.scopes
  flatBins : db'.flatBins = db.flatBins

theorem rewritten (rd : Read out none db') (w : NcdbWriter.Written accel db v2 out)
    (hb : Scope.BuiltAll none db.scopes) : Rewritten db.toMemUCIS out db'.toMemUCIS := by
  have hraw : rd.raw.dfsScopeList = Scope.dfsAll (db.scopes.map (Scope.restored none)) :=
    congrArg Scope.dfsAll (w.scopes_read rd hb)
  have hr : MemUCIS.Replaced (readItem out) rd.raw db'.toMemUCIS :=
    rd.members ▸ replaced_applyMembers out _
  have hitems := Scope.itemsAll_restored db.scopes none
  rw [← hraw] at hitems
  have hnodes : db'.dfsScopeList.map (·.binNode)
      = db.dfsScopeList.map fun s => (s.isTogglePair, s.binItems.map (·.name)) := by
    have hn := congrArg (List.map fun p : Bool × List CoverIndex => (p.fst, p.snd.map (·.name))) hitems
    simp only [List.map_map, Function.comp_def, Scope.name_storedItem] at hn
    exact hr.nodes.trans hn
  have hcanonical : ∀ s ∈ db'.dfsScopeList, s.binItems = s.coverItems := by
    intro s' hs'
    have hm := hnodes ▸ List.mem_map_of_mem (f := Scope.binNode) hs'
    obtain ⟨s, _, he⟩ := List.mem_map.mp hm
    obtain ⟨hp, hn⟩ := Prod.mk.inj he
    refine Scope.binItems_of_names fun ht => ?_
    rw [← hn]
    exact Scope.names_binItems_of_isTogglePair (hp.trans ht)
  have hpaths : Scope.pathsAll [] db'.scopes = Scope.pathsAll [] db.scopes := by
    rw [hr.paths]
    exact (congrArg _ (w.scopes_read rd hb)).trans (Scope.pathsAll_restored ..)
  refine ⟨?_, hpaths, ?_⟩
  · rw [← MemUCIS.placedItems_of_canonical hcanonical, hr.items, mapPlaced,
      MemUCIS.placedItems_of_items hitems, mapIdx_map]
  · have hnames : db'.dfsScopeList.map (fun s => s.binItems.map (·.name))
        = db.dfsScopeList.map fun s => s.binItems.map (·.name) := by
      have hn := congrArg (List.map Prod.snd) hnodes
      simp only [List.map_map, Function.comp_def] at hn
      rw [← hn]
      exact List.map_congr_left fun s hs => by rw [hcanonical s hs]; rfl
    rw [MemUCIS.flatBins_eq, MemUCIS.flatBins_eq, hnames, hpaths]

end NcdbReader.Read
