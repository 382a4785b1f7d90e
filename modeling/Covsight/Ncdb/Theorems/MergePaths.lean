import Covsight.Ncdb.NcdbMerger
import Covsight.Ncdb.Theorems.MergeHistory
import Covsight.Ncdb.Theorems.NcdbReader

-- What a merge keeps besides counts, on the path for one schema and on the path for several.

-- The fields of a history node; its attributes have a member of their own.
def HistoryNode.fields (hn : HistoryNode) : HistoryNode :=
  { hn with attributes := ∅ }

theorem NcdbReader.readHistory_fields (a : Archive) :
    (readHistory a).map HistoryNode.fields = createdNodes a := by
  apply List.ext_getElem?
  intro p
  rw [List.getElem?_map, readHistory_getElem?, Option.map_map, createdNodes, List.getElem?_map,
    Option.map_map]
  rfl

namespace NcdbMerger

open NcdbReader
open NcdbWriter (Written write_ok)

variable {accel allow : Bool} {node : HistoryNode} {date : Int} {sources : List Archive}
variable {out : Archive}

-- Whether a merge takes the path for one schema.
def takesSameSchema : List Archive → Bool
  | []            => false
  | first :: rest => sameSchema first rest

theorem mapM_read {dbs : Archive → LoadedUCIS} (h : ∀ a ∈ sources, read a = .ok (dbs a)) :
    sources.mapM (read · none) = .ok (sources.map dbs) := by
  induction sources
  case nil => rfl
  case cons a sources hi =>
    rw [List.mapM_cons, h a (.head _), hi fun a ha => h a (.tail _ ha)]
    rfl

-- What a successful merge of any schemas went through.
structure CrossMerged (accel : Bool) (node : HistoryNode) (date : Int) (dbs : List MemUCIS)
    (out : Archive) where
  db      : MemUCIS
  merged  : crossSchemaDb node date dbs = .ok db
  written : Written accel { toMemUCIS := db } none out

theorem mergeCrossSchema_ok {dbs : Archive → LoadedUCIS}
    (hr : ∀ a ∈ sources, read a = .ok (dbs a))
    (h : mergeCrossSchema accel node date sources = .ok out) :
    Nonempty (CrossMerged accel node date (sources.map fun a => (dbs a).toMemUCIS) out) := by
  rw [mergeCrossSchema, mapM_read hr] at h
  have ⟨db, hm, h⟩ := bind_ok (m := crossSchemaDb node date ((sources.map dbs).map (·.toMemUCIS))) h
  have ⟨written⟩ := write_ok h
  exact ⟨{ db, written, merged := by rwa [List.map_map] at hm }⟩

-- The nodes that the path for several schemas writes: the ones copied with the databases, the ones
-- added once more and the merge node.
def crossNodes (node : HistoryNode) (date : Int) (dbs : List MemUCIS) : List HistoryNode :=
  (dbs.flatMap (·.historyNodes)).map DbMerger.mergeHistoryNode ++
    ((dbs.flatMap (storedNodes ·.historyNodes)).map (readdedNode date) ++ [addedMergeNode date node])

theorem crossSchemaDb_historyNodes {dbs : List MemUCIS} {db : MemUCIS}
    (h : crossSchemaDb node date dbs = .ok db) : db.historyNodes = crossNodes node date dbs := by
  have ⟨db', hm, h⟩ := bind_ok h
  have ⟨⟨scopes, files⟩, _, hm⟩ := bind_ok hm
  cases h
  cases hm
  rw [historyNodes_createHistoryNodes, historyNodes_createHistoryNodes,
    historyNodes_createFileHandles]
  rfl

section Kinds

variable {kind : HistoryNodeKind} {nodes : List HistoryNode}

theorem mem_storedNodes {hn : HistoryNode} :
    hn ∈ storedNodes nodes ↔ hn ∈ nodes ∧ (hn.kind = some .test ∨ hn.kind = some .merge) := by
  rw [storedNodes, historyNodesOf_eq (by simp), historyNodesOf_eq (by simp)]
  simp only [List.mem_append, List.mem_filter, decide_eq_true_eq]
  tauto

-- The nodes of the two kinds that are stored are all stored.
theorem count_storedNodes (hk : kind = .test ∨ kind = .merge) :
    ((storedNodes nodes).map (·.kind)).count (some kind) = (nodes.map (·.kind)).count (some kind) := by
  rw [storedNodes, historyNodesOf_eq (by simp), historyNodesOf_eq (by simp)]
  induction nodes
  case nil => rfl
  case cons hn nodes hi =>
    simp only [List.map_append, List.count_append] at hi ⊢
    rw [List.map_cons, List.count_cons, ← hi]
    by_cases ht : hn.kind = some .test
    case pos =>
      cases hk
      case inl hk => simp [ht, hk]; omega
      case inr hk => simp [ht, hk]
    case neg =>
      by_cases hm : hn.kind = some .merge
      case pos => cases hk <;> simp [*, Nat.add_assoc]
      case neg => cases hk <;> simp [*]

theorem count_flatMap_storedNodes (hk : kind = .test ∨ kind = .merge) (dbs : List MemUCIS) :
    ((dbs.flatMap (storedNodes ·.historyNodes)).map (·.kind)).count (some kind)
      = ((dbs.flatMap (·.historyNodes)).map (·.kind)).count (some kind) := by
  simp only [List.map_flatMap, List.count_flatMap]
  refine congrArg List.sum <| List.map_congr_left fun db _ => count_storedNodes hk

-- A node of a kind that is stored is in the merged database twice.
theorem count_crossNodes (hk : kind = .test ∨ kind = .merge) (hn : node.kind = some .merge)
    (dbs : List MemUCIS) :
    ((crossNodes node date dbs).map (·.kind)).count (some kind)
      = 2 * ((dbs.flatMap (·.historyNodes)).map (·.kind)).count (some kind) +
        [some HistoryNodeKind.merge].count (some kind) := by
  have hc : ∀ nodes : List HistoryNode,
      (nodes.map DbMerger.mergeHistoryNode).map (·.kind) = nodes.map (·.kind) := by
    intro nodes
    rw [List.map_map]
    rfl
  have hr : ∀ nodes : List HistoryNode,
      (nodes.map (readdedNode date)).map (·.kind) = nodes.map (·.kind) := by
    intro nodes
    rw [List.map_map]
    rfl
  rw [crossNodes, List.map_append, List.map_append, hc, hr, List.count_append, List.count_append,
    count_flatMap_storedNodes hk, List.map_singleton, addedMergeNode, hn]
  omega

end Kinds

theorem kind_reread_store {hn : HistoryNode} {kind : HistoryNodeKind} (h : hn.kind = some kind) :
    hn.store.reread.kind = some kind := by
  simp [HistoryNode.reread, HistoryNode.store, h]

theorem kinds_reread_store (nodes : List HistoryNode) :
    ((storedNodes nodes).map fun hn => hn.store.reread).map (·.kind)
      = (storedNodes nodes).map (·.kind) := by
  rw [List.map_map]
  refine List.map_congr_left fun hn hm => ?_
  cases (mem_storedNodes.mp hm).2
  case inl hk => exact (kind_reread_store hk).trans hk.symm
  case inr hk => exact (kind_reread_store hk).trans hk.symm

-- The history of all sources, with a merge node after it.
def HistoryOnce (sources merged : List HistoryNode) : Prop :=
  ∃ node : HistoryNode, node.kind = some .merge ∧
    merged.map HistoryNode.fields = sources.map HistoryNode.fields ++ [node]

theorem HistoryOnce.length {sources merged : List HistoryNode} (h : HistoryOnce sources merged) :
    merged.length = sources.length + 1 := by
  have ⟨_, _, he⟩ := h
  simpa using congrArg List.length he

-- The path for one schema takes over every node.
theorem mergeSameSchema_history {target : String} {names : List String} {first : Archive}
    {rest : List Archive} {db : LoadedUCIS} {dbs : Archive → LoadedUCIS}
    (hm : mergeSameSchema accel (mergeNode target names date) first rest = .ok out)
    (hr : ∀ a ∈ first :: rest, read a = .ok (dbs a)) (ho : read out = .ok db) :
    HistoryOnce ((first :: rest).flatMap fun a => (dbs a).historyNodes) db.historyNodes := by
  have ⟨m⟩ := mergeSameSchema_ok hm
  have ⟨rd⟩ := read_ok ho
  have hs : ∀ a ∈ first :: rest, ((dbs a).historyNodes).map HistoryNode.fields = createdNodes a := by
    intro a ha
    have ⟨rda⟩ := read_ok (hr a ha)
    rw [rda.historyNodes_eq, readHistory_fields]
  refine ⟨(mergeNode target names date).store.reread, rfl, ?_⟩
  rw [rd.historyNodes_eq, readHistory_fields, List.map_flatMap, List.flatMap_congr hs, createdNodes,
    m.history, mergedHistory, List.map_append, List.map_append, List.map_flatMap, List.map_flatMap,
    List.map_singleton, List.map_singleton]
  refine congrArg (· ++ _) <| List.flatMap_congr fun a _ => ?_
  rw [createdNodes, List.map_map]
  exact List.map_congr_left fun hn _ => by simp [HistoryNode.reread, HistoryNode.store]

section Twice

variable {dbs : List MemUCIS}

-- If the written history has every node once there are no nodes: they are counted twice.
theorem eq_nil_of_kinds (hn : node.kind = some .merge)
    (h : (storedNodes (crossNodes node date dbs)).map (·.kind)
      = (dbs.flatMap (·.historyNodes)).map (·.kind) ++ [some .merge]) :
    dbs.flatMap (·.historyNodes) = [] := by
  have hz : ∀ kind, kind = .test ∨ kind = .merge →
      some kind ∉ (dbs.flatMap (·.historyNodes)).map (·.kind) := by
    intro kind hk
    have hc := congrArg (List.count (some kind)) h
    rw [count_storedNodes hk, count_crossNodes hk hn, List.count_append] at hc
    exact List.count_eq_zero.mp (by omega)
  refine List.eq_nil_iff_forall_not_mem.mpr fun hn hm => ?_
  have hk := List.mem_map_of_mem (f := fun hn : HistoryNode => hn.kind) hm
  have ⟨hn', hm', he⟩ := List.mem_map.mp (h ▸ List.mem_append_left _ hk)
  cases (mem_storedNodes.mp hm').2
  case inl ht => exact hz .test (.inl rfl) <| ht ▸ he ▸ hk
  case inr ht => exact hz .merge (.inr rfl) <| ht ▸ he ▸ hk

theorem storedNodes_crossNodes_nil (hn : node.kind = some .merge)
    (h : dbs.flatMap (·.historyNodes) = []) :
    storedNodes (crossNodes node date dbs) = [addedMergeNode date node] := by
  have hs : dbs.flatMap (storedNodes ·.historyNodes) = [] := by
    simp only [List.flatMap_eq_nil_iff] at h ⊢
    intro db hm
    rw [h db hm]
    rfl
  rw [crossNodes, h, hs]
  simp [storedNodes, historyNodesOf, addedMergeNode, hn]

end Twice

-- The path for several schemas writes every node twice.
theorem mergeCrossSchema_history {db : LoadedUCIS} {dbs : Archive → LoadedUCIS}
    (hn : node.kind = some .merge) (hm : mergeCrossSchema accel node date sources = .ok out)
    (hr : ∀ a ∈ sources, read a = .ok (dbs a)) (ho : read out = .ok db) :
    HistoryOnce (sources.flatMap fun a => (dbs a).historyNodes) db.historyNodes ↔
    (sources.flatMap fun a => (dbs a).historyNodes) = [] := by
  obtain ⟨m⟩ := mergeCrossSchema_ok hr hm
  obtain ⟨rd⟩ := read_ok ho
  have hf : (sources.map fun a => (dbs a).toMemUCIS).flatMap (·.historyNodes)
      = sources.flatMap fun a => (dbs a).historyNodes := List.flatMap_map ..
  have hh : db.historyNodes.map HistoryNode.fields
      = (storedNodes (crossNodes node date (sources.map fun a => (dbs a).toMemUCIS))).map
        fun hn => hn.store.reread := by
    rw [rd.historyNodes_eq, readHistory_fields, createdNodes, m.written.history,
      crossSchemaDb_historyNodes m.merged, List.map_map]
    rfl
  rw [HistoryOnce, hh, ← hf]
  generalize sources.map (fun a => (dbs a).toMemUCIS) = dbs
  constructor
  · rintro ⟨merge, hk, he⟩
    have hks := congrArg (List.map (·.kind)) he
    rw [kinds_reread_store, List.map_append, List.map_map, List.map_singleton, hk] at hks
    exact eq_nil_of_kinds hn hks
  · intro he
    refine ⟨(addedMergeNode date node).store.reread, kind_reread_store hn, ?_⟩
    rw [storedNodes_crossNodes_nil hn he, he]
    rfl

-- The merged history has every node of the sources once if the path for one schema is taken, and on
-- the other path only if there is no node.
theorem merge_history_iff {target : String} {names : List String} {db : LoadedUCIS}
    {dbs : Archive → LoadedUCIS}
    (hm : merge accel target names date allow sources = .ok out)
    (hr : ∀ a ∈ sources, read a = .ok (dbs a)) (ho : read out = .ok db) :
    HistoryOnce (sources.flatMap fun a => (dbs a).historyNodes) db.historyNodes ↔
    takesSameSchema sources ∨ ∀ a ∈ sources, a.history = [] := by
  cases sources
  case nil => cases hm
  case cons first rest =>
    rw [merge] at hm
    split at hm
    case isTrue hs => exact iff_of_true (mergeSameSchema_history hm hr ho) (.inl hs)
    case isFalse hs =>
      split at hm
      case isFalse => cases hm
      case isTrue =>
        rw [mergeCrossSchema_history rfl hm hr ho, List.flatMap_eq_nil_iff, takesSameSchema,
          or_iff_right hs]
        refine forall₂_congr fun a ha => ?_
        obtain ⟨rd⟩ := read_ok (hr a ha)
        rw [← List.length_eq_zero_iff, rd.historyNodes_eq, readHistory_length,
          List.length_eq_zero_iff]

-- Two runs of one design, and a run of a design with a block.
def smokeRun : Archive where
  counts    := some []
  manifest  := { schemaHash := .sha256v2 [] [] }
  strings   := []
  scopeTree := []
  history   := [{ logicalName := "smoke", kind := some .test }]

def nightlyRun : Archive :=
  { smokeRun with history := [{ logicalName := "nightly", kind := some .test }] }

def blockTree : List ScopeRecord :=
  [.regular { type := .block, nameRef := 0 } [] []]

def changedRun : Archive :=
  { nightlyRun with
    manifest  := { schemaHash := .sha256v2 blockTree ["top"] }
    strings   := ["top"]
    scopeTree := blockTree
  }

theorem merge_history_once : ∃ out db db₁ db₂,
    merge false "out.cdb" ["a.cdb", "b.cdb"] 0 true [smokeRun, nightlyRun] = .ok out ∧
    read out = .ok db ∧ read smokeRun = .ok db₁ ∧ read nightlyRun = .ok db₂ ∧
    HistoryOnce (db₁.historyNodes ++ db₂.historyNodes) db.historyNodes := by
  have ⟨db₁, h₁⟩ : ∃ db, read smokeRun = .ok db := ⟨_, rfl⟩
  have ⟨db₂, h₂⟩ : ∃ db, read nightlyRun = .ok db := ⟨_, rfl⟩
  have ⟨out, hm⟩ : ∃ out,
      merge false "out.cdb" ["a.cdb", "b.cdb"] 0 true [smokeRun, nightlyRun] = .ok out := ⟨_, rfl⟩
  have ⟨db, ho⟩ : ∃ db, read out = .ok db := by cases hm; exact ⟨_, rfl⟩
  have hr : ∀ a ∈ [smokeRun, nightlyRun],
      read a = .ok (if a.history = smokeRun.history then db₁ else db₂) := by
    intro a ha
    cases List.mem_pair.mp ha
    case inl ha => rw [ha]; exact h₁
    case inr ha => rw [ha]; exact h₂
  refine ⟨out, db, db₁, db₂, hm, ho, h₁, h₂, ?_⟩
  have hn : db₁.historyNodes ++ db₂.historyNodes = [smokeRun, nightlyRun].flatMap
      fun a => (if a.history = smokeRun.history then db₁ else db₂).historyNodes := by
    simp [smokeRun, nightlyRun]
  rw [hn]
  exact (merge_history_iff hm hr ho).mpr (.inl (by decide))

theorem merge_history_doubled : ∃ out db db₁ db₂,
    merge false "out.cdb" ["a.cdb", "b.cdb"] 0 true [smokeRun, changedRun] = .ok out ∧
    read out = .ok db ∧ read smokeRun = .ok db₁ ∧ read changedRun = .ok db₂ ∧
    db.historyNodes.map (·.logicalName) = ["smoke", "nightly", "smoke", "nightly", "out.cdb"] ∧
    ¬HistoryOnce (db₁.historyNodes ++ db₂.historyNodes) db.historyNodes := by
  have ⟨out, db, db₁, db₂, hm, ho, h₁, h₂, hl, hn⟩ : ∃ out db db₁ db₂,
      merge false "out.cdb" ["a.cdb", "b.cdb"] 0 true [smokeRun, changedRun] = .ok out ∧
      read out = .ok db ∧ read smokeRun = .ok db₁ ∧ read changedRun = .ok db₂ ∧
      (db₁.historyNodes ++ db₂.historyNodes).length = 2 ∧
      db.historyNodes.map (·.logicalName) = ["smoke", "nightly", "smoke", "nightly", "out.cdb"] :=
    ⟨_, _, _, _, rfl, rfl, rfl, rfl, rfl, rfl⟩
  refine ⟨out, db, db₁, db₂, hm, ho, h₁, h₂, hn, fun h => ?_⟩
  have hs := congrArg List.length hn
  rw [List.length_map, h.length, hl] at hs
  cases hs

end NcdbMerger
