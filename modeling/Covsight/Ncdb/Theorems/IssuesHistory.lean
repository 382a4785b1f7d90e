import Covsight.Ncdb.Theorems.HistoryLayout

-- The log of the states of issues is read as it was recorded.

namespace IssueHistory

open StringTable (utf8)

-- The transitions of an issue in the order of their times, and those at one time as they were recorded.
def history (log : List (String × Transition)) (issueId : String) : List Transition :=
  ((log.filter (·.fst = issueId)).map (·.snd)).insertionSort Transition.before

-- The state set by the last transition that is no later.
def stateOf (log : List (String × Transition)) (issueId : String) (ts : Int) : Option Int :=
  (((history log issueId).filter (·.ts ≤ ts)).getLast?).map (·.newState)

namespace IssueHistoryWriter

def ofLog (log : List (String × Transition)) : IssueHistoryWriter :=
  log.foldl (fun w e => w.add e.fst e.snd) {}

variable {w : IssueHistoryWriter} {log : List (String × Transition)} {id : String}

theorem transitions_ofLog (log : List (String × Transition)) :
    (ofLog log).transitions = Dict.upserts (fun ts t => ts.getD [] ++ [t]) ∅ log := by
  have hfold (w : IssueHistoryWriter) : (log.foldl (fun w e => w.add e.fst e.snd) w).transitions =
      w.transitions.upserts (fun ts t => ts.getD [] ++ [t]) log := by
    induction log generalizing w
    case nil           => rfl
    case cons e log hi => exact hi (w.add e.fst e.snd)
  exact hfold {}

theorem getD_transitions_ofLog (log : List (String × Transition)) (id : String) :
    ((ofLog log).transitions.get? id).getD [] = (log.filter (·.fst = id)).map (·.snd) := by
  rw [transitions_ofLog, Dict.getD_upserts_append]

theorem sortedTransitions_ofLog (log : List (String × Transition)) (id : String) :
    (ofLog log).sortedTransitions id = history log id :=
  congrArg (List.insertionSort Transition.before) (getD_transitions_ofLog log id)

theorem mem_sortedIds : id ∈ w.sortedIds ↔ id ∈ w.transitions :=
  (List.perm_insertionSort _ _).mem_iff

theorem nodup_sortedIds (w : IssueHistoryWriter) : w.sortedIds.Nodup :=
  (List.perm_insertionSort _ _).nodup_iff.mpr w.transitions.keys_nodup

theorem sortedTransitions_of_not_mem (h : id ∉ w.sortedIds) : w.sortedTransitions id = [] := by
  have hn := Dict.get?_eq_none_iff.mpr <| mem_sortedIds.not.mp h
  rw [sortedTransitions, hn]
  rfl

-- All transitions as they are laid out.
def laidOut (w : IssueHistoryWriter) (ids : List String) : List Transition :=
  ids.flatMap w.sortedTransitions

section Rows

variable {ids : List String} {i : Nat}

theorem laidOut_cons (w : IssueHistoryWriter) (id : String) (ids : List String) :
    w.laidOut (id :: ids) = w.sortedTransitions id ++ w.laidOut ids :=
  List.flatMap_cons

-- A column has an entry of each transition.
theorem map_rowsFrom {β : Type} {f : Row → β} {g : Transition → β}
    (h : ∀ i t, f ⟨i, t.ts, t.newState, w.commentIdx t.comment⟩ = g t) (i : Nat) (ids : List String) :
    (w.rowsFrom i ids).map f = (w.laidOut ids).map g := by
  induction ids generalizing i
  case nil            => rfl
  case cons id ids hi =>
    rw [rowsFrom, List.map_append, List.map_map, hi, laidOut_cons, List.map_append]
    exact congrArg (· ++ _) (List.map_congr_left fun t _ => h i t)

theorem length_rowsFrom (w : IssueHistoryWriter) (i : Nat) (ids : List String) :
    (w.rowsFrom i ids).length = (w.laidOut ids).length := by
  simpa using congrArg List.length (map_rowsFrom (fun _ _ => rfl) i ids : (w.rowsFrom i ids).map Row.ts = _)

theorem issueIndexFrom_eq (w : IssueHistoryWriter) (i start : Nat) (ids : List String) :
    w.issueIndexFrom i start ids = groupIndexFrom i start (ids.map w.sortedTransitions) := by
  induction ids generalizing i start
  case nil            => rfl
  case cons id ids hi => rw [issueIndexFrom, hi, List.map_cons, groupIndexFrom]

-- The rows of one issue go on from the last one.
theorem deltasFrom_append (w : IssueHistoryWriter) {base : Int} {prev : Dict Nat Int} {t₀ : Int}
    (rest : List Row) (ts : List Transition) (h : (prev.get? i).getD base = t₀) : ∃ prev', (∀ j, j ≠ i → prev'.get? j = prev.get? j) ∧
    deltasFrom base prev (ts.map (fun t => ⟨i, t.ts, t.newState, w.commentIdx t.comment⟩) ++ rest) =
      differences t₀ (ts.map Transition.ts) ++ deltasFrom base prev' rest := by
  induction ts generalizing prev t₀
  case nil          => exact ⟨prev, fun _ _ => rfl, rfl⟩
  case cons t ts hi =>
    have ht : ((prev.set i t.ts).get? i).getD base = t.ts := by rw [Dict.get?_set_self, Option.getD_some]
    have ⟨prev', hp, hd⟩ := hi ht
    refine ⟨prev', fun j hj => (hp j hj).trans (Dict.get?_set_of_ne hj.symm _ _), ?_⟩
    rw [List.map_cons, List.cons_append, deltasFrom, h, hd, List.map_cons, differences, List.cons_append]

theorem deltasFrom_rowsFrom (w : IssueHistoryWriter) {base : Int} {prev : Dict Nat Int}
    (h : ∀ j, i ≤ j → prev.get? j = none) : deltasFrom base prev (w.rowsFrom i ids) =
      ids.flatMap fun id => differences base ((w.sortedTransitions id).map Transition.ts) := by
  induction ids generalizing i prev
  case nil            => rfl
  case cons id ids hi =>
    have ⟨prev', hp, hd⟩ := deltasFrom_append w (w.rowsFrom (i + 1) ids) (w.sortedTransitions id)
      (congrArg (Option.getD · base) (h i (Nat.le_refl i)))
    rw [rowsFrom, hd, List.flatMap_cons, hi fun j hj => (hp j (by omega)).trans (h j (by omega))]
    rfl

end Rows

-- Comments

-- Comments that are there.
def comments (ts : List Transition) : List String :=
  (ts.map (·.comment)).filter (· ≠ "")

theorem commentTable_eq (w : IssueHistoryWriter) : w.commentTable = internAll (comments (w.laidOut w.sortedIds)) :=
  foldl_wanted Transition.comment (· ≠ "") _ []

theorem mem_commentTable {comment : String} : comment ∈ w.commentTable ↔
    comment ≠ "" ∧ ∃ t ∈ w.laidOut w.sortedIds, t.comment = comment := by
  rw [commentTable_eq, mem_internAll_iff, comments, List.mem_filter, List.mem_map, decide_eq_true_iff, and_comm]

theorem nodup_commentTable (w : IssueHistoryWriter) : w.commentTable.Nodup :=
  commentTable_eq w ▸ nodup_internAll _

-- The writer lays the issues out in the order of their names.
def layout (w : IssueHistoryWriter) : Layout :=
  ⟨w.sortedIds, w.sortedTransitions, w.commentTable, w.tsBase⟩

-- A comment is found at its place in the table.
theorem commentIdx_spec {t : Transition} (ht : t ∈ w.laidOut w.sortedIds) (hl : w.commentTable.length < 2 ^ 16) :
    w.commentIdx t.comment < 2 ^ 16 ∧
    (if w.commentIdx t.comment ≠ noComment then w.commentTable[w.commentIdx t.comment]? else some "") =
      some t.comment :=
  w.layout.commentIdx_spec (fun hc => mem_commentTable.mpr ⟨hc, t, ht, rfl⟩) hl

-- Bytes

-- All numbers and lengths fit.
structure Packs (w : IssueHistoryWriter) : Prop where
  issues   : w.sortedIds.length < 2 ^ 16
  comments : w.commentTable.length < 2 ^ 16
  records  : (w.laidOut w.sortedIds).length < 2 ^ 32
  counts   : ∀ id ∈ w.sortedIds, (w.sortedTransitions id).length < 2 ^ 16
  ids      : ∀ id ∈ w.sortedIds, (utf8 id).length < 2 ^ 8
  texts    : ∀ s ∈ w.commentTable, (utf8 s).length < 2 ^ 8
  tsBase   : 0 ≤ w.tsBase ∧ w.tsBase < 2 ^ 32
  states   : ∀ t ∈ w.laidOut w.sortedIds, 0 ≤ t.newState ∧ t.newState < 2 ^ 8

theorem Packs.layout (h : w.Packs) : w.layout.Packs :=
  ⟨h.issues, h.comments, h.records, h.counts, h.ids, h.texts, h.tsBase, h.states⟩

def headerFields (w : IssueHistoryWriter) : List (Nat × Int) :=
  [(4, magic), (1, version), (2, w.sortedIds.length), (2, w.commentTable.length), (2, w.issueIndex.length),
    (4, w.allRows.length)]

def encodeTables (w : IssueHistoryWriter) : List UInt8 :=
  encodeFields w.headerFields ++ (w.sortedIds.flatMap encodeString ++ (w.commentTable.flatMap encodeString ++
    (w.issueIndex.flatMap (fun e => encodeFields (entryFields e)) ++ encodeFields [(4, w.tsBase)])))

def stateCol (w : IssueHistoryWriter) : List Nat :=
  (w.laidOut w.sortedIds).map fun t => t.newState.toNat

def commentCol (w : IssueHistoryWriter) : List Nat :=
  (w.laidOut w.sortedIds).map fun t => w.commentIdx t.comment

theorem length_allRows (w : IssueHistoryWriter) : w.allRows.length = (w.laidOut w.sortedIds).length :=
  length_rowsFrom w 0 w.sortedIds

theorem issueIndex_eq (w : IssueHistoryWriter) : w.issueIndex = w.layout.index :=
  issueIndexFrom_eq w 0 0 w.sortedIds

theorem length_issueIndex (w : IssueHistoryWriter) : w.issueIndex.length = w.sortedIds.length :=
  issueIndex_eq w ▸ w.layout.length_index

theorem headerFields_eq (w : IssueHistoryWriter) : w.headerFields = w.layout.headerFields := by
  rw [headerFields, issueIndex_eq, length_allRows]
  rfl

theorem encodeTables_eq (w : IssueHistoryWriter) : w.encodeTables = w.layout.encodeTables := by
  rw [encodeTables, headerFields_eq, issueIndex_eq]
  rfl

theorem packString_eq {s : String} (h : (utf8 s).length < 2 ^ 8) : packString s = some (encodeString s) := by
  have hp : Packable [(1, ((utf8 s).length : Int))] := by
    simp only [packable_cons, packable_nil, and_true]
    omega
  exact bind_of_eq_some (pack_of_packable hp) _

namespace Packs

theorem header (h : w.Packs) : Packable w.headerFields :=
  headerFields_eq w ▸ h.layout.header

theorem entries (h : w.Packs) : ∀ e ∈ w.issueIndex, Packable (entryFields e) :=
  issueIndex_eq w ▸ h.layout.entries

theorem packTables (h : w.Packs) : w.packTables = some w.encodeTables := by
  have hids : w.sortedIds.mapM packString = some (w.sortedIds.map encodeString) :=
    mapM_eq_some_iff.mpr <| List.forall₂_map_right_iff.mpr <| List.forall₂_same.mpr fun s hs =>
      packString_eq (h.ids s hs)
  have hcomments : w.commentTable.mapM packString = some (w.commentTable.map encodeString) :=
    mapM_eq_some_iff.mpr <| List.forall₂_map_right_iff.mpr <| List.forall₂_same.mpr fun s hs =>
      packString_eq (h.texts s hs)
  have hindex : w.issueIndex.mapM packEntry = some (w.issueIndex.map fun e => encodeFields (entryFields e)) :=
    mapM_pack fun e he => ⟨rfl, h.entries e he⟩
  have hbase : Packable [(4, w.tsBase)] := by
    have hb := h.tsBase
    simp only [packable_cons, packable_nil, and_true]
    omega
  refine (bind_of_eq_some (pack_of_packable h.header) _).trans ?_
  refine (bind_of_eq_some hids _).trans <| (bind_of_eq_some hcomments _).trans ?_
  refine (bind_of_eq_some hindex _).trans <| (bind_of_eq_some (pack_of_packable hbase) _).trans ?_
  simp only [encodeTables, List.flatMap_def, List.append_assoc]
  rfl

theorem commentCol_lt (h : w.Packs) : ∀ n ∈ w.commentCol, n < 256 ^ 2 :=
  List.forall_mem_map.mpr fun _ ht => (commentIdx_spec ht h.comments).left

theorem stateCol_lt (h : w.Packs) : ∀ n ∈ w.stateCol, n < 256 ^ 1 :=
  h.layout.stateCol_lt

theorem packColumns (h : w.Packs) : w.packColumns =
    some (w.stateCol.flatMap (encodeLe 1) ++ w.commentCol.flatMap (encodeLe 2)) := by
  have hstates : w.allRows.map (fun row => (1, row.state)) = w.stateCol.map fun n : Nat => (1, (n : Int)) := by
    rw [allRows, map_rowsFrom (g := fun t => (1, t.newState)) (fun _ _ => rfl), stateCol, List.map_map]
    refine List.map_congr_left fun t ht => ?_
    exact congrArg (Prod.mk 1) (Int.toNat_of_nonneg (h.states t ht).left).symm
  have hidxs : w.allRows.map (fun row => (2, (row.commentIdx : Int))) = w.commentCol.map fun n : Nat => (2, (n : Int)) := by
    rw [allRows, map_rowsFrom (g := fun t => (2, (w.commentIdx t.comment : Int))) (fun _ _ => rfl), commentCol,
      List.map_map]
    rfl
  rw [IssueHistoryWriter.packColumns, hstates, hidxs]
  exact (bind_of_eq_some (pack_map h.stateCol_lt) _).trans <| bind_of_eq_some (pack_map h.commentCol_lt) _

end Packs

-- Times

def times (w : IssueHistoryWriter) (id : String) : List Int :=
  (w.sortedTransitions id).map Transition.ts

def deltaCol (w : IssueHistoryWriter) : List Nat :=
  w.tsDeltas.map Int.toNat

def Timed (w : IssueHistoryWriter) : Prop :=
  ∀ t ∈ w.laidOut w.sortedIds, 0 ≤ t.ts ∧ t.ts < 2 ^ 32

theorem tsDeltas_eq (w : IssueHistoryWriter) :
    w.tsDeltas = w.sortedIds.flatMap fun id => differences w.tsBase (w.times id) :=
  deltasFrom_rowsFrom w fun j _ => Dict.get?_empty j

theorem length_tsDeltas (w : IssueHistoryWriter) : w.tsDeltas.length = (w.laidOut w.sortedIds).length := by
  simp only [tsDeltas_eq, laidOut, List.length_flatMap, length_differences, times, List.length_map]

theorem tsBase_le {t : Transition} (ht : t ∈ w.laidOut w.sortedIds) : w.tsBase ≤ t.ts := by
  have hm : t.ts ∈ w.allRows.map Row.ts := by
    rw [allRows, map_rowsFrom (g := Transition.ts) fun _ _ => rfl]
    exact List.mem_map_of_mem ht
  rw [tsBase]
  cases hmin : (w.allRows.map Row.ts).min? with
  | none   => exact absurd hm (List.min?_eq_none_iff.mp hmin ▸ List.not_mem_nil)
  | some m => exact (List.min?_eq_some_iff.mp hmin).right _ hm

theorem tsBase_mem (w : IssueHistoryWriter) : w.tsBase = 0 ∨ ∃ t ∈ w.laidOut w.sortedIds, t.ts = w.tsBase := by
  have hm : w.allRows.map Row.ts = (w.laidOut w.sortedIds).map Transition.ts := map_rowsFrom (fun _ _ => rfl) ..
  rw [tsBase, hm]
  cases hmin : ((w.laidOut w.sortedIds).map Transition.ts).min? with
  | none   => exact .inl rfl
  | some m => exact .inr <| List.mem_map.mp (List.min?_eq_some_iff.mp hmin).left

theorem mem_laidOut {t : Transition} (ht : t ∈ w.sortedTransitions id) : t ∈ w.laidOut w.sortedIds := by
  by_cases hid : id ∈ w.sortedIds
  case pos => exact List.mem_flatMap.mpr ⟨id, hid, ht⟩
  case neg => exact absurd (sortedTransitions_of_not_mem hid ▸ ht) List.not_mem_nil

-- From the base on the times of an issue ascend.
theorem pairwise_times (w : IssueHistoryWriter) (id : String) : (w.tsBase :: w.times id).Pairwise (· ≤ ·) := by
  refine List.pairwise_cons.mpr ⟨List.forall_mem_map.mpr fun t ht => tsBase_le (mem_laidOut ht), ?_⟩
  exact List.pairwise_map.mpr <| List.pairwise_insertionSort Transition.before _

theorem tsDeltas_nonneg (w : IssueHistoryWriter) : ∀ d ∈ w.tsDeltas, 0 ≤ d := by
  rw [tsDeltas_eq]
  intro d hd
  have ⟨id, _, hd⟩ := List.mem_flatMap.mp hd
  exact differences_nonneg (pairwise_times w id) d hd

namespace Timed

theorem tsBase (h : w.Timed) : 0 ≤ w.tsBase ∧ w.tsBase < 2 ^ 32 := by
  cases tsBase_mem w
  case inl hz => omega
  case inr hm =>
    have ⟨t, ht, he⟩ := hm
    exact he ▸ h t ht

theorem tsDeltas_lt (h : w.Timed) : ∀ d ∈ w.tsDeltas, d < 2 ^ 32 := by
  rw [tsDeltas_eq]
  intro d hd
  have ⟨id, _, hd⟩ := List.mem_flatMap.mp hd
  exact differences_lt h.tsBase.left (List.forall_mem_map.mpr fun t ht => h t (mem_laidOut ht)) d hd

end Timed

-- What the reader gets.

def encodeRaw (w : IssueHistoryWriter) : List UInt8 :=
  w.encodeTables ++ (w.deltaCol.flatMap encodeVarint ++
    (w.stateCol.flatMap (encodeLe 1) ++ w.commentCol.flatMap (encodeLe 2)))

theorem buildRaw_eq (h : w.Packs) (ht : w.Timed) (hl : (w.laidOut w.sortedIds).length < 2 ^ 27) (accel : Bool) :
    w.buildRaw accel = .value w.encodeRaw := by
  have hd : encodeVarints accel w.tsDeltas = .value (w.deltaCol.flatMap encodeVarint) := by
    refine encodeVarints_eq accel (fun d hd => ⟨tsDeltas_nonneg w d hd, ?_⟩) (by rw [length_tsDeltas]; omega)
    have := ht.tsDeltas_lt d hd
    omega
  rw [buildRaw, h.packTables, hd, h.packColumns]
  exact congrArg CallResult.value (List.append_assoc ..)

def reader (w : IssueHistoryWriter) : IssueHistoryReader where
  idTable      := w.sortedIds
  commentTable := w.commentTable
  issueIndex   := w.issueIndex
  idToIssueIdx := .ofList w.sortedIds.zipIdx
  tsBase       := w.tsBase
  tsDeltas     := w.deltaCol
  stateBytes   := w.stateCol
  commentIdxs  := w.commentCol

theorem deltaCol_eq (w : IssueHistoryWriter) : w.deltaCol = w.layout.deltaCol := by
  rw [deltaCol, tsDeltas_eq, List.map_flatMap]
  rfl

-- Each issue has its rows where the index says.
theorem rows_of_entry {before after : List String} (h : w.sortedIds = before ++ id :: after) :
    w.issueIndex[before.length]? =
      some (before.length, (before.map w.sortedTransitions).flatten.length, (w.sortedTransitions id).length) ∧
    Rows w.commentIdx w.deltaCol w.stateCol w.commentCol (before.map w.sortedTransitions).flatten.length w.tsBase
      (w.sortedTransitions id) := by
  rw [issueIndex_eq, deltaCol_eq]
  exact Layout.rows_of_entry (l := w.layout) h

theorem encodeRaw_eq (w : IssueHistoryWriter) : w.encodeRaw = w.layout.encode := by
  rw [encodeRaw, encodeTables_eq, deltaCol_eq]
  rfl

theorem reader_eq (w : IssueHistoryWriter) : w.reader = w.layout.reader := by
  rw [reader, issueIndex_eq, deltaCol_eq]
  rfl

theorem ordered_layout (w : IssueHistoryWriter) : w.layout.Ordered where
  nodup               := nodup_sortedIds w
  absent _ h          := sortedTransitions_of_not_mem h
  ascending           := pairwise_times w
  commented t ht hc   := mem_commentTable.mpr ⟨hc, t, ht, rfl⟩

theorem length_columns (w : IssueHistoryWriter) : w.deltaCol.length = (w.laidOut w.sortedIds).length ∧
    w.stateCol.length = (w.laidOut w.sortedIds).length ∧ w.commentCol.length = (w.laidOut w.sortedIds).length :=
  ⟨(List.length_map ..).trans (length_tsDeltas w), List.length_map .., List.length_map ..⟩

theorem Packs.length_encodeRaw_le (h : w.Packs) (ht : w.Timed) :
    w.encodeRaw.length ≤ 2 ^ 26 + 13 * (w.laidOut w.sortedIds).length := by
  have ⟨hd, hs, hc⟩ := length_columns w
  have htables : w.encodeTables.length ≤ 2 ^ 26 := encodeTables_eq w ▸ h.layout.length_encodeTables_le
  have hdeltas : (w.deltaCol.flatMap encodeVarint).length ≤ w.deltaCol.length * 10 := by
    refine length_flatMap_le <| List.forall_mem_map.mpr fun d hd => length_encodeVarint_le ?_
    have := ht.tsDeltas_lt d hd
    omega
  simp only [encodeRaw, List.length_append, List.length_flatMap, length_encodeLe, List.map_const',
    List.sum_replicate_nat] at hdeltas ⊢
  omega

theorem Packs.parse (h : w.Packs) (ht : w.Timed) (hl : (w.laidOut w.sortedIds).length < 2 ^ 27) (accel : Bool) :
    IssueHistoryReader.parse accel w.encodeRaw = .value w.reader := by
  have htimes : ∀ t ∈ w.layout.rows, t.ts < (2 ^ 64 : Nat) := fun t hm => by
    have := ht t hm
    omega
  rw [encodeRaw_eq, reader_eq]
  exact h.layout.parse (ordered_layout w) htimes accel fun _ => hl

end IssueHistoryWriter

end IssueHistory
