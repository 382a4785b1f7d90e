import Covsight.Lib.Columns
import Covsight.Ncdb.IssuesHistory
import Covsight.Ncdb.Theorems.BucketCodec
import Covsight.Ncdb.StringTable

-- The bytes of a log of issues, in whatever order the issues are laid out.

namespace IssueHistory

open StringTable (utf8)

instance : Std.Total Transition.before where
  total t t' := Int.le_total t.ts t'.ts

instance : IsTrans Transition Transition.before where
  trans _ _ _ := Int.le_trans

def entryFields : Nat × Nat × Nat → List (Nat × Int)
  | (idStrIdx, startRow, count) => [(2, idStrIdx), (4, startRow), (2, count)]

def encodeString (s : String) : List UInt8 :=
  encodeFields [(1, (utf8 s).length)] ++ utf8 s

theorem unpackString_encodeString {s : String} (h : (utf8 s).length < 2 ^ 8) (rest : List UInt8) :
    IssueHistoryReader.unpackString (encodeString s ++ rest) = some (s, rest) := by
  have hl : (0 : Int) ≤ (utf8 s).length ∧ ((utf8 s).length : Int) < 256 ^ 1 := by omega
  rw [encodeString, List.append_assoc]
  refine (bind_of_eq_some (decodeFixed_encodeFields hl _) _).trans ?_
  simp only [encodeFields_nil, Int.toNat_natCast, List.take_left, List.drop_left]
  exact bind_of_eq_some (StringTable.utf8Decode_utf8 s) _

theorem unpackEntry_encodeFields {e : Nat × Nat × Nat} (h : Packable (entryFields e)) (rest : List UInt8) :
    IssueHistoryReader.unpackEntry (encodeFields (entryFields e) ++ rest) = some (e, rest) := by
  simp only [entryFields, packable_cons] at h
  obtain ⟨hi, hs, hc, -⟩ := h
  refine (bind_of_eq_some (decodeFixed_encodeFields hi _) _).trans ?_
  refine (bind_of_eq_some (decodeFixed_encodeFields hs _) _).trans ?_
  exact bind_of_eq_some (decodeFixed_encodeFields hc _) _

theorem length_encodeString_le {s : String} (h : (utf8 s).length < 2 ^ 8) : (encodeString s).length ≤ 256 := by
  have hl : (encodeFields [(1, ((utf8 s).length : Int))]).length = 1 := rfl
  rw [encodeString, List.length_append, hl]
  omega

-- The rows of an issue from some place on are those of some transitions.
structure Rows (commentIdx : String → Nat) (deltas states comments : List Nat) (start : Nat) (prev : Int)
    (tl : List Transition) : Prop where
  deltas   : (differences prev (tl.map Transition.ts)).map Int.toNat <+: deltas.drop start
  states   : (tl.map fun t => t.newState.toNat) <+: states.drop start
  comments : (tl.map fun t => commentIdx t.comment) <+: comments.drop start

section Rows

variable {commentIdx : String → Nat} {deltas states comments : List Nat} {start : Nat} {prev : Int} {t : Transition}
  {tl : List Transition}

theorem Rows.head (h : Rows commentIdx deltas states comments start prev (t :: tl)) :
    deltas[start]? = some (t.ts - prev).toNat ∧ states[start]? = some t.newState.toNat ∧
    comments[start]? = some (commentIdx t.comment) :=
  have ⟨_, hd⟩ := h.deltas
  have ⟨_, hs⟩ := h.states
  have ⟨_, hc⟩ := h.comments
  ⟨getElem?_of_drop hd.symm, getElem?_of_drop hs.symm, getElem?_of_drop hc.symm⟩

theorem Rows.tail (h : Rows commentIdx deltas states comments start prev (t :: tl)) :
    Rows commentIdx deltas states comments (start + 1) t.ts tl :=
  have ⟨rest, hd⟩ := h.deltas
  have ⟨rest', hs⟩ := h.states
  have ⟨rest'', hc⟩ := h.comments
  ⟨⟨rest, (drop_succ_of_drop hd.symm).symm⟩, ⟨rest', (drop_succ_of_drop hs.symm).symm⟩,
    ⟨rest'', (drop_succ_of_drop hc.symm).symm⟩⟩

theorem IssueHistoryReader.iterRows_eq {reader : IssueHistoryReader} {id : String}
    (h : Rows commentIdx reader.tsDeltas reader.stateBytes reader.commentIdxs start prev tl)
    (hp : (prev :: tl.map Transition.ts).Pairwise (· ≤ ·))
    (hc : ∀ t ∈ tl, (if commentIdx t.comment ≠ noComment then reader.commentTable[commentIdx t.comment]? else some "") =
      some t.comment) :
    reader.iterRows id prev (List.range' start tl.length) =
      some (tl.map fun t => ⟨id, t.ts, t.newState.toNat, t.comment⟩) := by
  induction tl generalizing start prev
  case nil          => rfl
  case cons t tl hi =>
    have ⟨hd, hs, hcm⟩ := h.head
    have ⟨hle, hp⟩ := List.pairwise_cons.mp hp
    have ⟨hct, hc⟩ := List.forall_mem_cons.mp hc
    have hts : prev + (t.ts - prev).toNat = t.ts := by
      have := hle t.ts (.head _)
      omega
    rw [List.length_cons, List.range'_succ, iterRows]
    refine (bind_of_eq_some hd _).trans <| (bind_of_eq_some hs _).trans <| (bind_of_eq_some hcm _).trans ?_
    refine (bind_of_eq_some hct _).trans ?_
    simp only [hts, hi h.tail hp hc]
    rfl

end Rows

-- The transitions of an issue after those of the other.
structure Layout where
  ids      : List String
  rowsOf   : String → List Transition
  comments : List String
  tsBase   : Int

namespace Layout

section Columns

variable (l : Layout)

def rows : List Transition :=
  l.ids.flatMap l.rowsOf

def commentIdx (comment : String) : Nat :=
  if comment ≠ "" then l.comments.idxOf comment else noComment

def index : List (Nat × Nat × Nat) :=
  groupIndexFrom 0 0 (l.ids.map l.rowsOf)

def deltaCol : List Nat :=
  l.ids.flatMap fun id => (differences l.tsBase ((l.rowsOf id).map Transition.ts)).map Int.toNat

def stateCol : List Nat :=
  l.rows.map fun t => t.newState.toNat

def commentCol : List Nat :=
  l.rows.map fun t => l.commentIdx t.comment

def reader : IssueHistoryReader where
  idTable      := l.ids
  commentTable := l.comments
  issueIndex   := l.index
  idToIssueIdx := .ofList l.ids.zipIdx
  tsBase       := l.tsBase
  tsDeltas     := l.deltaCol
  stateBytes   := l.stateCol
  commentIdxs  := l.commentCol

def headerFields : List (Nat × Int) :=
  [(4, magic), (1, version), (2, l.ids.length), (2, l.comments.length), (2, l.index.length), (4, l.rows.length)]

def encodeTables : List UInt8 :=
  encodeFields l.headerFields ++ (l.ids.flatMap encodeString ++ (l.comments.flatMap encodeString ++
    (l.index.flatMap (fun e => encodeFields (entryFields e)) ++ encodeFields [(4, l.tsBase)])))

def encode : List UInt8 :=
  l.encodeTables ++ (l.deltaCol.flatMap encodeVarint ++
    (l.stateCol.flatMap (encodeLe 1) ++ l.commentCol.flatMap (encodeLe 2)))

theorem length_index : l.index.length = l.ids.length := by
  rw [index, length_groupIndexFrom, List.length_map]

theorem length_columns :
    l.deltaCol.length = l.rows.length ∧ l.stateCol.length = l.rows.length ∧ l.commentCol.length = l.rows.length := by
  refine ⟨?_, List.length_map .., List.length_map ..⟩
  simp only [deltaCol, rows, List.length_flatMap, List.length_map, length_differences]

end Columns

-- Every issue is there once, times ascend from the base, and the table has all comments.
structure Ordered (l : Layout) : Prop where
  nodup     : l.ids.Nodup
  absent    : ∀ id, id ∉ l.ids → l.rowsOf id = []
  ascending : ∀ id, (l.tsBase :: (l.rowsOf id).map Transition.ts).Pairwise (· ≤ ·)
  commented : ∀ t ∈ l.rows, t.comment ≠ "" → t.comment ∈ l.comments

-- All numbers and lengths fit.
structure Packs (l : Layout) : Prop where
  issues   : l.ids.length < 2 ^ 16
  comments : l.comments.length < 2 ^ 16
  records  : l.rows.length < 2 ^ 32
  counts   : ∀ id ∈ l.ids, (l.rowsOf id).length < 2 ^ 16
  ids      : ∀ id ∈ l.ids, (utf8 id).length < 2 ^ 8
  texts    : ∀ s ∈ l.comments, (utf8 s).length < 2 ^ 8
  tsBase   : 0 ≤ l.tsBase ∧ l.tsBase < 2 ^ 32
  states   : ∀ t ∈ l.rows, 0 ≤ t.newState ∧ t.newState < 2 ^ 8

variable {l : Layout} {id : String}

-- A comment is found at its place in the table.
theorem commentIdx_spec {comment : String} (hm : comment ≠ "" → comment ∈ l.comments) (hl : l.comments.length < 2 ^ 16) :
    l.commentIdx comment < 2 ^ 16 ∧
    (if l.commentIdx comment ≠ noComment then l.comments[l.commentIdx comment]? else some "") = some comment := by
  rw [commentIdx]
  by_cases hc : comment = ""
  case pos =>
    rw [if_neg (not_not_intro hc), if_neg (not_not_intro rfl), hc]
    exact ⟨by decide, rfl⟩
  case neg =>
    have hi := List.idxOf_lt_length_of_mem (hm hc)
    have hn : l.comments.idxOf comment ≠ noComment := by
      unfold noComment
      omega
    rw [if_pos hc, if_pos hn]
    exact ⟨by omega, List.getElem?_idxOf (hm hc)⟩

-- Each issue has its rows where the index says.
theorem rows_of_entry {before after : List String} (h : l.ids = before ++ id :: after) :
    l.index[before.length]? =
      some (before.length, (before.map l.rowsOf).flatten.length, (l.rowsOf id).length) ∧
    Rows l.commentIdx l.deltaCol l.stateCol l.commentCol (before.map l.rowsOf).flatten.length l.tsBase (l.rowsOf id) := by
  constructor
  case left =>
    have hg := groupIndexFrom_getElem? 0 0 (before.map l.rowsOf) (after.map l.rowsOf) (l.rowsOf id)
    rw [index, h, List.map_append, List.map_cons]
    simpa using hg
  case right =>
    constructor
    case deltas =>
      have hl : ∀ id, ((differences l.tsBase ((l.rowsOf id).map Transition.ts)).map Int.toNat).length =
          (l.rowsOf id).length := fun id => by rw [List.length_map, length_differences, List.length_map]
      have hd := drop_flatMap hl before after id
      rw [deltaCol, h, hd]
      exact List.prefix_append ..
    case states =>
      have hl : ∀ id, ((l.rowsOf id).map fun t => t.newState.toNat).length = (l.rowsOf id).length :=
        fun _ => List.length_map _
      have hd := drop_flatMap hl before after id
      rw [stateCol, rows, List.map_flatMap, h, hd]
      exact List.prefix_append ..
    case comments =>
      have hl : ∀ id, ((l.rowsOf id).map fun t => l.commentIdx t.comment).length = (l.rowsOf id).length :=
        fun _ => List.length_map _
      have hd := drop_flatMap hl before after id
      rw [commentCol, rows, List.map_flatMap, h, hd]
      exact List.prefix_append ..

theorem idToIssueIdx_of_mem (hn : l.ids.Nodup) (h : id ∈ l.ids) : ∃ entryIdx start,
    l.reader.idToIssueIdx.get? id = some entryIdx ∧
    l.index[entryIdx]? = some (entryIdx, start, (l.rowsOf id).length) ∧
    Rows l.commentIdx l.deltaCol l.stateCol l.commentCol start l.tsBase (l.rowsOf id) := by
  have ⟨before, after, hsplit⟩ := List.append_of_mem h
  have ⟨he, hr⟩ := rows_of_entry hsplit
  refine ⟨before.length, _, ?_, he, hr⟩
  exact (Dict.get?_ofList_zipIdx hn).mpr (by simp [hsplit])

theorem idToIssueIdx_of_not_mem (hn : l.ids.Nodup) (h : id ∉ l.ids) : l.reader.idToIssueIdx.get? id = none := by
  refine Option.eq_none_iff_forall_ne_some.mpr fun i hi => h ?_
  exact List.mem_of_getElem? <| (Dict.get?_ofList_zipIdx hn).mp hi

theorem mapM_groupIndex (f : String → List Transition) (start : Nat) (before ids : List String) :
    (groupIndexFrom before.length start (ids.map f)).mapM (fun (idStrIdx, _) => (before ++ ids)[idStrIdx]?) =
      some ids := by
  refine mapM_eq_some_iff.mpr ?_
  induction ids generalizing before start
  case nil            => exact .nil
  case cons id ids hi =>
    refine .cons (by simp) ?_
    have hi := hi (start + (f id).length) (before ++ [id])
    rwa [List.length_append, List.length_singleton, List.append_assoc, List.singleton_append] at hi

theorem Ordered.mem_rows (ho : l.Ordered) {t : Transition} (ht : t ∈ l.rowsOf id) : t ∈ l.rows := by
  by_cases hid : id ∈ l.ids
  case pos => exact List.mem_flatMap.mpr ⟨id, hid, ht⟩
  case neg => exact absurd (ho.absent id hid ▸ ht) List.not_mem_nil

theorem Ordered.historyForIssue (ho : l.Ordered) (hc : l.comments.length < 2 ^ 16) (id : String) :
    l.reader.historyForIssue id = some ((l.rowsOf id).map fun t => ⟨id, t.ts, t.newState.toNat, t.comment⟩) := by
  rw [IssueHistoryReader.historyForIssue]
  by_cases hid : id ∈ l.ids
  case pos =>
    have ⟨_, _, hidx, he, hr⟩ := idToIssueIdx_of_mem ho.nodup hid
    simp only [hidx]
    refine (bind_of_eq_some he _).trans ?_
    exact IssueHistoryReader.iterRows_eq hr (ho.ascending id) fun t ht =>
      (commentIdx_spec (ho.commented t (ho.mem_rows ht)) hc).right
  case neg =>
    simp only [idToIssueIdx_of_not_mem ho.nodup hid, ho.absent id hid, List.map_nil]

namespace Packs

-- Bytes

theorem header (h : l.Packs) : Packable l.headerFields := by
  have hi := h.issues
  have hc := h.comments
  have hr := h.records
  simp only [headerFields, packable_cons, packable_nil, and_true, magic, version, length_index]
  omega

theorem entries (h : l.Packs) : ∀ e ∈ l.index, Packable (entryFields e) := by
  intro e he
  have ⟨before, g, after, hg, he⟩ := mem_groupIndexFrom he
  have hl : before.length < l.ids.length := by
    have hl := congrArg List.length hg
    rw [List.length_map, List.length_append, List.length_cons] at hl
    omega
  have hf : before.flatten.length ≤ l.rows.length := by
    rw [rows, List.flatMap_def, hg, List.flatten_append, List.length_append]
    exact Nat.le_add_right ..
  have hc : g.length < 2 ^ 16 := by
    have ⟨id, hid, hs⟩ := List.mem_map.mp (hg ▸ List.mem_append_right _ (.head _) : g ∈ l.ids.map l.rowsOf)
    exact hs ▸ h.counts id hid
  have hi := h.issues
  have hr := h.records
  rw [he, entryFields]
  simp only [packable_cons, packable_nil, and_true]
  omega

theorem deltaCol_lt (h : l.Packs) (ho : l.Ordered) {bound : Nat} (ht : ∀ t ∈ l.rows, t.ts < bound) :
    ∀ d ∈ l.deltaCol, d < bound := by
  intro d hd
  have ⟨id, _, hd⟩ := List.mem_flatMap.mp hd
  have ⟨δ, hδ, he⟩ := List.mem_map.mp hd
  have hb := h.tsBase.left
  have hts : ∀ t ∈ (l.rowsOf id).map Transition.ts, 0 ≤ t ∧ t < bound := by
    refine List.forall_mem_map.mpr fun t hm => ⟨?_, ht t (ho.mem_rows hm)⟩
    exact Int.le_trans hb <| (List.pairwise_cons.mp (ho.ascending id)).left _ (List.mem_map_of_mem hm)
  have hlt := differences_lt hb hts δ hδ
  have hnonneg := differences_nonneg (ho.ascending id) δ hδ
  omega

theorem commentCol_lt (h : l.Packs) (ho : l.Ordered) : ∀ n ∈ l.commentCol, n < 256 ^ 2 :=
  List.forall_mem_map.mpr fun t ht => (commentIdx_spec (ho.commented t ht) h.comments).left

theorem stateCol_lt (h : l.Packs) : ∀ n ∈ l.stateCol, n < 256 ^ 1 :=
  List.forall_mem_map.mpr fun t ht => by
    have := h.states t ht
    omega

theorem parseTables (h : l.Packs) (rest : List UInt8) :
    IssueHistoryReader.parseTables (l.encodeTables ++ rest) = some ((l.rows.length,
      { l.reader with tsDeltas := [], stateBytes := [], commentIdxs := [] }), rest) := by
  have hhead := h.header
  simp only [headerFields, packable_cons] at hhead
  obtain ⟨hm, hv, hni, hnc, hnx, hnr, -⟩ := hhead
  have hb : 0 ≤ l.tsBase ∧ l.tsBase < 256 ^ 4 := h.tsBase
  have hguard : ∀ n : Nat, (guard ((n : Int).toNat = n) : Option Unit) = some () :=
    fun n => if_pos (Int.toNat_natCast n)
  have hids := decodeMany_flatMap fun s hs => unpackString_encodeString (h.ids s hs)
  have hcomments := decodeMany_flatMap fun s hs => unpackString_encodeString (h.texts s hs)
  have hindex := decodeMany_flatMap fun e he => unpackEntry_encodeFields (h.entries e he)
  have hlookup : l.index.mapM (fun (idStrIdx, _) => l.ids[idStrIdx]?) = some l.ids :=
    mapM_groupIndex l.rowsOf 0 [] l.ids
  rw [encodeTables, List.append_assoc, List.append_assoc, List.append_assoc, List.append_assoc]
  refine (bind_of_eq_some (decodeFixed_encodeFields hm _) _).trans ?_
  refine (bind_of_eq_some (decodeFixed_encodeFields hv _) _).trans ?_
  refine (bind_of_eq_some (decodeFixed_encodeFields hni _) _).trans ?_
  refine (bind_of_eq_some (decodeFixed_encodeFields hnc _) _).trans ?_
  refine (bind_of_eq_some (decodeFixed_encodeFields hnx _) _).trans ?_
  refine (bind_of_eq_some (decodeFixed_encodeFields hnr _) _).trans ?_
  refine (bind_of_eq_some (hguard magic) _).trans ?_
  refine (bind_of_eq_some (hguard version) _).trans ?_
  refine (bind_of_eq_some (hids _) _).trans ?_
  refine (bind_of_eq_some (hcomments _) _).trans ?_
  refine (bind_of_eq_some (hindex _) _).trans ?_
  refine (bind_of_eq_some hlookup _).trans ?_
  refine (bind_of_eq_some (decodeFixed_encodeFields hb _) _).trans ?_
  simp only [encodeFields_nil, Int.toNat_natCast, Int.toNat_of_nonneg hb.left]
  rfl

theorem length_encodeTables_le (h : l.Packs) : l.encodeTables.length ≤ 2 ^ 26 := by
  have hi := h.issues
  have hc := h.comments
  have hids : (l.ids.flatMap encodeString).length ≤ l.ids.length * 256 :=
    length_flatMap_le fun s hs => length_encodeString_le (h.ids s hs)
  have hcomments : (l.comments.flatMap encodeString).length ≤ l.comments.length * 256 :=
    length_flatMap_le fun s hs => length_encodeString_le (h.texts s hs)
  have hindex : (l.index.flatMap fun e => encodeFields (entryFields e)).length ≤ l.index.length * 8 :=
    length_flatMap_le fun _ _ => Nat.le_refl 8
  have hhead : (encodeFields l.headerFields).length = 15 := rfl
  have hbase : (encodeFields [(4, l.tsBase)]).length = 4 := rfl
  rw [length_index] at hindex
  simp only [encodeTables, List.length_append, hhead, hbase]
  omega

-- The extension of Python does not read bytes behind the first 2 ^ 31.
theorem parse (h : l.Packs) (ho : l.Ordered) (ht : ∀ t ∈ l.rows, t.ts < (2 ^ 64 : Nat)) (accel : Bool)
    (hl : accel → l.rows.length < 2 ^ 27) :
    IssueHistoryReader.parse accel l.encode = .value l.reader := by
  have ⟨hd, hs, hc⟩ := length_columns l
  have hbefore := h.length_encodeTables_le
  have hstates : l.stateCol.flatMap (encodeLe 1) = l.stateCol.map Nat.toUInt8 := List.flatMap_pure_eq_map ..
  have hdecoded := decodeVarints_eq accel (h.deltaCol_lt ho ht) l.encodeTables
    (l.stateCol.flatMap (encodeLe 1) ++ l.commentCol.flatMap (encodeLe 2)) (fun ha => by have := hl ha; omega)
  have hoffset : l.encode.length - (l.deltaCol.flatMap encodeVarint ++
      (l.stateCol.flatMap (encodeLe 1) ++ l.commentCol.flatMap (encodeLe 2))).length = l.encodeTables.length := by
    rw [encode, List.length_append, Nat.add_sub_cancel]
  have hdrop : l.encode.drop (l.encodeTables ++ l.deltaCol.flatMap encodeVarint).length =
      l.stateCol.map Nat.toUInt8 ++ l.commentCol.flatMap (encodeLe 2) := by
    rw [encode, ← List.append_assoc, List.drop_left, hstates]
  have hlen : (l.stateCol.map Nat.toUInt8).length = l.rows.length := by rw [List.length_map, hs]
  have hcols : l.encode.drop ((l.encodeTables ++ l.deltaCol.flatMap encodeVarint).length + l.rows.length) =
      l.commentCol.flatMap (encodeLe 2) := by
    rw [← List.drop_drop, hdrop, List.drop_left' hlen]
  have hidxs := decodeMany_flatMap (fun n hn => decodeFixed_encodeLe (h.commentCol_lt ho n hn)) []
  rw [hc, List.append_nil] at hidxs
  rw [hd, ← encode] at hdecoded
  have htables := h.parseTables (l.deltaCol.flatMap encodeVarint ++
    (l.stateCol.flatMap (encodeLe 1) ++ l.commentCol.flatMap (encodeLe 2)))
  rw [← encode] at htables
  rw [IssueHistoryReader.parse, htables]
  simp only [hoffset, hdecoded, CallResult.bind, Int.toNat_natCast, hcols, hidxs, hdrop,
    List.take_left' hlen, map_toNat_toUInt8 h.stateCol_lt]
  rfl

end Packs

end Layout

end IssueHistory
