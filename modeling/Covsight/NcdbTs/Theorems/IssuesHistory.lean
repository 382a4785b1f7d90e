import Covsight.NcdbTs.Theorems.IssueCodecs

-- The history of issues that TypeScript writes is read as it was recorded, as long as it fits.

namespace TsIssues

open IssueHistory (Layout encodeString entryFields Rows)
open StringTable (utf8)

-- Reading

namespace IssuesHistoryReader

section Parsing

variable {repair : List UInt8 → JsString} {data : List UInt8}

theorem getUint_encodeFields {width : Nat} {n : Int} {fields : List (Nat × Int)} (h : 0 ≤ n ∧ n < 256 ^ width)
    (rest : List UInt8) : getUint data width (some (encodeFields ((width, n) :: fields) ++ rest)) =
      some (n.toNat, some (encodeFields fields ++ rest)) :=
  bind_of_eq_some (decodeFixed_encodeFields h rest) _

theorem readString_encodeString {s : String} (hl : (utf8 s).length < 2 ^ 8) (rest : List UInt8) :
    readString repair (some (encodeString s ++ rest)) = (textDecode s, some rest) := by
  have he : encodeString s ++ rest = (utf8 s).length.toUInt8 :: (utf8 s ++ rest) := rfl
  have hn : (utf8 s).length.toUInt8.toNat = (utf8 s).length := toNat_toUInt8 hl
  rw [he, readString, hn, List.take_left, List.drop_left, TsStringTable.decode, StringTable.utf8Decode_utf8]

theorem readStrings_flatMap {ss : List String} (hl : ∀ s ∈ ss, (utf8 s).length < 2 ^ 8) (rest : List UInt8) :
    readStrings repair ss.length (some (ss.flatMap encodeString ++ rest)) = (ss.map textDecode, some rest) := by
  induction ss with
  | nil          => rfl
  | cons s ss hi =>
    have ⟨hs, hss⟩ := List.forall_mem_cons.mp hl
    simp only [List.length_cons, readStrings, List.flatMap_cons, List.append_assoc, readString_encodeString hs, hi hss]
    rfl

theorem readMany_flatMap {α : Type} {entry : Rest → Option (α × Rest)} {encode : α → List UInt8} {xs : List α}
    (h : ∀ x ∈ xs, ∀ rest, entry (some (encode x ++ rest)) = some (x, some rest)) (rest : List UInt8) :
    readMany entry xs.length (some (xs.flatMap encode ++ rest)) = some (xs, some rest) := by
  induction xs with
  | nil          => rfl
  | cons x xs hi =>
    have ⟨hx, hxs⟩ := List.forall_mem_cons.mp h
    rw [List.length_cons, List.flatMap_cons, List.append_assoc]
    exact (bind_of_eq_some (hx _) _).trans (bind_of_eq_some (hi hxs) _)

theorem readEntry_encodeFields {e : Nat × Nat × Nat} (h : Packable (entryFields e)) (rest : List UInt8) :
    readEntry data (some (encodeFields (entryFields e) ++ rest)) = some (e, some rest) := by
  simp only [entryFields, packable_cons] at h
  obtain ⟨hi, hs, hc, -⟩ := h
  refine (bind_of_eq_some (getUint_encodeFields hi _) _).trans ?_
  refine (bind_of_eq_some (getUint_encodeFields hs _) _).trans ?_
  exact bind_of_eq_some (getUint_encodeFields hc _) _

theorem readDelta_encodeVarint (n : Nat) (rest : List UInt8) :
    readDelta (some (encodeVarint n ++ rest)) = some (n, some rest) :=
  bind_of_eq_some (decodeVarint_encodeVarint n rest) _

end Parsing

-- What is read from a layout whose strings keep their first character.
def ofLayout (l : Layout) : IssuesHistoryReader where
  idTable      := l.ids.map .ofString
  commentTable := l.comments.map .ofString
  issueIndex   := l.index
  tsBase       := l.tsBase.toNat
  tsDeltas     := l.deltaCol
  stateBytes   := l.stateCol
  commentIdxs  := l.commentCol

variable {l : Layout}

-- No string has a byte order mark in front.
def Unmarked (ss : List String) : Prop :=
  ∀ s ∈ ss, textDecode s = .ofString s

theorem parse_encode (h : l.Packs) (ho : l.Ordered) (hi : Unmarked l.ids) (hc : Unmarked l.comments)
    (repair : List UInt8 → JsString) : parse repair l.encode = some (ofLayout l) := by
  have ⟨hld, hls, hlc⟩ := l.length_columns
  have hhead := h.header
  simp only [Layout.headerFields, packable_cons] at hhead
  obtain ⟨hm, hv, hni, hnc, hnx, hnr, -⟩ := hhead
  have hb : 0 ≤ l.tsBase ∧ l.tsBase < 256 ^ 4 := h.tsBase
  have hguard : ∀ n : Nat, (guard ((n : Int).toNat = n) : Option Unit) = some () :=
    fun n => if_pos (Int.toNat_natCast n)
  have hids := @readStrings_flatMap repair _ h.ids
  have hcomments := @readStrings_flatMap repair _ h.texts
  have hindex := @readMany_flatMap _ (readEntry l.encode) _ _ fun e he => readEntry_encodeFields (h.entries e he)
  have hdeltas := readMany_flatMap fun n (_ : n ∈ l.deltaCol) => readDelta_encodeVarint n
  have hstates : l.stateCol.flatMap (encodeLe 1) = l.stateCol.map Nat.toUInt8 := List.flatMap_pure_eq_map ..
  have hlen : (l.stateCol.map Nat.toUInt8).length = l.rows.length := by rw [List.length_map, hls]
  have hidxs := @readMany_flatMap _ (getUint l.encode 2) _ _
    (fun n hn rest => bind_of_eq_some (decodeFixed_encodeLe (h.commentCol_lt ho n hn) rest) _) []
  rw [hld] at hdeltas
  rw [hlc, List.append_nil] at hidxs
  have hdata : (some l.encode : Rest) = some (encodeFields l.headerFields ++ (l.ids.flatMap encodeString ++
      (l.comments.flatMap encodeString ++ (l.index.flatMap (fun e => encodeFields (entryFields e)) ++
        (encodeFields [(4, l.tsBase)] ++ (l.deltaCol.flatMap encodeVarint ++
          (l.stateCol.map Nat.toUInt8 ++ l.commentCol.flatMap (encodeLe 2)))))))) := by
    simp only [Layout.encode, Layout.encodeTables, List.append_assoc, hstates]
  rw [parse, hdata]
  refine (bind_of_eq_some (getUint_encodeFields hm _) _).trans ?_
  refine (bind_of_eq_some (getUint_encodeFields hv _) _).trans ?_
  refine (bind_of_eq_some (getUint_encodeFields hni _) _).trans ?_
  refine (bind_of_eq_some (getUint_encodeFields hnc _) _).trans ?_
  refine (bind_of_eq_some (getUint_encodeFields hnx _) _).trans ?_
  refine (bind_of_eq_some (getUint_encodeFields hnr _) _).trans ?_
  refine (bind_of_eq_some (hguard IssueHistory.magic) _).trans ?_
  refine (bind_of_eq_some (hguard IssueHistory.version) _).trans ?_
  simp only [encodeFields_nil, Int.toNat_natCast, hids, hcomments]
  refine (bind_of_eq_some (hindex _) _).trans ?_
  refine (bind_of_eq_some (getUint_encodeFields hb _) _).trans ?_
  refine (bind_of_eq_some (hdeltas _) _).trans ?_
  simp only [Option.elim_some, Option.map_some, List.take_left' hlen, List.drop_left' hlen,
    map_toNat_toUInt8 h.stateCol_lt]
  refine (bind_of_eq_some hidxs _).trans ?_
  rw [List.map_congr_left hi, List.map_congr_left hc]
  rfl

theorem idToIssueIdx_ofLayout (l : Layout) : (ofLayout l).idToIssueIdx =
    .ofList (l.ids.map fun id => some (JsString.ofString id)).zipIdx := by
  have hm := mapM_eq_some_iff.mp (Layout.mapM_groupIndex l.rowsOf 0 [] l.ids)
  have he : l.index.map (fun e => (l.ids.map JsString.ofString)[e.fst]?) = l.ids.map fun id => some (JsString.ofString id) := by
    rw [← List.forall₂_eq_eq_eq, List.forall₂_map_left_iff, List.forall₂_map_right_iff]
    refine hm.imp fun e id h => ?_
    have hid : l.ids[e.fst]? = some id := h
    rw [List.getElem?_map, hid]
    rfl
  exact congrArg (fun ids => Dict.ofList ids.zipIdx) he

theorem iterRows_ofLayout {id : JsString} {start : Nat} {prev : Int} {currentTs : JsNumber}
    {tl : List IssueHistory.Transition}
    (h : Rows l.commentIdx l.deltaCol l.stateCol l.commentCol start prev tl) (hp : currentTs.toInt = some prev)
    (ha : (prev :: tl.map IssueHistory.Transition.ts).Pairwise (· ≤ ·)) (hz : 0 ≤ prev) (ht : ∀ t ∈ tl, t.ts < 2 ^ 53)
    (hc : ∀ t ∈ tl, (if l.commentIdx t.comment ≠ IssueHistory.noComment then l.comments[l.commentIdx t.comment]? else
      some "") = some t.comment) :
    (ofLayout l).iterRows id currentTs (List.range' start tl.length) =
      tl.map fun t => ⟨id, .ofBigInt t.ts, some t.newState.toNat, some (.ofString t.comment)⟩ := by
  induction tl generalizing start prev currentTs with
  | nil          => rfl
  | cons t tl hi =>
    have ⟨hd, hs, hcm⟩ := h.head
    have ⟨hle, ha⟩ := List.pairwise_cons.mp ha
    have ⟨htt, ht⟩ := List.forall_mem_cons.mp ht
    have ⟨hct, hc⟩ := List.forall_mem_cons.mp hc
    have hge := hle t.ts (.head _)
    have hdelta : (JsNumber.ofBigInt ((t.ts - prev).toNat : Int)).toInt = some (t.ts - prev) := by
      rw [Int.toNat_of_nonneg (by omega)]
      exact JsNumber.toInt_ofBigInt_iff.mpr <| isDouble_of_lt (by omega)
    have hts : (currentTs.add (.ofBigInt ((t.ts - prev).toNat : Int))).toInt = some t.ts := by
      have ha := JsNumber.toInt_add hp hdelta (by omega)
      rwa [add_sub_cancel] at ha
    have hcomment : (if (ofLayout l).commentIdxs[start]? = some IssueHistory.noComment then some [] else
        (ofLayout l).commentIdxs[start]?.bind ((ofLayout l).commentTable[·]?)) = some (JsString.ofString t.comment) := by
      have hcm : (ofLayout l).commentIdxs[start]? = some (l.commentIdx t.comment) := hcm
      rw [hcm]
      by_cases hn : l.commentIdx t.comment = IssueHistory.noComment
      case pos =>
        rw [if_neg (not_not_intro hn)] at hct
        rw [if_pos (congrArg some hn), ← Option.some.inj hct]
        rfl
      case neg =>
        rw [if_pos hn] at hct
        rw [if_neg fun he => hn (Option.some.inj he), Option.bind_some, ofLayout, List.getElem?_map, hct]
        rfl
    have hd : (ofLayout l).tsDeltas[start]? = some (t.ts - prev).toNat := hd
    have hs : (ofLayout l).stateBytes[start]? = some t.newState.toNat := hs
    rw [List.length_cons, List.range'_succ, iterRows]
    simp only [hd, hs, hcomment, Option.map_some, Option.getD_some]
    rw [hi h.tail hts ha (by omega) ht hc, List.map_cons, JsNumber.ofBigInt_of_toInt hts]

theorem historyForIssue_of_not_mem (hn : l.ids.Nodup) {issueId : JsString} (h : ∀ id ∈ l.ids, .ofString id ≠ issueId) :
    (ofLayout l).historyForIssue issueId = [] := by
  have hnodup : (l.ids.map fun id => some (JsString.ofString id)).Nodup :=
    hn.map fun _ _ he => JsString.ofString_injective (Option.some.inj he)
  have hnone : (Dict.ofList (l.ids.map fun id => some (JsString.ofString id)).zipIdx).get? (some issueId) = none := by
    refine Option.eq_none_iff_forall_ne_some.mpr fun i hi => ?_
    have ⟨id, hm, he⟩ := List.mem_map.mp <| List.mem_of_getElem? <| (Dict.get?_ofList_zipIdx hnodup).mp hi
    exact h id hm (Option.some.inj he)
  simp only [historyForIssue, idToIssueIdx_ofLayout, hnone, Option.bind_none]

theorem historyForIssue_ofLayout (h : l.Packs) (ho : l.Ordered) (ht : ∀ t ∈ l.rows, t.ts < 2 ^ 53) (id : String) :
    (ofLayout l).historyForIssue (.ofString id) = (l.rowsOf id).map fun t =>
      ⟨.ofString id, .ofBigInt t.ts, some t.newState.toNat, some (.ofString t.comment)⟩ := by
  by_cases hid : id ∈ l.ids
  case pos =>
    have hnodup : (l.ids.map fun id => some (JsString.ofString id)).Nodup :=
      ho.nodup.map fun _ _ he => JsString.ofString_injective (Option.some.inj he)
    have ⟨before, after, hs⟩ := List.append_of_mem hid
    have ⟨he, hr⟩ := Layout.rows_of_entry hs
    have hidx : (Dict.ofList (l.ids.map fun id => some (JsString.ofString id)).zipIdx).get? (some (.ofString id)) =
        some before.length := (Dict.get?_ofList_zipIdx hnodup).mpr (by simp [hs])
    have he : (ofLayout l).issueIndex[before.length]? = _ := he
    have hb := h.tsBase
    have hbase : (JsNumber.ofBigInt ((ofLayout l).tsBase : Int)).toInt = some l.tsBase := by
      have he : ((ofLayout l).tsBase : Int) = l.tsBase := Int.toNat_of_nonneg hb.left
      rw [he]
      exact JsNumber.toInt_ofBigInt_iff.mpr <| isDouble_of_lt (by omega)
    simp only [historyForIssue, idToIssueIdx_ofLayout, hidx, Option.bind_some, he]
    exact iterRows_ofLayout hr hbase (ho.ascending id) hb.left (fun t hm => ht t (ho.mem_rows hm)) fun t hm =>
      (Layout.commentIdx_spec (ho.commented t (ho.mem_rows hm)) h.comments).right
  case neg =>
    rw [ho.absent id hid]
    exact historyForIssue_of_not_mem ho.nodup fun id' hm he => hid (JsString.ofString_injective he ▸ hm)

end IssuesHistoryReader

-- Writing

namespace Transition

-- A transition as Python has it.
def toPython (t : Transition) : IssueHistory.Transition where
  ts       := t.ts.toInt.getD 0
  newState := t.newState.toInt.getD 0
  comment  := textEncode t.comment

-- The time is an integer that every double near it can be told from.
structure Fits (t : Transition) : Prop where
  ts       : TsIssues.Fits 53 t.ts
  newState : TsIssues.Fits 8 t.newState
  comment  : t.comment.IsText

variable {t t' : Transition}

theorem Fits.toInt_ts (h : t.Fits) : t.ts.toInt = some t.toPython.ts ∧ 0 ≤ t.toPython.ts ∧ t.toPython.ts < 2 ^ 53 := by
  have ⟨n, hn, hb⟩ := h.ts
  have he : t.toPython.ts = n := congrArg (Option.getD · 0) hn
  exact he ▸ ⟨hn, hb⟩

theorem Fits.toInt_newState (h : t.Fits) :
    t.newState.toInt = some t.toPython.newState ∧ 0 ≤ t.toPython.newState ∧ t.toPython.newState < 2 ^ 8 := by
  have ⟨n, hn, hb⟩ := h.newState
  have he : t.toPython.newState = n := congrArg (Option.getD · 0) hn
  exact he ▸ ⟨hn, hb⟩

theorem Fits.before_iff (h : t.Fits) (h' : t'.Fits) : t.before t' ↔ t.toPython.before t'.toPython := by
  have ⟨ht, hz, hl⟩ := h.toInt_ts
  have ⟨ht', hz', hl'⟩ := h'.toInt_ts
  rw [before, JsNumber.isPositive_iff (JsNumber.toInt_sub ht ht' (by omega))]
  change ¬_ ↔ t.toPython.ts ≤ t'.toPython.ts
  omega

end Transition

namespace IssuesHistoryWriter

def recorded (w : IssuesHistoryWriter) (issueId : JsString) : List Transition :=
  (w.transitions.get? issueId).getD []

def comments (w : IssuesHistoryWriter) : List JsString :=
  (((w.transitions.keys.flatMap w.recorded).map Transition.comment).filter (· ≠ [])).dedup

-- Everything is text or a number that fits, the first time of all fits 32 bits, and there is not too much of
-- anything. The extension of Python reads no more than 2 ^ 31 bytes.
structure Fits (w : IssuesHistoryWriter) (accel : Bool) : Prop where
  ids          : ∀ issueId ∈ w.transitions.keys, issueId.IsText
  transitions  : ∀ issueId, ∀ t ∈ w.recorded issueId, t.Fits
  base         : (∀ issueId, w.recorded issueId = []) ∨ ∃ issueId, ∃ t ∈ w.recorded issueId, TsIssues.Fits 32 t.ts
  idCount      : w.transitions.keys.length < 2 ^ 16
  rowCount     : ∀ issueId, (w.recorded issueId).length < 2 ^ 16
  commentCount : w.comments.length < 2 ^ 16
  total        : accel → (w.transitions.keys.flatMap w.recorded).length < 2 ^ 27

variable {w : IssuesHistoryWriter} {accel : Bool} {issueId : JsString}

theorem recorded_add (w : IssuesHistoryWriter) (id : JsString) (t : Transition) (issueId : JsString) :
    (w.add id t).recorded issueId = if id = issueId then w.recorded id ++ [t] else w.recorded issueId := by
  rw [recorded, add, Dict.get?_set, apply_ite (Option.getD · [])]
  rfl

theorem forall_recorded_add {p : Transition → Prop} (h : ∀ issueId, ∀ t ∈ w.recorded issueId, p t) (id : JsString)
    {t : Transition} (ht : p t) : ∀ issueId, ∀ t' ∈ (w.add id t).recorded issueId, p t' := by
  intro issueId
  rw [recorded_add]
  split
  case isTrue  => exact List.forall_mem_append.mpr ⟨h id, List.forall_mem_singleton.mpr ht⟩
  case isFalse => exact h issueId

theorem length_recorded_add_le (w : IssuesHistoryWriter) (id : JsString) (t : Transition) (issueId : JsString) :
    ((w.add id t).recorded issueId).length ≤ (w.recorded issueId).length + 1 := by
  rw [recorded_add]
  split
  case isTrue he => rw [← he, List.length_append, List.length_singleton]
  case isFalse   => omega

theorem mem_sortedIds : issueId ∈ w.sortedIds ↔ issueId ∈ w.transitions.keys :=
  (List.perm_insertionSort _ _).mem_iff

theorem nodup_sortedIds (w : IssuesHistoryWriter) : w.sortedIds.Nodup :=
  (List.perm_insertionSort _ _).nodup_iff.mpr w.transitions.keys_nodup

theorem perm_rowsOf (w : IssuesHistoryWriter) (issueId : JsString) : (w.rowsOf issueId).Perm (w.recorded issueId) :=
  List.perm_insertionSort ..

theorem recorded_of_not_mem (h : issueId ∉ w.transitions.keys) : w.recorded issueId = [] := by
  have hn : w.transitions.get? issueId = none := Dict.get?_eq_none_iff.mpr h
  rw [recorded, hn]
  rfl

theorem rowsOf_of_not_mem (h : issueId ∉ w.transitions.keys) : w.rowsOf issueId = [] :=
  List.perm_nil.mp <| recorded_of_not_mem h ▸ perm_rowsOf w issueId

theorem perm_allRows (w : IssuesHistoryWriter) : w.allRows.Perm (w.transitions.keys.flatMap w.recorded) :=
  (List.Perm.flatMap_left _ fun issueId _ => perm_rowsOf w issueId).trans <|
    List.Perm.flatMap_right _ (List.perm_insertionSort ..)

theorem mem_allRows_of_recorded {t : Transition} (h : t ∈ w.recorded issueId) : t ∈ w.allRows := by
  by_cases hid : issueId ∈ w.transitions.keys
  case pos => exact (perm_allRows w).mem_iff.mpr <| List.mem_flatMap.mpr ⟨issueId, hid, h⟩
  case neg => exact absurd (recorded_of_not_mem hid ▸ h) List.not_mem_nil

theorem commentTable_eq (w : IssuesHistoryWriter) :
    w.commentTable = internAll ((w.allRows.map Transition.comment).filter (· ≠ [])) := by
  rw [commentTable, internAll, ← foldl_wanted]
  congr! 4

theorem mem_commentTable {comment : JsString} :
    comment ∈ w.commentTable ↔ comment ≠ [] ∧ ∃ t ∈ w.allRows, t.comment = comment := by
  rw [commentTable_eq, mem_internAll_iff, List.mem_filter, List.mem_map, decide_eq_true_iff, and_comm]

theorem length_commentTable (w : IssuesHistoryWriter) : w.commentTable.length = w.comments.length := by
  refine List.Perm.length_eq <| (List.perm_ext_iff_of_nodup ?_ (List.nodup_dedup _)).mpr fun comment => ?_
  case refine_1 => exact commentTable_eq w ▸ nodup_internAll _
  case refine_2 =>
    rw [mem_commentTable, List.mem_dedup, List.mem_filter, List.mem_map, decide_eq_true_iff, and_comm]
    exact and_congr_left fun _ => exists_congr fun t => and_congr_left fun _ => (perm_allRows w).mem_iff

theorem map_ofString_textEncode {ss : List JsString} (hs : ∀ s ∈ ss, s.IsText) : (ss.map textEncode).map .ofString = ss := by
  rw [List.map_map]
  exact (List.map_congr_left fun s hm => JsString.ofString_textEncode (hs s hm)).trans (List.map_id ss)

-- The layout as Python has it.
def layout (w : IssuesHistoryWriter) : Layout where
  ids       := w.sortedIds.map textEncode
  rowsOf id := (w.rowsOf (.ofString id)).map Transition.toPython
  comments  := w.commentTable.map textEncode
  tsBase    := w.tsBase.trunc

section Layout

variable (h : w.Fits accel)

include h

theorem Fits.allRows : ∀ t ∈ w.allRows, t.Fits := by
  intro t ht
  have ⟨id, _, ht⟩ := List.mem_flatMap.mp ht
  exact h.transitions id t <| (perm_rowsOf w id).mem_iff.mp ht

theorem Fits.commentTable : ∀ comment ∈ w.commentTable, comment.IsText := by
  intro comment hc
  obtain ⟨_, t, ht, rfl⟩ := mem_commentTable.mp hc
  exact (h.allRows t ht).comment

theorem Fits.sortedIds : ∀ issueId ∈ w.sortedIds, issueId.IsText :=
  fun issueId hid => h.ids issueId (mem_sortedIds.mp hid)

theorem map_rowsOf (hid : issueId ∈ w.sortedIds) :
    w.layout.rowsOf (textEncode issueId) = (w.rowsOf issueId).map Transition.toPython := by
  change (w.rowsOf (.ofString (textEncode issueId))).map _ = _
  rw [JsString.ofString_textEncode (h.sortedIds issueId hid)]

theorem rows_layout : w.layout.rows = w.allRows.map Transition.toPython := by
  rw [Layout.rows, allRows, List.map_flatMap]
  change (w.sortedIds.map textEncode).flatMap w.layout.rowsOf = _
  rw [List.flatMap_map]
  exact List.flatMap_congr fun issueId hid => map_rowsOf h hid

theorem index_layout : w.layout.index = w.issueIndex := by
  have hg : (w.sortedIds.map textEncode).map w.layout.rowsOf = (w.sortedIds.map w.rowsOf).map (List.map Transition.toPython) := by
    rw [List.map_map, List.map_map]
    exact List.map_congr_left fun issueId hid => map_rowsOf h hid
  rw [Layout.index, issueIndex, ← groupIndexFrom_map Transition.toPython, ← hg]
  rfl

theorem rowsOf_toPython (issueId : JsString) : (w.rowsOf issueId).map Transition.toPython =
    ((w.recorded issueId).map Transition.toPython).insertionSort IssueHistory.Transition.before :=
  List.map_insertionSort _ _ _ _ fun t ht t' ht' =>
    (h.transitions _ t ht).before_iff (h.transitions _ t' ht')

end Layout

-- Times

section Times

-- The least of some times, as a number.
theorem toInt_foldl_min {xs : List JsNumber} {x : JsNumber} (hx : TsIssues.Fits 53 x) (h : ∀ y ∈ xs, TsIssues.Fits 53 y) :
    ∃ b : Int, (xs.foldl .min x).toInt = some b ∧ 0 ≤ b ∧ ∀ y ∈ x :: xs, ∀ n, y.toInt = some n → b ≤ n := by
  induction xs generalizing x with
  | nil          =>
    have ⟨n, hn, hb⟩ := hx
    refine ⟨n, hn, hb.left, List.forall_mem_singleton.mpr fun m hm => ?_⟩
    exact (Option.some.inj (hn.symm.trans hm)).le
  | cons y ys hi =>
    have ⟨hy, hys⟩ := List.forall_mem_cons.mp h
    have ⟨m, hm, hmb⟩ := hx
    have ⟨n, hn, hnb⟩ := hy
    have hmin := JsNumber.toInt_min hm hn (by omega)
    have ⟨b, hb, hz, hle⟩ := hi (x := x.min y) ⟨_, hmin, by omega⟩ hys
    have ⟨hbm, hle⟩ := List.forall_mem_cons.mp hle
    have hbm := hbm _ hmin
    refine ⟨b, hb, hz, List.forall_mem_cons.mpr ⟨fun k hk => ?_, List.forall_mem_cons.mpr ⟨fun k hk => ?_, hle⟩⟩⟩
    · have := Option.some.inj (hm.symm.trans hk)
      omega
    · have := Option.some.inj (hn.symm.trans hk)
      omega

theorem Fits.tsBase (h : w.Fits accel) : w.tsBase.toInt = some w.tsBase.trunc ∧ 0 ≤ w.tsBase.trunc ∧
    w.tsBase.trunc < 2 ^ 32 ∧ ∀ t ∈ w.allRows, w.tsBase.trunc ≤ t.toPython.ts := by
  have hsome {b : Int} (hb : w.tsBase.toInt = some b) : w.tsBase.trunc = b := JsNumber.trunc_of_toInt hb
  have hrows := h.allRows
  cases he : w.allRows with
  | nil          =>
    have hb : w.tsBase = .zero := by rw [IssuesHistoryWriter.tsBase, he]; rfl
    rw [hb]
    exact ⟨rfl, by decide, by decide, nofun⟩
  | cons t ts =>
    have hfold : w.tsBase = (ts.map Transition.ts).foldl .min t.ts := by
      rw [IssuesHistoryWriter.tsBase, he]
      rfl
    rw [he] at hrows
    have ⟨ht, hts⟩ := List.forall_mem_cons.mp hrows
    have ⟨b, hb, hz, hle⟩ := toInt_foldl_min ht.ts (List.forall_mem_map.mpr fun t ht => (hts t ht).ts)
    rw [← hfold] at hb
    have hle : ∀ t' ∈ t :: ts, b ≤ t'.toPython.ts := fun t' hm =>
      hle t'.ts (by simpa using List.mem_map_of_mem (f := Transition.ts) hm) _ (hrows t' hm).toInt_ts.left
    rw [hsome hb]
    refine ⟨hb, hz, ?_, hle⟩
    -- Some time has 32 bits, and the base is no later.
    cases h.base with
    | inl hn =>
      have hm : t ∈ w.allRows := he ▸ .head _
      have ⟨id, _, hm⟩ := List.mem_flatMap.mp hm
      exact absurd (hn id ▸ (perm_rowsOf w id).mem_iff.mp hm) List.not_mem_nil
    | inr hs =>
      have ⟨_, t', hm, n, hn, hlt⟩ := hs
      have hm := he ▸ mem_allRows_of_recorded hm
      have := hle t' hm
      have := Option.some.inj ((hrows t' hm).toInt_ts.left.symm.trans hn)
      omega

theorem deltasFrom_eq {prev : JsNumber} {p : Int} (hp : prev.toInt = some p) (hb : 0 ≤ p ∧ p < 2 ^ 53) {ts : List Transition}
    (h : ∀ t ∈ ts, t.Fits) {deltas : List Nat} (hd : deltasFrom prev ts = some deltas) :
    deltas = (differences p ((ts.map Transition.toPython).map IssueHistory.Transition.ts)).map Int.toNat := by
  induction ts generalizing prev p deltas with
  | nil          => exact (Option.some.inj hd).symm
  | cons t ts hi =>
    have ⟨ht, hts⟩ := List.forall_mem_cons.mp h
    have ⟨hn, hnb⟩ := ht.toInt_ts
    have hs := JsNumber.toInt_sub hn hp (by omega)
    rw [deltasFrom, hs] at hd
    have ⟨δ, hδ, hd⟩ := Option.bind_eq_some_iff.mp hd
    have ⟨_, _, hd⟩ := Option.bind_eq_some_iff.mp hd
    have ⟨rest, hr, hd⟩ := Option.bind_eq_some_iff.mp hd
    rw [← Option.some.inj hd, hi hn hnb hts hr, ← Option.some.inj hδ]
    rfl

end Times

theorem Fits.ordered (h : w.Fits accel) : w.layout.Ordered where
  nodup := by
    refine .of_map JsString.ofString ?_
    exact (map_ofString_textEncode h.sortedIds).symm ▸ nodup_sortedIds w
  absent id hid := by
    have hn : JsString.ofString id ∉ w.transitions.keys := fun hm => hid <| List.mem_map.mpr
      ⟨_, mem_sortedIds.mpr hm, by simp [textEncode, JsString.ofString, JsChar.toChar, Function.comp_def]⟩
    exact congrArg (List.map Transition.toPython) (rowsOf_of_not_mem hn)
  ascending id := by
    refine List.pairwise_cons.mpr ⟨?_, ?_⟩
    · refine List.forall_mem_map.mpr <| List.forall_mem_map.mpr fun t ht => ?_
      exact h.tsBase.right.right.right t <| mem_allRows_of_recorded <| (perm_rowsOf w _).mem_iff.mp ht
    · change (((w.rowsOf (.ofString id)).map Transition.toPython).map _).Pairwise _
      rw [rowsOf_toPython h, List.pairwise_map]
      exact List.pairwise_insertionSort IssueHistory.Transition.before _
  commented t ht hc := by
    rw [rows_layout h] at ht
    obtain ⟨t, hm, rfl⟩ := List.mem_map.mp ht
    refine List.mem_map_of_mem <| mem_commentTable.mpr ⟨fun he => hc ?_, t, hm, rfl⟩
    exact congrArg textEncode he

-- Bytes

section Bytes

theorem encodeU8String_eq_some {value : JsString} {bytes : List UInt8} (h : encodeU8String value = some bytes) :
    (utf8 (textEncode value)).length < 2 ^ 8 ∧ encodeString (textEncode value) = bytes := by
  have ⟨_, hg, hb⟩ := Option.bind_eq_some_iff.mp h
  refine ⟨?_, Option.some.inj hb⟩
  by_contra hn
  rw [guard, if_neg (by omega)] at hg
  cases hg

theorem encodeU8Strings_eq_some {values : List JsString} {bytes : List UInt8} (h : encodeU8Strings values = some bytes) :
    (∀ s ∈ values.map textEncode, (utf8 s).length < 2 ^ 8) ∧ bytes = (values.map textEncode).flatMap encodeString := by
  have ⟨parts, hp, he⟩ := Option.map_eq_some_iff.mp h
  have hall := (mapM_eq_some_iff.mp hp).imp fun _ _ => encodeU8String_eq_some
  constructor
  · refine List.forall_mem_map.mpr fun value hm => ?_
    have ⟨_, _, hv⟩ := exists_mem_of_mapM hp hm
    exact (encodeU8String_eq_some hv).left
  · have hm : values.map (fun value => encodeString (textEncode value)) = parts := by
      rw [← List.forall₂_eq_eq_eq, List.forall₂_map_left_iff]
      exact hall.imp fun _ _ => And.right
    rw [← he, ← hm, List.flatMap_map, List.flatMap_def]

theorem idxOf_map_textEncode {table : List JsString} {comment : JsString} (ht : ∀ s ∈ table, s.IsText)
    (hc : comment.IsText) : (table.map textEncode).idxOf (textEncode comment) = table.idxOf comment := by
  induction table with
  | nil           => rfl
  | cons s ss hi  =>
    have ⟨hs, hss⟩ := List.forall_mem_cons.mp ht
    have he : textEncode s = textEncode comment ↔ s = comment := by
      refine ⟨fun he => ?_, congrArg textEncode⟩
      rw [← JsString.ofString_textEncode hs, he, JsString.ofString_textEncode hc]
    have hb : (textEncode s == textEncode comment) = (s == comment) := by
      rw [Bool.eq_iff_iff, beq_iff_eq, beq_iff_eq, he]
    rw [List.map_cons, List.idxOf_cons, List.idxOf_cons, hi hss, hb]

variable (h : w.Fits accel)

include h

theorem commentIdx_layout {t : Transition} (ht : t ∈ w.allRows) :
    w.layout.commentIdx t.toPython.comment = w.commentIdx t.comment := by
  have hc := (h.allRows t ht).comment
  have hempty : t.toPython.comment = "" ↔ t.comment = [] := by
    refine ⟨fun he => ?_, congrArg textEncode⟩
    have ho := JsString.ofString_textEncode hc
    have he : textEncode t.comment = "" := he
    rw [he] at ho
    exact ho.symm
  rw [Layout.commentIdx, commentIdx]
  by_cases hn : t.comment = []
  case pos => rw [if_neg (not_not_intro (hempty.mpr hn)), if_neg (not_not_intro hn)]
  case neg =>
    rw [if_pos (hempty.not.mpr hn), if_pos hn]
    exact idxOf_map_textEncode h.commentTable hc

theorem tsDeltas_eq {deltas : List Nat} (hd : w.tsDeltas = some deltas) : deltas = w.layout.deltaCol := by
  have ⟨parts, hp, he⟩ := Option.map_eq_some_iff.mp hd
  have ⟨hb, hz, hl, _⟩ := h.tsBase
  have hall := mapM_eq_some_iff.mp hp
  have hm : w.sortedIds.map (fun issueId =>
      (differences w.tsBase.trunc ((w.layout.rowsOf (textEncode issueId)).map IssueHistory.Transition.ts)).map Int.toNat) =
      parts := by
    rw [← List.forall₂_eq_eq_eq, List.forall₂_map_left_iff]
    refine ((List.forall₂_and_left _ _).mpr ⟨fun id hid => hid, hall⟩).imp fun id part ⟨hid, hpart⟩ => ?_
    rw [map_rowsOf h hid]
    refine (deltasFrom_eq hb ⟨hz, by omega⟩ (fun t ht => ?_) hpart).symm
    exact h.transitions id t <| (perm_rowsOf w id).mem_iff.mp ht
  rw [← he, ← hm, Layout.deltaCol]
  change _ = (w.sortedIds.map textEncode).flatMap _
  rw [List.flatMap_map, List.flatMap_def]
  rfl

theorem wrapFields_states :
    wrapFields (w.allRows.map fun t => (1, t.newState.trunc)) = w.layout.stateCol.flatMap (encodeLe 1) := by
  rw [wrapFields, List.flatMap_map, Layout.stateCol, rows_layout h, List.map_map, List.flatMap_map]
  refine List.flatMap_congr fun t ht => ?_
  obtain ⟨hn, hb⟩ := (h.allRows t ht).toInt_newState
  have ht := JsNumber.trunc_of_toInt hn
  have he : t.newState.trunc % 256 ^ 1 = t.toPython.newState := by omega
  exact congrArg (fun n : Int => encodeLe 1 n.toNat) he

theorem wrapFields_comments (hc : w.layout.comments.length < 2 ^ 16) :
    wrapFields (w.allRows.map fun t => (2, (w.commentIdx t.comment : Int))) =
      w.layout.commentCol.flatMap (encodeLe 2) := by
  rw [wrapFields, List.flatMap_map, Layout.commentCol, rows_layout h, List.map_map, List.flatMap_map]
  refine List.flatMap_congr fun t ht => ?_
  have hm : t.toPython ∈ w.layout.rows := rows_layout h ▸ List.mem_map_of_mem ht
  have hlt := (Layout.commentIdx_spec (h.ordered.commented _ hm) hc).left
  rw [commentIdx_layout h ht] at hlt
  have he : (w.commentIdx t.comment : Int) % 256 ^ 2 = w.layout.commentIdx t.toPython.comment := by
    rw [commentIdx_layout h ht]
    omega
  exact congrArg (fun n : Int => encodeLe 2 n.toNat) he

theorem length_layout : w.layout.ids.length = w.sortedIds.length ∧ w.sortedIds.length < 2 ^ 16 ∧
    w.layout.comments.length = w.commentTable.length ∧ w.commentTable.length < 2 ^ 16 ∧
    w.layout.rows.length = w.allRows.length ∧ w.allRows.length < 2 ^ 32 := by
  have hi : w.sortedIds.length < 2 ^ 16 := (List.length_insertionSort ..).trans_lt h.idCount
  have hr : w.allRows.length ≤ w.sortedIds.length * 65535 := by
    refine length_flatMap_le fun id _ => ?_
    rw [(perm_rowsOf w id).length_eq]
    exact Nat.le_of_lt_succ (h.rowCount id)
  refine ⟨List.length_map .., hi, List.length_map .., length_commentTable w ▸ h.commentCount, ?_, by omega⟩
  rw [rows_layout h, List.length_map]

theorem buildRaw_eq {raw : List UInt8} (hraw : w.buildRaw = some raw) : w.layout.Packs ∧ raw = w.layout.encode := by
  have ⟨deltas, hd, hraw⟩ := Option.bind_eq_some_iff.mp hraw
  have ⟨ids, hids, hraw⟩ := Option.bind_eq_some_iff.mp hraw
  have ⟨comments, hcomments, hraw⟩ := Option.bind_eq_some_iff.mp hraw
  have ⟨hil, hids⟩ := encodeU8Strings_eq_some hids
  have ⟨hcl, hcomments⟩ := encodeU8Strings_eq_some hcomments
  have ⟨hli, hi, hlc, hc, hlr, hr⟩ := length_layout h
  have hb := h.tsBase
  have hp : w.layout.Packs := {
    issues      := hli ▸ hi
    comments    := hlc ▸ hc
    records     := hlr ▸ hr
    counts id _ := by
      have hrows := h.rowCount (.ofString id)
      change ((w.rowsOf (.ofString id)).map _).length < _
      rwa [List.length_map, (perm_rowsOf w _).length_eq]
    ids         := hil
    texts       := hcl
    tsBase      := ⟨hb.right.left, hb.right.right.left⟩
    states t ht := by
      rw [rows_layout h] at ht
      obtain ⟨t, hm, rfl⟩ := List.mem_map.mp ht
      exact (h.allRows t hm).toInt_newState.right }
  have hheader : wrapFields [(4, IssueHistory.magic), (1, IssueHistory.version), (2, w.sortedIds.length),
      (2, w.commentTable.length), (2, w.issueIndex.length), (4, w.allRows.length)] = encodeFields w.layout.headerFields := by
    rw [← wrapFields_of_packable hp.header, Layout.headerFields, hli, hlc, hlr, index_layout h]
  have hindex : w.issueIndex.flatMap (fun e => wrapFields (entryFields e)) =
      w.layout.index.flatMap fun e => encodeFields (IssueHistory.entryFields e) := by
    rw [← index_layout h]
    exact List.flatMap_congr fun e he => wrapFields_of_packable (hp.entries e he)
  have hbase : wrapFields [(4, w.tsBase.trunc)] = encodeFields [(4, w.layout.tsBase)] :=
    wrapFields_of_packable <| packable_cons.mpr ⟨hp.tsBase, packable_nil⟩
  rw [← Option.some.inj hraw, hheader, hids, hcomments, hindex, hbase, tsDeltas_eq h hd, wrapFields_states h,
    wrapFields_comments h hp.comments, Layout.encode, Layout.encodeTables]
  refine ⟨hp, ?_⟩
  simp only [List.append_assoc]
  rfl

end Bytes

end IssuesHistoryWriter

-- What both languages read

namespace IssueStateTransition

-- What is told in Python.
def ofPython (told : IssueHistory.IssueStateTransition) : IssueStateTransition where
  issueId  := .ofString told.issueId
  ts       := .ofBigInt told.ts
  newState := some told.newState
  comment  := some (.ofString told.comment)

structure Tells (issueId : JsString) (told : IssueStateTransition) (t : Transition) : Prop where
  issueId  : told.issueId = issueId
  ts       : told.ts = t.ts
  newState : told.newState.map (.ofBigInt ·) = some t.newState
  comment  : told.comment = some t.comment

theorem tells_toPython {t : Transition} (h : t.Fits) (issueId : JsString) :
    Tells issueId ⟨issueId, .ofBigInt t.toPython.ts, some t.toPython.newState.toNat, some (.ofString t.toPython.comment)⟩
      t := by
  have ⟨hts, _⟩ := h.toInt_ts
  have ⟨hs, hz, _⟩ := h.toInt_newState
  refine ⟨rfl, JsNumber.ofBigInt_of_toInt hts, ?_, congrArg some (JsString.ofString_textEncode h.comment)⟩
  rw [Option.map_some, Int.toNat_of_nonneg hz, JsNumber.ofBigInt_of_toInt hs]

end IssueStateTransition

namespace IssuesHistoryWriter

-- The transitions of an issue in the order of their times.
structure InOrder (w : IssuesHistoryWriter) (issueId : JsString) (ts : List Transition) : Prop where
  perm      : ts.Perm (w.recorded issueId)
  ascending : ts.Pairwise Transition.before

-- Both languages read what was recorded.
def Recovered (c : Compression) (repair : List UInt8 → JsString) (accel : Bool) (w : IssuesHistoryWriter)
    (data : List UInt8) : Prop :=
  (∃ reader, IssuesHistoryReader.read c repair data = some reader ∧ ∀ issueId, ∃ ts, w.InOrder issueId ts ∧
    (reader.historyForIssue issueId).Forall₂ (IssueStateTransition.Tells issueId) ts) ∧
  ∃ reader, IssueHistory.IssueHistoryReader.read c accel data = .value reader ∧ ∀ issueId : String, ∃ told ts,
    reader.historyForIssue issueId = some told ∧ w.InOrder (.ofString issueId) ts ∧
    (told.map IssueStateTransition.ofPython).Forall₂ (IssueStateTransition.Tells (.ofString issueId)) ts

namespace Fits

variable {w : IssuesHistoryWriter} {accel : Bool} (h : w.Fits accel)

include h

theorem inOrder (issueId : JsString) : w.InOrder issueId (w.rowsOf issueId) where
  perm      := perm_rowsOf w issueId
  ascending := by
    have hf : ∀ t ∈ w.rowsOf issueId, t.Fits := fun t ht => h.transitions issueId t <| (perm_rowsOf w issueId).mem_iff.mp ht
    have hp := List.pairwise_insertionSort IssueHistory.Transition.before ((w.recorded issueId).map Transition.toPython)
    rw [← rowsOf_toPython h, List.pairwise_map] at hp
    exact hp.imp_of_mem fun ht ht' => ((hf _ ht).before_iff (hf _ ht')).mpr

theorem tells (id : String) : ((w.layout.rowsOf id).map fun t => (⟨.ofString id, .ofBigInt t.ts, some t.newState.toNat,
    some (.ofString t.comment)⟩ : IssueStateTransition)).Forall₂ (IssueStateTransition.Tells (.ofString id))
      (w.rowsOf (.ofString id)) := by
  change ((List.map Transition.toPython _).map _).Forall₂ _ _
  rw [List.map_map, List.forall₂_map_left_iff]
  refine List.forall₂_same.mpr fun t ht => IssueStateTransition.tells_toPython ?_ _
  exact h.transitions _ t <| (perm_rowsOf w _).mem_iff.mp ht

theorem recovered {c : Compression} {fast : Bool} {data : List UInt8} (hs : w.sealWith c fast = some data)
    (repair : List UInt8 → JsString) : w.Recovered c repair accel data := by
  obtain ⟨raw, hraw, rfl⟩ := Option.map_eq_some_iff.mp hs
  have ⟨hp, he⟩ := buildRaw_eq h hraw
  have ho := h.ordered
  have hxz := c.zlib_not_xz (if fast then 1 else 6) raw
  have hz := c.zlib_lossless (if fast then 1 else 6) raw
  have ht : ∀ t ∈ w.layout.rows, t.ts < 2 ^ 53 := by
    rw [rows_layout h]
    exact List.forall_mem_map.mpr fun t ht => (h.allRows t ht).toInt_ts.right.right
  have hunmarked {ss : List JsString} (hss : ∀ s ∈ ss, s.IsText) :
      IssuesHistoryReader.Unmarked (ss.map textEncode) := List.forall_mem_map.mpr fun s hs =>
    (hss s hs).trans (JsString.ofString_textEncode (hss s hs)).symm
  constructor
  case left =>
    refine ⟨IssuesHistoryReader.ofLayout w.layout, ?_, fun issueId => ⟨w.rowsOf issueId, h.inOrder issueId, ?_⟩⟩
    case refine_1 =>
      have hg : (guard ((c.zlibCompress (if fast then 1 else 6) raw).take 6 ≠ c.xzMagic) : Option Unit) = some () :=
        if_pos hxz
      refine (bind_of_eq_some hg _).trans <| (bind_of_eq_some hz _).trans ?_
      rw [he]
      exact IssuesHistoryReader.parse_encode hp ho (hunmarked h.sortedIds) (hunmarked h.commentTable) repair
    case refine_2 =>
      by_cases hid : ∃ id, JsString.ofString id = issueId
      case pos =>
        obtain ⟨id, rfl⟩ := hid
        rw [IssuesHistoryReader.historyForIssue_ofLayout hp ho ht]
        exact h.tells id
      case neg =>
        have hm : issueId ∉ w.transitions.keys := fun hm => hid ⟨_, JsString.ofString_textEncode (h.ids issueId hm)⟩
        rw [IssuesHistoryReader.historyForIssue_of_not_mem ho.nodup fun id _ he => hid ⟨id, he⟩, rowsOf_of_not_mem hm]
        exact .nil
  case right =>
    have hread : IssueHistory.IssueHistoryReader.read c accel (c.zlibCompress (if fast then 1 else 6) raw) =
        .value w.layout.reader := by
      have hl : accel → w.layout.rows.length < 2 ^ 27 := fun ha => by
        rw [rows_layout h, List.length_map, (perm_allRows w).length_eq]
        exact h.total ha
      rw [IssueHistory.IssueHistoryReader.read, Compression.decompress, if_neg hxz, hz, he]
      exact hp.parse ho (fun t hm => by have := ht t hm; omega) accel hl
    refine ⟨_, hread, fun id => ⟨_, _, ho.historyForIssue hp.comments id, h.inOrder _, ?_⟩⟩
    rw [List.map_map]
    exact h.tells id

end Fits

end IssuesHistoryWriter

-- Sets of issues and logs of what became of them are read in both languages as they were, as long as all they have been
-- given fits.
theorem codecs_recover (repair : List UInt8 → JsString) :
    (∀ opened s : IssueSet, opened.Opened repair → ReachedBy IssueStep.apply IssueStep.Fits opened s →
      s.Recovered repair) ∧
    ∀ (c : Compression) (accel fast : Bool) (w : IssuesHistoryWriter) (data : List UInt8), w.Fits accel →
      w.sealWith c fast = some data → w.Recovered c repair accel data :=
  ⟨fun _ _ ho h => IssueStep.recovered_of_reached ho h, fun _ _ _ _ _ h hs => h.recovered hs repair⟩

theorem codecs_recover_one :
    let step := IssueStep.addIssue { id := .ofString "A", createdAt := .ofBigInt 100 }
    let c := Compression.ofText
      [72, 83, 83, 73, 1, 1, 0, 1, 0, 1, 0, 2, 0, 0, 0, 1, 65, 4, 100, 111, 110, 101, 0, 0, 0, 0, 0, 0, 2, 0, 50, 0, 0, 0,
        0, 50, 0, 3, 255, 255, 0, 0]
      [120, 1, 243, 8, 14, 246, 100, 100, 100, 0, 65, 38, 6, 6, 6, 70, 71, 150, 148, 252, 188, 84, 32, 11,
        8, 152, 24, 140, 64, 148, 17, 3, 243, 255, 255, 12, 12, 0, 105, 50, 5, 145]
      [120, 218, 243, 8, 14, 246, 100, 100, 100, 0, 65, 38, 6, 6, 6, 70, 71, 150, 148, 252, 188, 84, 6, 48,
        96, 98, 48, 2, 81, 70, 12, 204, 255, 255, 51, 48, 0, 0, 105, 50, 5, 145]
      rfl rfl
    let w : IssuesHistoryWriter := (IssuesHistoryWriter.add {} (.ofString "A")
      ⟨.ofBigInt 100, .ofBigInt 3, .ofString "done"⟩).add (.ofString "A") ⟨.ofBigInt 50, .ofBigInt 0, []⟩
    (step.apply {}).Recovered (fun _ => []) ∧
      ∃ data, w.sealWith c true = some data ∧ w.Recovered c (fun _ => []) true data := by
  intro step c w
  have hfits (bits : Nat) (n : Int) (h : 0 ≤ n ∧ n < 2 ^ bits) (hd : IsDouble n) : Fits bits (.ofBigInt n) :=
    ⟨n, JsNumber.toInt_ofBigInt_iff.mpr hd, h⟩
  have hcreated := hfits 32 100 (by decide) (by decide)
  have hzero : Fits 32 .zero := ⟨0, rfl, by decide⟩
  have hstep : step.Fits {} := .inr ⟨by decide, ⟨hcreated, hzero, hzero⟩, by decide⟩
  have hdone : Transition.Fits ⟨.ofBigInt 100, .ofBigInt 3, .ofString "done"⟩ :=
    ⟨hfits 53 100 (by decide) (by decide), hfits 8 3 (by decide) (by decide), JsString.isText_iff.mpr ⟨"done", rfl, by decide⟩⟩
  have hopen : Transition.Fits ⟨.ofBigInt 50, .ofBigInt 0, []⟩ :=
    ⟨hfits 53 50 (by decide) (by decide), hfits 8 0 (by decide) (by decide), rfl⟩
  have hw : w.Fits true := {
    ids          := (by decide : ∀ issueId ∈ w.transitions.keys, textDecode (textEncode issueId) = issueId)
    transitions  := IssuesHistoryWriter.forall_recorded_add (IssuesHistoryWriter.forall_recorded_add nofun _ hdone) _ hopen
    base         := .inr ⟨.ofString "A", _, .head _, hcreated⟩
    idCount      := by decide
    rowCount id  := by
      have h := IssuesHistoryWriter.length_recorded_add_le {} (.ofString "A")
        ⟨.ofBigInt 100, .ofBigInt 3, .ofString "done"⟩ id
      have h' := IssuesHistoryWriter.length_recorded_add_le (IssuesHistoryWriter.add {} (.ofString "A")
        ⟨.ofBigInt 100, .ofBigInt 3, .ofString "done"⟩) (.ofString "A") ⟨.ofBigInt 50, .ofBigInt 0, []⟩ id
      exact (h'.trans (Nat.succ_le_succ h)).trans_lt (by decide : 0 + 1 + 1 < 2 ^ 16)
    commentCount := by decide
    total _      := by decide }
  have hs : w.sealWith c true = some (c.zlibCompress 1 _) := congrArg (Option.map (c.zlibCompress 1)) (by decide +kernel :
    w.buildRaw = some
      [72, 83, 83, 73, 1, 1, 0, 1, 0, 1, 0, 2, 0, 0, 0, 1, 65, 4, 100, 111, 110, 101, 0, 0, 0, 0, 0, 0, 2, 0, 50, 0, 0, 0,
        0, 50, 0, 3, 255, 255, 0, 0])
  have ⟨hissues, hhistory⟩ := codecs_recover fun _ => []
  exact ⟨hissues {} _ .new (.step step .start hstep), _, hs, hhistory c true true w _ hw hs⟩

-- A time of 33 bits loses the highest.
theorem late_issue_not_recovered :
    let s := (IssueStep.addIssue { id := .ofString "A", createdAt := .ofBigInt (2 ^ 32) }).apply {}
    ReachedBy IssueStep.apply (fun _ _ => True) {} s ∧ ¬s.Recovered fun _ => [] := by
  refine ⟨.step _ .start trivial, fun ⟨⟨t, hr, hc⟩, _⟩ => ?_⟩
  have hne : (IssueTables.fromBytes (fun _ => []) ((IssueStep.addIssue
      { id := .ofString "A", createdAt := .ofBigInt (2 ^ 32) }).apply {}).serialize).map IssueTables.contents ≠
      some ((IssueStep.addIssue { id := .ofString "A", createdAt := .ofBigInt (2 ^ 32) }).apply {}).contents := by
    decide +kernel
  exact hne <| (congrArg (Option.map IssueTables.contents) hr).trans (congrArg some hc)

end TsIssues
