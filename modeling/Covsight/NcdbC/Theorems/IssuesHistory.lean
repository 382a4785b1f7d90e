import Covsight.Ncdb.Theorems.IssuesTimeTravel
import Covsight.NcdbC.Issues
import Covsight.NcdbC.Theorems.Issues

-- What the C library tells of the states of issues that the Python library recorded.

open Decoder IssueHistory StringTable

namespace NcdbIssueHist

variable {w : IssueHistoryWriter} {p : NcdbPlatform}

def ofWriter (w : IssueHistoryWriter) : NcdbIssueHist where
  idTable      := w.sortedIds.map fun s => cString (utf8 s)
  commentTable := w.commentTable.map fun s => cString (utf8 s)
  issueIndex   := w.issueIndex
  tsBase       := w.tsBase.toNat
  tsDeltas     := w.deltaCol
  stateBytes   := w.stateCol
  commentIdxs  := w.commentCol

theorem reads_request (len : UInt64) : (request len).Reads [] () :=
  fun _ c hm _ => ⟨c, by rw [request, if_pos (hm _)], rfl⟩

theorem reads_u8String {s : String} (h : (utf8 s).length < 2 ^ 8) :
    issueHistReadU8String.Reads (encodeString s) (cString (utf8 s)) := by
  have hl : (0 : Int) ≤ (utf8 s).length ∧ ((utf8 s).length : Int) < 256 ^ 1 := by omega
  have hrest : (do room (utf8 s).length; request (utf8 s).length.toUInt64; return cString (← take (utf8 s).length) :
      Decoder CString).Reads (encodeFields [] ++ utf8 s) (cString (utf8 s)) :=
    Reads.room ((reads_request _).bind <| (reads_take (utf8 s)).map cString) (Nat.le_refl _)
  refine Reads.room (.field_append hl hrest) ?_
  rw [encodeString, List.length_append]
  exact Nat.le_add_right ..

theorem reads_histIdx {numIdStrings numRecords : Nat} {e : Nat × Nat × Nat}
    (hp : Packable (entryFields e)) (hi : e.fst < numIdStrings)
    (hr : e.snd.fst + e.snd.snd ≤ numRecords) :
    (readHistIdx numIdStrings numRecords).Reads (encodeFields (entryFields e)) e := by
  obtain ⟨idStrIdx, startRow, count⟩ := e
  simp only [entryFields, packable_cons] at hp
  obtain ⟨hii, hs, hc, -⟩ := hp
  simp only at hi hr
  refine Reads.room (.field hii <| .field hs <| .field hc ?_) (Nat.le_refl 8)
  refine (reads_check (decide_eq_true hi)).bind <| (reads_check (decide_eq_true ?_)).bind <| reads_pure _
  constructor <;> simp only [Int.toNat_natCast] <;> omega

theorem reads_histDelta {d : Nat} (h : d < 2 ^ 32) : readHistDelta.Reads (encodeVarint d) d := by
  have hn : (UInt64.ofNat d).toNat = d := UInt64.toNat_ofNat_of_lt' (by change d < 2 ^ 64; omega)
  have hv := reads_varint (UInt64.ofNat d)
  rw [hn] at hv
  refine hv.bind_pure ?_
  rw [hn]
  exact (reads_check (decide_eq_true h)).bind <| reads_pure _

theorem issueIndex_bounds {e : Nat × Nat × Nat} (he : e ∈ w.issueIndex) : e.fst < w.sortedIds.length ∧
    e.snd.fst + e.snd.snd ≤ w.allRows.length := by
  rw [IssueHistoryWriter.issueIndex, IssueHistoryWriter.issueIndexFrom_eq] at he
  have ⟨before, g, after, hg, he⟩ := mem_groupIndexFrom he
  have hl := congrArg List.length hg
  have hf : (w.laidOut w.sortedIds).length = (before ++ g :: after).flatten.length := by
    rw [IssueHistoryWriter.laidOut, List.flatMap_def, hg]
  rw [List.length_map, List.length_append, List.length_cons] at hl
  rw [List.flatten_append, List.flatten_cons, List.length_append, List.length_append] at hf
  rw [he, IssueHistoryWriter.length_allRows]
  simp only
  omega

theorem reads_issueHistParse (h : w.Packs) (ht : w.Timed) (hc : ∀ n, p.calloc n) :
    (issueHistParse p).Reads w.encodeRaw (ofWriter w) := by
  have hhead := h.header
  simp only [IssueHistoryWriter.headerFields, packable_cons] at hhead
  obtain ⟨hm, hv, hni, hnc, hnx, hnr, -⟩ := hhead
  have hb : 0 ≤ w.tsBase ∧ w.tsBase < 256 ^ 4 := h.tsBase
  obtain ⟨hdl, hsl, hcl⟩ := IssueHistoryWriter.length_columns w
  have hids := reads_many fun s hs => reads_u8String (h.ids s hs)
  have hcomments := reads_many fun s hs => reads_u8String (h.texts s hs)
  have hindex := reads_many (g := id) fun e he =>
    reads_histIdx (h.entries e he) (issueIndex_bounds he).left (issueIndex_bounds he).right
  have hdelta : ∀ d ∈ w.deltaCol, d < 2 ^ 32 := List.forall_mem_map.mpr fun d hd => by
    have := ht.tsDeltas_lt d hd
    omega
  have hdeltas := reads_many (g := id) fun d hd => reads_histDelta (hdelta d hd)
  have hstates := reads_many (g := id) fun n hn => reads_word (h.stateCol_lt n hn)
  have hidxs := reads_many (g := id) fun n hn => reads_word (h.commentCol_lt n hn)
  rw [List.map_id] at hindex
  rw [List.map_id, hdl, ← IssueHistoryWriter.length_allRows] at hdeltas
  rw [List.map_id, hsl, ← IssueHistoryWriter.length_allRows] at hstates
  rw [List.map_id, hcl, ← IssueHistoryWriter.length_allRows] at hidxs
  rw [IssueHistoryWriter.encodeRaw, IssueHistoryWriter.encodeTables, List.append_assoc, List.append_assoc,
    List.append_assoc, List.append_assoc]
  refine Reads.room (.field_append hm <| .field_append hv <| .field_append hni <| .field_append hnc <|
    .field_append hnx <| .field_append hnr ?_) ?_
  case refine_1 =>
    refine (reads_check (decide_eq_true rfl)).bind <| (reads_check (decide_eq_true rfl)).bind ?_
    refine (reads_checkedCalloc hc _).bind <| (reads_checkedCalloc hc _).bind <|
      (reads_checkedCalloc hc _).bind <| (reads_checkedCalloc hc _).bind ?_
    refine hids.bind <| hcomments.bind <| hindex.bind ?_
    have hcols : (w.stateCol.flatMap (encodeLe 1) ++ w.commentCol.flatMap (encodeLe 2)).length =
        w.allRows.length + w.allRows.length * 2 := by
      simp only [List.length_append, List.length_flatMap, length_encodeLe, List.map_const', List.sum_replicate_nat,
        hsl, hcl, IssueHistoryWriter.length_allRows, Nat.mul_one]
    refine Reads.room (.field_append hb <| hdeltas.bind <|
      Reads.room (hstates.bind <| hidxs.bind_pure <| reads_pure _) (Nat.le_of_eq hcols.symm)) ?_
    have hl : (encodeFields [(4, w.tsBase)]).length = 4 := rfl
    rw [List.length_append, hl]
    exact Nat.le_add_right ..
  case refine_2 =>
    have hl : (encodeFields w.headerFields).length = 15 := rfl
    rw [List.length_append, hl]
    exact Nat.le_add_right ..

section Walk

variable {hist : NcdbIssueHist} {start : Nat} {prev : Int} {tl : List Transition}

-- What the callback gets of a transition.
def row (t : Transition) : Nat × Nat × CString :=
  (t.ts.toNat, t.newState.toNat, cString (utf8 t.comment))

theorem nextTs {t prev : Int} (hp : 0 ≤ prev) (ht : prev ≤ t) (hlt : t < 2 ^ 32) :
    (prev.toNat + (t - prev).toNat) % 2 ^ 32 = t.toNat := by
  omega

theorem rows_eq (h : Rows w.commentIdx hist.tsDeltas hist.stateBytes hist.commentIdxs start prev tl) (hz : 0 ≤ prev)
    (hp : (prev :: tl.map Transition.ts).Pairwise (· ≤ ·)) (hlt : ∀ t ∈ tl, t.ts < 2 ^ 32)
    (hc : ∀ t ∈ tl, (if w.commentIdx t.comment ≠ ncdbIssueHistNoComment then
      hist.commentTable[w.commentIdx t.comment]? else some []) = some (cString (utf8 t.comment))) :
    hist.rows prev.toNat (List.range' start tl.length) = some (tl.map row) := by
  induction tl generalizing start prev
  case nil          => rfl
  case cons t tl hi =>
    have ⟨hd, hs, hcm⟩ := h.head
    have ⟨hle, hp⟩ := List.pairwise_cons.mp hp
    have ⟨hct, hc⟩ := List.forall_mem_cons.mp hc
    have ⟨htl, hlt⟩ := List.forall_mem_cons.mp hlt
    have hts := nextTs hz (hle t.ts (.head _)) htl
    have hz : 0 ≤ t.ts := Int.le_trans hz (hle t.ts (.head _))
    rw [List.length_cons, List.range'_succ, rows]
    refine (bind_of_eq_some hd _).trans <| (bind_of_eq_some hcm _).trans <| (bind_of_eq_some hct _).trans ?_
    refine (bind_of_eq_some hs _).trans ?_
    simp only [hts, hi h.tail hz hp hlt hc]
    rfl

theorem lastState_eq {ts : Nat} {last : Int}
    (h : Rows w.commentIdx hist.tsDeltas hist.stateBytes hist.commentIdxs start prev tl) (hz : 0 ≤ prev)
    (hp : (prev :: tl.map Transition.ts).Pairwise (· ≤ ·)) (hlt : ∀ t ∈ tl, t.ts < 2 ^ 32) :
    hist.lastState ts prev.toNat last (List.range' start tl.length) =
      some (lastUpTo (fun t => (t.newState.toNat : Int)) ts last tl) := by
  induction tl generalizing start prev last
  case nil          => rfl
  case cons t tl hi =>
    have ⟨hd, hs, _⟩ := h.head
    have ⟨hle, hp⟩ := List.pairwise_cons.mp hp
    have ⟨htl, hlt⟩ := List.forall_mem_cons.mp hlt
    have hts := nextTs hz (hle t.ts (.head _)) htl
    have hz : 0 ≤ t.ts := Int.le_trans hz (hle t.ts (.head _))
    have hgt : t.ts.toNat > ts ↔ t.ts > ts := by omega
    rw [List.length_cons, List.range'_succ, lastState, lastUpTo]
    refine (bind_of_eq_some hd _).trans ?_
    simp only [hts, hgt]
    split
    case isTrue  => rfl
    case isFalse => exact (bind_of_eq_some hs _).trans <| hi h.tail hz hp hlt

end Walk

-- The entry that is found is the one of an issue whose id is the same up to its first zero byte.
theorem entryOf_ofWriter (w : IssueHistoryWriter) (issueId : CString) :
    (∃ id ∈ w.sortedIds, cString (utf8 id) = issueId ∧ ∃ i start,
      (ofWriter w).entryOf issueId = some (i, start, (w.sortedTransitions id).length) ∧
      Rows w.commentIdx w.deltaCol w.stateCol w.commentCol start w.tsBase (w.sortedTransitions id)) ∨
    (∀ id ∈ w.sortedIds, cString (utf8 id) ≠ issueId) ∧ (ofWriter w).entryOf issueId = none := by
  have htable {before after : List String} {id : String} (hs : w.sortedIds = before ++ id :: after) :
      (ofWriter w).idTable[before.length]? = some (cString (utf8 id)) := by
    simp [ofWriter, hs]
  cases hf : (ofWriter w).entryOf issueId with
  | none   =>
    refine .inr ⟨fun id hid he => ?_, rfl⟩
    have ⟨before, after, hs⟩ := List.append_of_mem hid
    have hm := List.mem_of_getElem? (IssueHistoryWriter.rows_of_entry hs).left
    exact List.find?_eq_none.mp hf _ hm <| decide_eq_true (he ▸ htable hs)
  | some e =>
    rw [entryOf] at hf
    have hi := List.find?_some hf
    have ⟨i, hlt, he⟩ := List.getElem_of_mem <| List.mem_of_find?_eq_some hf
    have hl : i < w.sortedIds.length := IssueHistoryWriter.length_issueIndex w ▸ hlt
    have hs : w.sortedIds = w.sortedIds.take i ++ w.sortedIds[i] :: w.sortedIds.drop (i + 1) := by
      rw [List.getElem_cons_drop, List.take_append_drop]
    have ⟨hentry, hrows⟩ := IssueHistoryWriter.rows_of_entry hs
    have htaken : (w.sortedIds.take i).length = i := List.length_take_of_le (Nat.le_of_lt hl)
    have he : w.issueIndex[i]? = some e := List.getElem?_eq_some_iff.mpr ⟨hlt, he⟩
    rw [htaken, he] at hentry
    cases hentry
    refine .inl ⟨_, List.getElem_mem hl, ?_, i, _, rfl, hrows⟩
    have hid := htable hs
    rw [htaken] at hid
    exact Option.some.inj <| hid.symm.trans (of_decide_eq_true hi)

-- Comments end before a zero byte, whatever is parsed.

theorem not_mem_cString (bytes : List UInt8) : 0 ∉ cString bytes := by
  intro h
  rw [cString] at h
  have hz := List.mem_takeWhile_imp h
  exact absurd rfl (of_decide_eq_true hz)

theorem yields_u8String : issueHistReadU8String.Yields (0 ∉ ·) :=
  .of_next fun _ => .of_next fun _ => .of_next fun _ => .of_next fun _ => .of_next fun bytes =>
    yields_pure <| not_mem_cString bytes

theorem yields_issueHistParse (p : NcdbPlatform) :
    (issueHistParse p).Yields fun hist => ∀ s ∈ hist.commentTable, 0 ∉ s := by
  iterate 13 refine .of_next fun _ => ?_
  refine .of_next fun _ => (yields_many yields_u8String _).bind fun _ hc => ?_
  iterate 7 refine .of_next fun _ => ?_
  exact yields_pure hc

theorem rows_bounds {hist : NcdbIssueHist} (hc : ∀ s ∈ hist.commentTable, 0 ∉ s) {currTs : Nat} {is : List Nat}
    {rs : List (Nat × Nat × CString)} (h : hist.rows currTs is = some rs) :
    ∀ r ∈ rs, r.fst < 2 ^ 32 ∧ 0 ∉ r.snd.snd := by
  induction is generalizing currTs rs
  case nil          => cases h; nofun
  case cons i is hi =>
    rw [rows, Option.bind_eq_bind] at h
    have ⟨_, _, h⟩ := Option.bind_eq_some_iff.mp h
    have ⟨_, _, h⟩ := Option.bind_eq_some_iff.mp h
    have ⟨comment, hcomment, h⟩ := Option.bind_eq_some_iff.mp h
    have ⟨_, _, h⟩ := Option.bind_eq_some_iff.mp h
    have ⟨_, hrs, h⟩ := Option.bind_eq_some_iff.mp h
    cases h
    refine List.forall_mem_cons.mpr ⟨⟨Nat.mod_lt _ (by decide), ?_⟩, hi hrs⟩
    split at hcomment
    case isTrue  => exact hc _ <| List.mem_of_getElem? hcomment
    case isFalse => cases hcomment; exact List.not_mem_nil

end NcdbIssueHist

namespace IssueHistory

open NcdbIssueHist IssueHistoryWriter

def IssueStateTransition.transition (t : IssueStateTransition) : Transition :=
  ⟨t.ts, t.newState, t.comment⟩

-- The one reader tells of each issue what was recorded of it.
structure IssueHistoryReader.Tells (reader : IssueHistoryReader) (log : List (String × Transition)) : Prop where
  history : ∀ id, (reader.historyForIssue id).map (·.map IssueStateTransition.transition) = some (history log id)
  state   : ∀ id ts, (reader.stateAt id ts).map (·.map Int.ofNat) = some (stateOf log id ts)

-- The ids that one may ask for are those of the issues, and all that a C string can have.
def Asked (log : List (String × Transition)) (id : String) : Prop :=
  0 ∉ utf8 id ∨ ∃ e ∈ log, e.fst = id

-- And so does the other, of which the state is -1 where there is none.
structure ToldByC (p : NcdbPlatform) (malloc : UInt64 → Bool) (inflate : List UInt8 → Option (List UInt8))
    (data : List UInt8) (log : List (String × Transition)) : Prop where
  history : ∀ id, Asked log id → (issueHistoryIterate p malloc inflate data (cString (utf8 id))).map
    (·.map fun (ts, state, comment) => ((ts : Int), (state : Int), comment)) =
    some ((history log id).map fun t => (t.ts, t.newState, utf8 t.comment))
  state   : ∀ id ts, Asked log id → ts < 2 ^ 32 →
    issueStateAt p malloc inflate data (cString (utf8 id)) ts = (stateOf log id ts).getD (-1)

-- What zlib is relied on for. Its streams are told from those of the other kind, and it is either there or not.
structure Inflates (c : Compression) (inflate : List UInt8 → Option (List UInt8)) : Prop where
  deflated : ∀ level raw, raw.length < 2 ^ 30 → inflate (c.zlibCompress level raw) = some raw
  some_out : ∀ level raw, c.zlibCompress level raw ≠ []
  bound    : ∀ level raw, (c.zlibCompress level raw).length ≤ 2 * raw.length + 64
  not_xz   : ∀ stream, stream.take 6 = c.xzMagic → stream ≠ [] ∧ inflate stream = none
  lzma     : (∀ raw, c.lzmaCompress raw = none) ∨ ∀ raw, (c.lzmaCompress raw).isSome

section

variable {c : Compression} {p : NcdbPlatform} {malloc : UInt64 → Bool}
  {inflate : List UInt8 → Option (List UInt8)} {data : List UInt8} {log : List (String × Transition)}

theorem issueHistLoad_eq {hist : NcdbIssueHist} {raw : List UInt8} (hl : data.length < 2 ^ 32)
    (hi : inflate data = some raw) (small : raw.length < 2 ^ 63)
    (hd : (issueHistParse p ⟨⟨raw, small⟩, malloc, true⟩ {}).fst = .done hist) :
    issueHistLoad p malloc inflate data = some hist := by
  rw [issueHistLoad, guard, if_pos hl, hi]
  change (if small : raw.length < 2 ^ 63 then _ else none : Option NcdbIssueHist) = _
  rw [dif_pos small, hd]

theorem cString_eq {bytes : List UInt8} (h : 0 ∉ bytes) : cString bytes = bytes :=
  List.takeWhile_eq_self_iff.mpr fun _ hb => decide_eq_true fun he => h (he ▸ hb)

theorem mem_history {id : String} {t : Transition} : t ∈ history log id ↔ (id, t) ∈ log := by
  rw [history, (List.perm_insertionSort ..).mem_iff, List.mem_map]
  constructor
  case mp =>
    rintro ⟨e, he, ht⟩
    obtain ⟨he, hid⟩ := List.mem_filter.mp he
    exact of_decide_eq_true hid ▸ ht ▸ he
  case mpr => exact fun h => ⟨_, List.mem_filter.mpr ⟨h, decide_eq_true rfl⟩, rfl⟩

theorem stateOf_ofNat (h : ∀ e ∈ log, 0 ≤ e.snd.newState) (id : String) (ts : Int) :
    (((history log id).filter (·.ts ≤ ts)).getLast?).map (fun t => (t.newState.toNat : Int)) = stateOf log id ts := by
  refine Option.map_congr fun t ht => Int.toNat_of_nonneg <| h (id, t) <| mem_history.mp ?_
  exact List.mem_of_mem_filter <| List.mem_of_getLast? ht

theorem Fits.tells (h : Fits log) : (ofLog log).reader.Tells log where
  history id    := by
    rw [(Packs.of_fits h).historyForIssue, Option.map_some, List.map_map, sortedTransitions_ofLog]
    refine congrArg some <| (List.map_congr_left fun t ht => ?_).trans (List.map_id _)
    have hn := (h.states _ <| mem_history.mp ht).left
    simp only [Function.comp_apply, IssueStateTransition.transition, Int.toNat_of_nonneg hn, id_eq]
  state   id ts := by
    rw [stateAt_reader, Option.map_some, Option.map_map, sortedTransitions_ofLog,
      ← stateOf_ofNat fun e he => (h.states e he).left]
    rfl

-- What was stored with zlib.
theorem Fits.loaded (h : Fits log) (hz : Inflates c inflate) (hc : ∀ n, p.calloc n) (hm : ∀ n, malloc n)
    (hl : log.length < 2 ^ 26) (level : Nat) :
    issueHistLoad p malloc inflate (c.zlibCompress level (ofLog log).encodeRaw) = some (ofWriter (ofLog log)) := by
  have hraw := (Packs.of_fits h).length_encodeRaw_le (Timed.of_fits h)
  have hb := hz.bound level (ofLog log).encodeRaw
  rw [length_laidOut_ofLog] at hraw
  have hsmall : (ofLog log).encodeRaw.length < 2 ^ 63 := by omega
  have hlt : (c.zlibCompress level (ofLog log).encodeRaw).length < 2 ^ 32 := by omega
  have hr := reads_issueHistParse (Packs.of_fits h) (Timed.of_fits h) hc
  have ⟨_, hd, _⟩ := hr ⟨⟨_, hsmall⟩, malloc, true⟩ {} hm ⟨Nat.zero_le _, List.prefix_rfl⟩
  have hi := hz.deflated level (ofLog log).encodeRaw (by omega)
  exact issueHistLoad_eq hlt hi hsmall (congrArg Prod.fst hd)

-- What both libraries can read.
structure Readable (c : Compression) (highQuality useLzma : Bool) (log : List (String × Transition)) : Prop
    extends Fits log where
  zeroFree : ∀ e ∈ log, 0 ∉ utf8 e.snd.comment
  oneId    : ∀ e ∈ log, ∀ id, Asked log id → cString (utf8 e.fst) = cString (utf8 id) →
    history log e.fst = history log id
  deflated : highQuality = true → useLzma = true → ∀ raw, c.lzmaCompress raw = none

variable {highQuality useLzma : Bool}

-- The entry that is found has the history of the issue that is asked for.
theorem Readable.entryOf (h : Readable c highQuality useLzma log) {id : String} (hq : Asked log id) :
    (∃ i start, (ofWriter (ofLog log)).entryOf (cString (utf8 id)) = some (i, start, (history log id).length) ∧
      Rows (ofLog log).commentIdx (ofWriter (ofLog log)).tsDeltas (ofWriter (ofLog log)).stateBytes
        (ofWriter (ofLog log)).commentIdxs start (ofLog log).tsBase (history log id)) ∨
    (ofWriter (ofLog log)).entryOf (cString (utf8 id)) = none ∧ history log id = [] := by
  rcases entryOf_ofWriter (ofLog log) (cString (utf8 id)) with ⟨id', hm, hid, i, start, he, hr⟩ | ⟨hn, he⟩
  case inl =>
    have ⟨e, hlog, hfst⟩ := mem_sortedIds_ofLog.mp hm
    subst hfst
    rw [sortedTransitions_ofLog, h.oneId e hlog id hq hid] at he hr
    exact .inl ⟨i, start, he, hr⟩
  case inr =>
    have hid : id ∉ (ofLog log).sortedIds := fun hm => hn id hm rfl
    exact .inr ⟨he, sortedTransitions_ofLog log id ▸ sortedTransitions_of_not_mem hid⟩

theorem Fits.pairwise_times (id : String) : ((ofLog log).tsBase :: (history log id).map Transition.ts).Pairwise (· ≤ ·) :=
  sortedTransitions_ofLog log id ▸ IssueHistoryWriter.pairwise_times (ofLog log) id

theorem Fits.ts_lt (h : Fits log) (id : String) : ∀ t ∈ history log id, t.ts < 2 ^ 32 :=
  fun _ ht => (h.times _ (mem_history.mp ht)).right

theorem Fits.comments_found (h : Fits log) (id : String) : ∀ t ∈ history log id,
    (if (ofLog log).commentIdx t.comment ≠ ncdbIssueHistNoComment then
      (ofWriter (ofLog log)).commentTable[(ofLog log).commentIdx t.comment]? else some []) =
      some (cString (utf8 t.comment)) := by
  intro t ht
  have hc := (commentIdx_spec (mem_laidOut (sortedTransitions_ofLog log id ▸ ht)) (Packs.of_fits h).comments).right
  change (if (ofLog log).commentIdx t.comment ≠ noComment then _ else _) = _
  split at hc
  case isTrue hn  => rw [if_pos hn, ofWriter, List.getElem?_map, hc, Option.map_some]
  case isFalse hn => rw [if_neg hn, ← Option.some.inj hc]; rfl

-- It is enough that no id has a zero byte.
theorem oneId_of_zeroFree (h : ∀ e ∈ log, 0 ∉ utf8 e.fst) : ∀ e ∈ log, ∀ id, Asked log id →
    cString (utf8 e.fst) = cString (utf8 id) → history log e.fst = history log id := by
  intro e he id hq hid
  have hz : 0 ∉ utf8 id := by
    rcases hq with hz | ⟨e', he', hfst⟩
    case inl => exact hz
    case inr => exact hfst ▸ h e' he'
  rw [cString_eq (h e he), cString_eq hz] at hid
  rw [StringTable.utf8_injective hid]

section Loaded

variable (h : Readable c highQuality useLzma log) (hd : data ≠ [])
  (hl : issueHistLoad p malloc inflate data = some (ofWriter (ofLog log)))
include h hd hl

theorem issueHistoryIterate_eq {id : String} (hq : Asked log id) : issueHistoryIterate p malloc inflate data (cString (utf8 id)) =
    some ((history log id).map row) := by
  rw [issueHistoryIterate, if_neg hd]
  refine (bind_of_eq_some hl _).trans ?_
  rcases h.entryOf hq with ⟨i, start, he, hr⟩ | ⟨he, hn⟩
  case inl =>
    simp only [he]
    exact rows_eq hr (Packs.of_fits h.toFits).tsBase.left (Fits.pairwise_times id) (h.ts_lt id) (h.comments_found id)
  case inr =>
    simp only [he, hn]
    rfl

theorem issueStateAt_eq {id : String} (hq : Asked log id) (ts : Nat) : issueStateAt p malloc inflate data (cString (utf8 id)) ts =
    (stateOf log id ts).getD (-1) := by
  rw [issueStateAt, if_neg hd, hl]
  rcases h.entryOf hq with ⟨i, start, he, hr⟩ | ⟨he, hn⟩
  case inl =>
    simp only [he]
    have hs : (ofWriter (ofLog log)).lastState ts (ofLog log).tsBase.toNat (-1)
        (List.range' start (history log id).length) = some _ :=
      lastState_eq hr (Packs.of_fits h.toFits).tsBase.left (Fits.pairwise_times id) (h.ts_lt id)
    have hp : (history log id).Pairwise Transition.before := List.pairwise_insertionSort ..
    refine (congrArg (Option.getD · (-1)) hs).trans ?_
    rw [Option.getD_some, lastUpTo_eq _ _ _ hp, stateOf_ofNat fun e he => (h.states e he).left]
  case inr =>
    simp only [he, stateOf, hn]
    rfl

theorem Readable.toldByC : ToldByC p malloc inflate data log where
  history id hq      := by
    rw [issueHistoryIterate_eq h hd hl hq, Option.map_some, List.map_map]
    refine congrArg some <| List.map_congr_left fun t ht => ?_
    have hm := mem_history.mp ht
    have hz := cString_eq (h.zeroFree _ hm)
    simp only [Function.comp_apply, row, hz, Int.toNat_of_nonneg (h.times _ hm).left,
      Int.toNat_of_nonneg (h.states _ hm).left]
  state id ts hq _ := issueStateAt_eq h hd hl hq ts

end Loaded

-- The log is sealed, and both libraries tell of each issue what was recorded.
def SealedAlike (c : Compression) (accel accel' highQuality useLzma : Bool) (p : NcdbPlatform)
    (malloc : UInt64 → Bool) (inflate : List UInt8 → Option (List UInt8)) (log : List (String × Transition)) : Prop :=
  ∃ data reader, (ofLog log).sealWith c accel highQuality useLzma = .value data ∧
    IssueHistoryReader.read c accel' data = .value reader ∧ reader.Tells log ∧ ToldByC p malloc inflate data log

variable {accel accel' : Bool}

theorem Readable.compress (h : Readable c highQuality useLzma log) (raw : List UInt8) :
    ∃ level, c.compress highQuality useLzma raw = c.zlibCompress level raw := by
  rw [Compression.compress]
  cases hq : highQuality with
  | false => exact ⟨1, rfl⟩
  | true  =>
    cases hu : useLzma with
    | false => exact ⟨9, rfl⟩
    | true  => exact ⟨9, by simp only [h.deflated hq hu raw]; rfl⟩

theorem Readable.sealedAlike (h : Readable c highQuality useLzma log) (hz : Inflates c inflate)
    (hc : ∀ n, p.calloc n) (hm : ∀ n, malloc n) (hl : log.length < 2 ^ 26) :
    SealedAlike c accel accel' highQuality useLzma p malloc inflate log := by
  have hp := Packs.of_fits h.toFits
  have ht := Timed.of_fits h.toFits
  have hn : ((ofLog log).laidOut (ofLog log).sortedIds).length < 2 ^ 27 := by
    rw [length_laidOut_ofLog]
    omega
  have ⟨level, hlevel⟩ := h.compress (ofLog log).encodeRaw
  refine ⟨c.compress highQuality useLzma (ofLog log).encodeRaw, (ofLog log).reader, ?_, ?_, h.tells, ?_⟩
  case refine_1 =>
    rw [sealWith, buildRaw_eq hp ht hn, CallResult.bind]
  case refine_2 =>
    rw [hlevel, IssueHistoryReader.read, Compression.decompress, if_neg (c.zlib_not_xz level _), c.zlib_lossless]
    exact hp.parse ht hn accel'
  case refine_3 =>
    rw [hlevel]
    exact h.toldByC (hz.some_out level _) (h.loaded hz hc hm hl level)

-- Whatever the C library tells has times below 2 ^ 32 and comments without a zero byte.

theorem zeroFree_of_load {hist : NcdbIssueHist} (h : issueHistLoad p malloc inflate data = some hist) :
    ∀ s ∈ hist.commentTable, 0 ∉ s := by
  simp only [issueHistLoad, Option.bind_eq_bind, Option.bind_eq_some_iff] at h
  obtain ⟨_, -, raw, -, h⟩ := h
  split at h
  case isTrue small =>
    split at h
    case h_1 hd =>
      cases h
      generalize (⟨⟨raw, small⟩, malloc, true⟩ : Reading) = r at hd
      exact yields_issueHistParse p r {} _ _ (Prod.ext hd rfl)
    case h_2 => cases h
  case isFalse => cases h

theorem issueHistoryIterate_bounds {issueId : CString} {rs : List (Nat × Nat × CString)}
    (h : issueHistoryIterate p malloc inflate data issueId = some rs) :
    ∀ r ∈ rs, r.fst < 2 ^ 32 ∧ 0 ∉ r.snd.snd := by
  rw [issueHistoryIterate] at h
  split at h
  case isTrue  => cases h; nofun
  case isFalse =>
    have ⟨hist, hl, h⟩ := Option.bind_eq_some_iff.mp h
    split at h
    case h_1 => cases h; nofun
    case h_2 => exact rows_bounds (zeroFree_of_load hl) h

theorem told_bounds (h : ToldByC p malloc inflate data log) :
    ∀ e ∈ log, e.snd.ts < 2 ^ 32 ∧ 0 ∉ utf8 e.snd.comment := by
  intro e he
  have ⟨rs, hrs, hmap⟩ := Option.map_eq_some_iff.mp (h.history e.fst <| .inr ⟨e, he, rfl⟩)
  have hm := List.mem_map_of_mem (f := fun t => (t.ts, t.newState, utf8 t.comment)) (mem_history.mpr he)
  rw [← hmap] at hm
  have ⟨r, hr, he⟩ := List.mem_map.mp hm
  have ⟨hts, hc⟩ := issueHistoryIterate_bounds hrs r hr
  simp only [Prod.mk.injEq] at he
  exact ⟨by omega, he.right.right ▸ hc⟩

theorem oneId_of_told (h : ToldByC p malloc inflate data log) {id id' : String} (hq : Asked log id)
    (hq' : Asked log id') (he : cString (utf8 id) = cString (utf8 id')) : history log id = history log id' := by
  have hh := h.history id hq
  rw [he, h.history id' hq'] at hh
  refine (List.map_injective_iff.mpr (fun t t' ht => ?_) (Option.some.inj hh)).symm
  simp only [Prod.mk.injEq] at ht
  have ⟨hts, hs, hc⟩ := ht
  cases t
  cases t'
  simp_all [StringTable.utf8_injective.eq_iff]

theorem SealedAlike.readable (hz : Inflates c inflate)
    (h : SealedAlike c accel accel' highQuality useLzma p malloc inflate log) :
    Readable c highQuality useLzma log := by
  obtain ⟨data, _, hs, _, _, hc⟩ := h
  rw [sealWith] at hs
  cases hr : (ofLog log).buildRaw accel with
  | raised    => rw [hr] at hs; cases hs
  | undefined => rw [hr] at hs; cases hs
  | value raw =>
    rw [hr] at hs
    cases hs
    refine { Fits.of_packs (.of_buildRaw hr) fun e he => (told_bounds hc e he).left with
      zeroFree := fun e he => (told_bounds hc e he).right
      oneId    := fun e he _ hq => oneId_of_told hc (.inr ⟨e, he, rfl⟩) hq
      deflated := fun hq hu => ?_ }
    refine hz.lzma.resolve_right fun hsome => ?_
    obtain ⟨stream, hstream⟩ := Option.isSome_iff_exists.mp (hsome raw)
    obtain ⟨hne, hnone⟩ := hz.not_xz stream (c.lzma_xz _ _ hstream)
    have hdata : c.compress highQuality useLzma raw = stream := by
      simp [Compression.compress, hq, hu, hstream]
    obtain ⟨_, hrs, _⟩ := Option.map_eq_some_iff.mp (hc.history "" <| .inl List.not_mem_nil)
    rw [hdata, issueHistoryIterate, if_neg hne] at hrs
    obtain ⟨hist, hl, _⟩ := Option.bind_eq_some_iff.mp hrs
    simp only [issueHistLoad, hnone, Option.bind_eq_bind, Option.bind_eq_some_iff] at hl
    obtain ⟨_, -, _, hl, -⟩ := hl
    cases hl

theorem sealedAlike_iff (hz : Inflates c inflate) (hc : ∀ n, p.calloc n) (hm : ∀ n, malloc n)
    (accel accel' highQuality useLzma : Bool) (log : List (String × Transition)) :
    (SealedAlike c accel accel' highQuality useLzma p malloc inflate log → Readable c highQuality useLzma log) ∧
    (log.length < 2 ^ 26 → Readable c highQuality useLzma log →
      SealedAlike c accel accel' highQuality useLzma p malloc inflate log) :=
  ⟨fun h => h.readable hz, fun hl h => h.sealedAlike hz hc hm hl⟩

end

-- Two transitions of an issue, the later one first.
def fixedLater : List (String × Transition) :=
  [("A", ⟨20, 1, "fixed"⟩), ("A", ⟨10, 0, ""⟩)]

def fixedLaterRaw : List UInt8 :=
  [72, 83, 83, 73, 1, 1, 0, 1, 0, 1, 0, 2, 0, 0, 0, 1, 65, 5, 102, 105, 120, 101, 100, 0, 0, 0, 0, 0, 0, 2, 0, 10,
    0, 0, 0, 0, 10, 0, 1, 255, 255, 0, 0]

-- What zlib makes of it on its lowest level. Other data is only marked here.
def fixedLaterDeflated : List UInt8 :=
  [120, 1, 243, 8, 14, 246, 100, 100, 100, 0, 65, 38, 6, 6, 6, 70, 71, 214, 180, 204, 138, 212, 20, 32, 19, 8, 152, 24, 184, 64, 20, 23,
    3, 227, 255, 255, 12, 12, 0, 114, 48, 5, 170]

def fixedLaterDeflate (level : Nat) (data : List UInt8) : List UInt8 :=
  if level = 1 ∧ data = fixedLaterRaw then fixedLaterDeflated else 0x78 :: 0 :: data

def fixedLaterInflate (stream : List UInt8) : Option (List UInt8) :=
  if stream = fixedLaterDeflated then
    some fixedLaterRaw
  else
    match stream with
    | 0x78 :: 0 :: data => some data
    | _                 => none

theorem fixedLaterInflate_deflate (level : Nat) (data : List UInt8) :
    fixedLaterInflate (fixedLaterDeflate level data) = some data := by
  unfold fixedLaterInflate fixedLaterDeflate
  by_cases h : level = 1 ∧ data = fixedLaterRaw
  case pos => rw [if_pos h, if_pos rfl, h.right]
  case neg =>
    rw [if_neg h, if_neg (by simp [fixedLaterDeflated])]
    rfl

theorem fixedLaterDeflate_not_xz (level : Nat) (data : List UInt8) :
    (fixedLaterDeflate level data).take 6 ≠ [0xFD, 0x37, 0x7A, 0x58, 0x5A, 0x00] := by
  rw [fixedLaterDeflate]
  split
  case isTrue  => decide
  case isFalse => simp

theorem fixedLater_lzma_lossless (data stream : List UInt8) (h : (none : Option (List UInt8)) = some stream) :
    (none : Option (List UInt8)) = some data := by
  cases h

theorem fixedLater_lzma_xz (_ stream : List UInt8) (h : (none : Option (List UInt8)) = some stream) :
    stream.take 6 = [0xFD, 0x37, 0x7A, 0x58, 0x5A, 0x00] := by
  cases h

def fixedLaterZlib : Compression where
  zlibCompress    := fixedLaterDeflate
  zlibDecompress  := fixedLaterInflate
  lzmaCompress _  := none
  lzmaDecompress _ := none
  zlib_lossless   := fixedLaterInflate_deflate
  zlib_not_xz     := fixedLaterDeflate_not_xz
  lzma_lossless   := fixedLater_lzma_lossless
  lzma_xz         := fixedLater_lzma_xz

theorem inflates_fixedLater : Inflates fixedLaterZlib fixedLaterInflate where
  deflated level raw _ := fixedLaterInflate_deflate level raw
  some_out level raw   := by
    change fixedLaterDeflate level raw ≠ []
    rw [fixedLaterDeflate]
    split <;> simp [fixedLaterDeflated]
  bound level raw      := by
    change (fixedLaterDeflate level raw).length ≤ _
    rw [fixedLaterDeflate]
    split
    case isTrue  => exact Nat.le_add_left_of_le (by decide)
    case isFalse => simp only [List.length_cons]; omega
  not_xz stream h      := by
    cases stream with
    | nil      => exact absurd h (by decide)
    | cons b s =>
      have hb : b = 0xFD := List.head_eq_of_cons_eq h
      subst hb
      exact ⟨List.cons_ne_nil _ _, if_neg (by simp [fixedLaterDeflated])⟩
  lzma                 := .inl fun _ => rfl

theorem readable_fixedLater : Readable fixedLaterZlib false false fixedLater where
  issues   := by decide
  comments := by decide
  records  := by decide
  counts id := Nat.lt_of_le_of_lt (List.length_filter_le ..) (by decide)
  ids      := by decide
  texts    := by decide
  states   := by decide
  times    := by decide
  zeroFree := by decide
  oneId    := oneId_of_zeroFree (by decide)
  deflated := nofun

theorem sealed_alike_fixedLater : SealedAlike fixedLaterZlib true true false false ⟨fun _ => true, fun _ => true⟩
    (fun _ => true) fixedLaterInflate fixedLater :=
  (sealedAlike_iff inflates_fixedLater (fun _ => rfl) (fun _ => rfl) true true false false fixedLater).right
    (by decide) readable_fixedLater

-- A comment of 256 characters.
def longComment : List (String × Transition) :=
  [("A", ⟨0, 1, String.ofList (List.replicate 256 'x')⟩)]

theorem long_comment_not_sealed : (ofLog longComment).sealWith fixedLaterZlib true false false = .raised ∧
    ¬SealedAlike fixedLaterZlib true true false false ⟨fun _ => true, fun _ => true⟩ (fun _ => true)
      fixedLaterInflate longComment := by
  have hs : (ofLog longComment).sealWith fixedLaterZlib true false false = .raised := by decide +kernel
  refine ⟨hs, fun ⟨data, _, h, _⟩ => ?_⟩
  cases hs.symm.trans h

end IssueHistory
