import Covsight.Ncdb.Theorems.IssuesHistory

-- What is told of an issue from the columns of the log.

namespace IssueHistory

open StringTable (utf8)

-- Something of the last of some transitions in order that is no later.
def lastUpTo {β : Type} (f : Transition → β) (ts : Int) (last : β) : List Transition → β
  | []      => last
  | t :: tl => if t.ts > ts then last else lastUpTo f ts (f t) tl

theorem lastUpTo_eq {β : Type} (f : Transition → β) (ts : Int) (last : β) {tl : List Transition}
    (h : tl.Pairwise Transition.before) :
    lastUpTo f ts last tl = (((tl.filter (·.ts ≤ ts)).getLast?).map f).getD last := by
  induction tl generalizing last
  case nil          => rfl
  case cons t tl hi =>
    have ⟨ht, htl⟩ := List.pairwise_cons.mp h
    rw [lastUpTo, List.filter_cons]
    split
    case isTrue hl =>
      have hn : tl.filter (·.ts ≤ ts) = [] := by
        refine List.filter_eq_nil_iff.mpr fun t' hm => ?_
        have hle : t.ts ≤ t'.ts := ht t' hm
        simp only [decide_eq_true_eq]
        omega
      have hn' : ¬t.ts ≤ ts := by omega
      simp [hn, hn']
    case isFalse hl =>
      have hle : decide (t.ts ≤ ts) = true := decide_eq_true (by omega)
      rw [hi _ htl, if_pos hle, List.getLast?_cons, Option.map_some, Option.getD_some, Option.getD_map]

namespace IssueHistoryReader

variable {commentIdx : String → Nat} {reader : IssueHistoryReader} {start : Nat} {prev : Int} {tl : List Transition}

theorem scanRows_eq {ts : Int} {last : Option Nat}
    (h : Rows commentIdx reader.tsDeltas reader.stateBytes reader.commentIdxs start prev tl)
    (hp : (prev :: tl.map Transition.ts).Pairwise (· ≤ ·)) :
    reader.scanRows ts prev last (List.range' start tl.length) =
      some (lastUpTo (fun t => some t.newState.toNat) ts last tl) := by
  induction tl generalizing start prev last
  case nil          => rfl
  case cons t tl hi =>
    have ⟨hd, hs, _⟩ := h.head
    have ⟨hle, hp⟩ := List.pairwise_cons.mp hp
    have hts : prev + (t.ts - prev).toNat = t.ts := by
      have := hle t.ts (.head _)
      omega
    rw [List.length_cons, List.range'_succ, scanRows, lastUpTo]
    refine (bind_of_eq_some hd _).trans ?_
    simp only [hts]
    split
    case isTrue  => rfl
    case isFalse => exact (bind_of_eq_some hs _).trans <| hi h.tail hp

end IssueHistoryReader

namespace IssueHistoryWriter

variable {w : IssueHistoryWriter} {id : String}

theorem Packs.historyForIssue (h : w.Packs) (id : String) : w.reader.historyForIssue id =
    some ((w.sortedTransitions id).map fun t => ⟨id, t.ts, t.newState.toNat, t.comment⟩) :=
  reader_eq w ▸ (ordered_layout w).historyForIssue h.comments id

theorem pairwise_sortedTransitions (w : IssueHistoryWriter) (id : String) :
    (w.sortedTransitions id).Pairwise Transition.before :=
  List.pairwise_insertionSort Transition.before _

theorem stateAt_reader (w : IssueHistoryWriter) (id : String) (ts : Int) : w.reader.stateAt id ts =
    some ((((w.sortedTransitions id).filter (·.ts ≤ ts)).getLast?).map fun t => t.newState.toNat) := by
  rw [reader_eq, IssueHistoryReader.stateAt]
  by_cases hid : id ∈ w.sortedIds
  case pos =>
    have ⟨_, _, hidx, he, hr⟩ := Layout.idToIssueIdx_of_mem (ordered_layout w).nodup hid
    simp only [hidx]
    refine (bind_of_eq_some he _).trans <| (IssueHistoryReader.scanRows_eq hr (pairwise_times w id)).trans ?_
    rw [lastUpTo_eq _ _ _ (pairwise_sortedTransitions w id)]
    cases ((w.sortedTransitions id).filter (·.ts ≤ ts)).getLast? <;> rfl
  case neg =>
    simp only [Layout.idToIssueIdx_of_not_mem (ordered_layout w).nodup hid, sortedTransitions_of_not_mem hid]
    rfl

end IssueHistoryWriter

-- What fits in the columns and the tables.
structure Fits (log : List (String × Transition)) : Prop where
  issues   : (log.map (·.fst)).dedup.length < 2 ^ 16
  comments : ((log.map (·.snd.comment)).filter (· ≠ "")).dedup.length < 2 ^ 16
  records  : log.length < 2 ^ 32
  counts   : ∀ id, (log.filter (·.fst = id)).length < 2 ^ 16
  ids      : ∀ e ∈ log, (utf8 e.fst).length < 2 ^ 8
  texts    : ∀ e ∈ log, (utf8 e.snd.comment).length < 2 ^ 8
  states   : ∀ e ∈ log, 0 ≤ e.snd.newState ∧ e.snd.newState < 2 ^ 8
  times    : ∀ e ∈ log, 0 ≤ e.snd.ts ∧ e.snd.ts < 2 ^ 32

namespace IssueHistoryWriter

section OfLog

variable {log : List (String × Transition)}

theorem mem_sortedIds_ofLog {id : String} : id ∈ (ofLog log).sortedIds ↔ ∃ e ∈ log, e.fst = id := by
  rw [mem_sortedIds, transitions_ofLog, Dict.mem_upserts_iff, List.mem_map]
  exact or_iff_right (Dict.not_mem_empty id)

theorem length_sortedIds_ofLog (log : List (String × Transition)) :
    (ofLog log).sortedIds.length = (log.map (·.fst)).dedup.length := by
  refine List.Perm.length_eq <| (List.perm_ext_iff_of_nodup (nodup_sortedIds _) (List.nodup_dedup _)).mpr fun id => ?_
  rw [mem_sortedIds_ofLog, List.mem_dedup, List.mem_map]

theorem length_history (log : List (String × Transition)) (id : String) :
    (history log id).length = (log.filter (·.fst = id)).length := by
  rw [history, List.length_insertionSort, List.length_map]

-- All transitions are there, in another order.
theorem perm_laidOut_ofLog (log : List (String × Transition)) :
    ((ofLog log).laidOut (ofLog log).sortedIds).Perm (log.map (·.snd)) := by
  have hk : ∀ e ∈ log, e.fst ∈ (ofLog log).sortedIds := fun e he => mem_sortedIds_ofLog.mpr ⟨e, he, rfl⟩
  have hp := (flatMap_filter_perm (nodup_sortedIds (ofLog log)) hk).map (·.snd)
  rw [List.map_flatMap] at hp
  refine (List.Perm.flatMap_left _ fun id _ => ?_).trans hp
  rw [sortedTransitions_ofLog, history]
  exact List.perm_insertionSort ..

theorem mem_laidOut_ofLog {t : Transition} :
    t ∈ (ofLog log).laidOut (ofLog log).sortedIds ↔ ∃ e ∈ log, e.snd = t := by
  rw [(perm_laidOut_ofLog log).mem_iff, List.mem_map]

theorem length_laidOut_ofLog (log : List (String × Transition)) :
    ((ofLog log).laidOut (ofLog log).sortedIds).length = log.length :=
  (perm_laidOut_ofLog log).length_eq.trans <| List.length_map _

theorem mem_commentTable_ofLog {s : String} :
    s ∈ (ofLog log).commentTable ↔ s ≠ "" ∧ ∃ e ∈ log, e.snd.comment = s := by
  simp only [mem_commentTable, mem_laidOut_ofLog]
  exact and_congr_right fun _ => ⟨fun ⟨_, ⟨e, he, ht⟩, hs⟩ => ⟨e, he, ht ▸ hs⟩, fun ⟨e, he, hs⟩ => ⟨_, ⟨e, he, rfl⟩, hs⟩⟩

theorem length_commentTable_ofLog (log : List (String × Transition)) : (ofLog log).commentTable.length =
    ((log.map (·.snd.comment)).filter (· ≠ "")).dedup.length := by
  refine List.Perm.length_eq <| (List.perm_ext_iff_of_nodup (nodup_commentTable _) (List.nodup_dedup _)).mpr fun s => ?_
  rw [mem_commentTable_ofLog, List.mem_dedup, List.mem_filter, List.mem_map, decide_eq_true_iff, and_comm]

theorem Packs.of_fits (h : Fits log) : (ofLog log).Packs where
  issues   := length_sortedIds_ofLog log ▸ h.issues
  comments := length_commentTable_ofLog log ▸ h.comments
  records  := length_laidOut_ofLog log ▸ h.records
  counts   := fun id _ => by
    rw [sortedTransitions_ofLog, length_history]
    exact h.counts id
  ids      := fun id hid => by
    obtain ⟨e, he, rfl⟩ := mem_sortedIds_ofLog.mp hid
    exact h.ids e he
  texts    := fun s hs => by
    obtain ⟨_, e, he, rfl⟩ := mem_commentTable_ofLog.mp hs
    exact h.texts e he
  tsBase   := by
    cases tsBase_mem (ofLog log)
    case inl hz => omega
    case inr hm =>
      have ⟨t, ht, hb⟩ := hm
      obtain ⟨e, he, rfl⟩ := mem_laidOut_ofLog.mp ht
      exact hb ▸ h.times e he
  states   := fun t ht => by
    obtain ⟨e, he, rfl⟩ := mem_laidOut_ofLog.mp ht
    exact h.states e he

theorem Timed.of_fits (h : Fits log) : (ofLog log).Timed := by
  intro t ht
  obtain ⟨e, he, rfl⟩ := mem_laidOut_ofLog.mp ht
  exact h.times e he

theorem Fits.of_packs (h : (ofLog log).Packs) (ht : ∀ e ∈ log, e.snd.ts < 2 ^ 32) : Fits log where
  issues   := length_sortedIds_ofLog log ▸ h.issues
  comments := length_commentTable_ofLog log ▸ h.comments
  records  := length_laidOut_ofLog log ▸ h.records
  counts   := fun id => by
    rw [← length_history, ← sortedTransitions_ofLog]
    by_cases hid : id ∈ (ofLog log).sortedIds
    case pos => exact h.counts id hid
    case neg => rw [sortedTransitions_of_not_mem hid]; decide
  ids      := fun e he => h.ids _ <| mem_sortedIds_ofLog.mpr ⟨e, he, rfl⟩
  texts    := fun e he => by
    by_cases hs : e.snd.comment = ""
    case pos => rw [hs]; decide
    case neg => exact h.texts _ <| mem_commentTable_ofLog.mpr ⟨hs, e, he, rfl⟩
  states   := fun e he => h.states _ <| mem_laidOut_ofLog.mpr ⟨e, he, rfl⟩
  times    := fun e he => by
    have hle := tsBase_le <| mem_laidOut_ofLog.mpr ⟨e, he, rfl⟩
    exact ⟨Int.le_trans h.tsBase.left hle, ht e he⟩

end OfLog

-- What could be packed fits.

section OfBytes

variable {w : IssueHistoryWriter}

theorem length_lt_of_packString {s : String} {bytes : List UInt8} (h : packString s = some bytes) :
    (utf8 s).length < 2 ^ 8 := by
  rw [packString, Option.bind_eq_bind] at h
  have ⟨_, hp, _⟩ := Option.bind_eq_some_iff.mp h
  have hl := packable_of_pack hp
  simp only [packable_cons] at hl
  omega

theorem packString_all {ss : List String} {parts : List (List UInt8)} (h : ss.mapM packString = some parts) :
    ∀ s ∈ ss, (utf8 s).length < 2 ^ 8 := by
  intro s hs
  have ⟨_, _, hp⟩ := exists_mem_of_mapM h hs
  exact length_lt_of_packString hp

theorem counts_of_packEntry {parts : List (List UInt8)} (h : w.issueIndex.mapM packEntry = some parts) :
    ∀ id ∈ w.sortedIds, (w.sortedTransitions id).length < 2 ^ 16 := by
  intro id hid
  have ⟨before, after, hs⟩ := List.append_of_mem hid
  have hm := List.mem_of_getElem? (rows_of_entry hs).left
  have ⟨_, _, hp⟩ := exists_mem_of_mapM h hm
  have hf := packable_of_pack hp
  simp only [packable_cons] at hf
  omega

theorem Packs.of_bytes {tables columns : List UInt8} (ht : w.packTables = some tables)
    (hc : w.packColumns = some columns) : w.Packs := by
  rw [IssueHistoryWriter.packTables, Option.bind_eq_bind] at ht
  rw [IssueHistoryWriter.packColumns, Option.bind_eq_bind] at hc
  obtain ⟨_, hheader, ht⟩ := Option.bind_eq_some_iff.mp ht
  obtain ⟨_, hids, ht⟩ := Option.bind_eq_some_iff.mp ht
  obtain ⟨_, htexts, ht⟩ := Option.bind_eq_some_iff.mp ht
  obtain ⟨_, hindex, ht⟩ := Option.bind_eq_some_iff.mp ht
  obtain ⟨_, hbase, _⟩ := Option.bind_eq_some_iff.mp ht
  obtain ⟨_, hstates, _⟩ := Option.bind_eq_some_iff.mp hc
  have hheader := packable_of_pack hheader
  have hbase := packable_of_pack hbase
  simp only [packable_cons, length_allRows] at hheader hbase
  have hstates := packable_of_pack hstates
  rw [allRows, map_rowsFrom (g := fun t => (1, t.newState)) fun _ _ => rfl] at hstates
  exact {
    issues   := by omega
    comments := by omega
    records  := by omega
    counts   := counts_of_packEntry hindex
    ids      := packString_all hids
    texts    := packString_all htexts
    tsBase   := hbase.left
    states   := List.forall_mem_map.mp hstates }

theorem Packs.of_buildRaw {accel : Bool} {raw : List UInt8} (h : w.buildRaw accel = .value raw) : w.Packs := by
  rw [buildRaw] at h
  cases ht : w.packTables with
  | none        => rw [ht] at h; cases h
  | some tables =>
    rw [ht] at h
    cases hd : encodeVarints accel w.tsDeltas with
    | raised       => simp only [hd, CallResult.ofOption, CallResult.bind] at h; cases h
    | undefined    => simp only [hd, CallResult.ofOption, CallResult.bind] at h; cases h
    | value deltas =>
      cases hc : w.packColumns with
      | none         => simp only [hd, hc, CallResult.ofOption, CallResult.bind] at h; cases h
      | some columns => exact .of_bytes ht hc

end OfBytes

end IssueHistoryWriter

end IssueHistory
