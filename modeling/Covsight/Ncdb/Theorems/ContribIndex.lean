import Covsight.Ncdb.MergeV2History
import Covsight.Ncdb.NcdbUCIS
import Mathlib.Data.List.Pairwise
import Mathlib.Data.List.Chain

-- The watermark of the contribution index.

namespace ContribIndex

variable {ci : ContribIndex} {entry : ContribIndexEntry}

theorem insertEntry_perm (entry : ContribIndexEntry) (es : List ContribIndexEntry) :
    (insertEntry entry es).Perm (entry :: es) := by
  induction es
  case nil => exact .refl _
  case cons e es hi =>
    rw [insertEntry]
    split
    case isTrue  => exact .refl _
    case isFalse => exact (hi.cons e).trans (.swap ..)

theorem addEntry_entries (ci : ContribIndex) (entry : ContribIndexEntry) :
    (ci.addEntry entry).entries.Perm (entry :: ci.entries) := by
  rw [addEntry]
  split
  case isTrue  => exact insertEntry_perm entry ci.entries
  case isFalse => exact List.perm_append_singleton entry ci.entries

theorem insertEntry_sorted {es : List ContribIndexEntry} (h : es.Pairwise (·.runId ≤ ·.runId)) :
    (insertEntry entry es).Pairwise (·.runId ≤ ·.runId) := by
  induction h
  case nil => exact List.pairwise_singleton ..
  case cons e es he hs hi =>
    rw [insertEntry]
    split
    case isTrue hlt =>
      refine .cons (fun e' h' => ?_) (.cons he hs)
      cases List.mem_cons.mp h'
      case inl h' => exact h' ▸ Nat.le_of_lt hlt
      case inr h' => exact (Nat.le_of_lt hlt).trans (he e' h')
    case isFalse hge =>
      refine .cons (fun e' h' => ?_) hi
      cases List.mem_cons.mp ((insertEntry_perm entry es).subset h')
      case inl h' => exact h' ▸ Nat.le_of_not_lt hge
      case inr h' => exact he e' h'

-- Below an entry past the last one all is sorted already.
theorem addEntry_sorted (h : ci.entries.Pairwise (·.runId ≤ ·.runId)) :
    (ci.addEntry entry).entries.Pairwise (·.runId ≤ ·.runId) := by
  rw [addEntry]
  split
  case isTrue => exact insertEntry_sorted h
  case isFalse hl =>
    refine List.pairwise_append.mpr ⟨h, List.pairwise_singleton .., fun e he e' h' => ?_⟩
    cases List.mem_singleton.mp h'
    have ⟨es, last, hes⟩ : ∃ es last, ci.entries = es ++ [last] :=
      ⟨_, _, (List.dropLast_append_getLast (List.ne_nil_of_mem he)).symm⟩
    rw [hes, List.getLast?_concat, Option.any_some, decide_eq_true_eq, Nat.not_le] at hl
    rw [hes] at h he
    cases List.mem_append.mp he
    case inl he => exact ((List.pairwise_append.mp h).2.2 e he last (.head _)).trans (Nat.le_of_lt hl)
    case inr he => exact List.mem_singleton.mp he ▸ Nat.le_of_lt hl

@[simp]
theorem addEntry_squashWatermark (ci : ContribIndex) (entry : ContribIndexEntry) :
    (ci.addEntry entry).squashWatermark = ci.squashWatermark := by
  rw [addEntry]
  split <;> rfl

theorem le_maxRunId (ci : ContribIndex) {e : ContribIndexEntry} (h : e ∈ ci.entries) :
    e.runId ≤ ci.maxRunId := by
  have hm := List.mem_map_of_mem (f := (·.runId)) h
  rw [maxRunId]
  cases hx : (ci.entries.map (·.runId)).max?
  case none   => rw [List.max?_eq_none_iff.mp hx] at hm; cases hm
  case some n => exact (List.max?_eq_some_iff.mp hx).2 _ hm

theorem addEntries_sorted (h : ci.entries.Pairwise (·.runId ≤ ·.runId)) (added : List ContribIndexEntry) :
    (added.foldl addEntry ci).entries.Pairwise (·.runId ≤ ·.runId) := by
  induction added generalizing ci
  case nil             => exact h
  case cons e added hi => exact hi (addEntry_sorted h)

end ContribIndex

namespace BucketIndex

variable {idx : BucketIndex} {entry e : BucketIndexEntry} {es : List BucketIndexEntry}

-- The entry replaces the one with its number.
theorem mem_insertEntry (h : es.Pairwise (·.bucketSeq < ·.bucketSeq)) :
    e ∈ insertEntry entry es ↔ e = entry ∨ e ∈ es ∧ e.bucketSeq ≠ entry.bucketSeq := by
  induction h
  case nil => simp [insertEntry]
  case cons e' es he hs hi =>
    rw [insertEntry]
    split
    case isTrue heq =>
      have hne (hm : e ∈ es) : e.bucketSeq ≠ entry.bucketSeq := heq ▸ Nat.ne_of_gt (he e hm)
      rw [List.mem_cons, List.mem_cons, or_and_right, and_iff_left_of_imp hne]
      refine or_congr_right (or_iff_right fun h => h.2 (h.1 ▸ heq)).symm
    case isFalse hne =>
      split
      case isTrue hgt =>
        have hne' (hm : e ∈ e' :: es) : e.bucketSeq ≠ entry.bucketSeq := by
          cases List.mem_cons.mp hm
          case inl hm => exact hm ▸ hne
          case inr hm => exact Nat.ne_of_gt (Nat.lt_trans hgt (he e hm))
        rw [List.mem_cons, and_iff_left_of_imp hne']
      case isFalse =>
        rw [List.mem_cons, hi, List.mem_cons, or_and_right, or_left_comm]
        exact or_congr_right (or_congr_left (and_iff_left_of_imp fun h => h ▸ hne).symm)

theorem insertEntry_sorted (h : es.Pairwise (·.bucketSeq < ·.bucketSeq)) :
    (insertEntry entry es).Pairwise (·.bucketSeq < ·.bucketSeq) := by
  induction h
  case nil => exact List.pairwise_singleton ..
  case cons e es he hs hi =>
    rw [insertEntry]
    split
    case isTrue heq => exact .cons (heq ▸ he) hs
    case isFalse hne =>
      split
      case isTrue hgt =>
        refine .cons (fun e' h' => ?_) (.cons he hs)
        cases List.mem_cons.mp h'
        case inl h' => exact h' ▸ hgt
        case inr h' => exact Nat.lt_trans hgt (he e' h')
      case isFalse hle =>
        refine .cons (fun e' h' => ?_) hi
        cases (mem_insertEntry hs).mp h'
        case inl h' => rw [h']; omega
        case inr h' => exact he e' h'.1

theorem addBuckets_sorted (h : idx.entries.Pairwise (·.bucketSeq < ·.bucketSeq)) (added : List BucketIndexEntry) :
    (added.foldl addBucket idx).entries.Pairwise (·.bucketSeq < ·.bucketSeq) := by
  induction added generalizing idx
  case nil             => exact h
  case cons e added hi => exact hi (insertEntry_sorted h)

-- The entry of a number is the last one that was added for it, or else the one that was there.
theorem mem_addBuckets (h : idx.entries.Pairwise (·.bucketSeq < ·.bucketSeq)) (added : List BucketIndexEntry) :
    e ∈ (added.foldl addBucket idx).entries ↔
      (added.filter (·.bucketSeq = e.bucketSeq)).getLast? = some e ∨
      e ∈ idx.entries ∧ ∀ e' ∈ added, e'.bucketSeq ≠ e.bucketSeq := by
  induction added generalizing idx
  case nil => simp
  case cons e₀ added hi =>
    have hs : (idx.addBucket e₀).entries.Pairwise (·.bucketSeq < ·.bucketSeq) := insertEntry_sorted h
    rw [List.foldl_cons, hi hs, addBucket, mem_insertEntry h, List.forall_mem_cons, List.filter_cons]
    by_cases hl : ∀ e' ∈ added, e'.bucketSeq ≠ e.bucketSeq
    case pos =>
      have hf : added.filter (·.bucketSeq = e.bucketSeq) = [] :=
        List.filter_eq_nil_iff.mpr fun e' he => by simpa using hl e' he
      by_cases he : e₀.bucketSeq = e.bucketSeq
      case pos =>
        rw [hf, if_pos (decide_eq_true he)]
        simpa [he, and_iff_left hl] using eq_comm
      case neg =>
        have hne : e ≠ e₀ := fun hc => he (hc ▸ rfl)
        rw [hf, if_neg (by simpa using he)]
        simp [he, hne, Ne.symm he]
    case neg =>
      have hf : added.filter (·.bucketSeq = e.bucketSeq) ≠ [] := by
        push Not at hl
        have ⟨e', he, hs⟩ := hl
        exact List.ne_nil_of_mem (List.mem_filter.mpr ⟨he, decide_eq_true hs⟩)
      simp only [hl, and_false, or_false]
      split
      case isTrue  => rw [List.getLast?_cons_of_ne_nil hf]
      case isFalse => rfl

end BucketIndex

namespace V2State

variable {accel : Bool} {s s' : V2State} {m : V2Members}

-- The parts of a history that do not hold its records.
structure SameIndex (s s' : V2State) : Prop where
  nextRunId    : s'.registry.nextRunId = s.registry.nextRunId
  contribIndex : s'.contribIndex = s.contribIndex
  squashLog    : s'.squashLog = s.squashLog

theorem sealIfFull_sameIndex (h : s.sealIfFull accel = some s') : s.SameIndex s' := by
  rw [sealIfFull] at h
  split at h
  case isFalse => cases h; exact ⟨rfl, rfl, rfl⟩
  case isTrue =>
    rw [sealCurrentBucket] at h
    split at h
    case isTrue => cases h; exact ⟨rfl, rfl, rfl⟩
    case isFalse =>
      have ⟨_, _, h⟩ := Option.bind_eq_some_iff.mp h
      cases h
      exact ⟨rfl, rfl, rfl⟩

-- A run takes the next run id, and enters the index only with coverage.
structure Adds (s s' : V2State) (run : TestRun) : Prop where
  nextRunId    : s'.registry.nextRunId = s.registry.nextRunId + 1
  squashLog    : s'.squashLog = s.squashLog
  contribIndex : s'.contribIndex = s.contribIndex ∨ run.hasCoverage ∧
    ∃ entry, entry.runId = s.registry.nextRunId ∧ s'.contribIndex = s.contribIndex.addEntry entry

theorem indexRun_adds (s : V2State) (runId nameId : Nat) (run : TestRun) :
    (s.indexRun runId nameId run).registry.nextRunId = s.registry.nextRunId ∧
    (s.indexRun runId nameId run).squashLog = s.squashLog ∧
    ((s.indexRun runId nameId run).contribIndex = s.contribIndex ∨ run.hasCoverage ∧
      ∃ entry, entry.runId = runId ∧
        (s.indexRun runId nameId run).contribIndex = s.contribIndex.addEntry entry) := by
  rw [indexRun]
  split
  case isFalse => exact ⟨rfl, rfl, .inl rfl⟩
  case isTrue hc =>
    let flags := if run.isRerun then flagIsRerun else 0
    exact ⟨rfl, rfl, .inr ⟨hc, ⟨runId, nameId, run.status, flags⟩, rfl, rfl⟩⟩

theorem addTestRun_adds (accel : Bool) (s : V2State) (run : TestRun) :
    s.Adds (s.addTestRun accel run).fst run := by
  have hr : (s.register run).registry.nextRunId = s.registry.nextRunId + 1 := rfl
  rw [addTestRun]
  simp only
  split
  case h_1 => exact ⟨hr, rfl, .inl rfl⟩
  case h_2 current _ =>
    split
    case h_1 => exact ⟨hr, rfl, .inl rfl⟩
    case h_2 s' hs =>
      have hs := sealIfFull_sameIndex hs
      have ⟨hn, hl, hi⟩ := s'.indexRun_adds s.registry.nextRunId (s.recordOf run).nameId run
      exact ⟨hn.trans (hs.nextRunId.trans hr), hl.trans hs.squashLog, hs.contribIndex ▸ hi⟩

theorem Adds.squashWatermark {run : TestRun} (h : s.Adds s' run) :
    s'.contribIndex.squashWatermark = s.contribIndex.squashWatermark := by
  cases h.contribIndex
  case inl hc => rw [hc]
  case inr hc =>
    have ⟨_, _, _, hc⟩ := hc
    rw [hc, ContribIndex.addEntry_squashWatermark]

theorem squashCoverage_entries (s : V2State) (policy ts : Nat) :
    (s.squashCoverage policy ts).contribIndex.entries = [] := by
  refine List.filter_eq_nil_iff.mpr fun e he => ?_
  simpa using s.contribIndex.le_maxRunId he

end V2State

-- A file with a run history, or a history that is open.
inductive V2Store
  | file (m : V2Members)
  | state (s : V2State)

namespace V2Store

def contribIndex : V2Store → ContribIndex
  | file m  => m.contribIndex.getD {}
  | state s => s.contribIndex

def nextRunId : V2Store → Nat
  | file m  => (m.registry.map (·.nextRunId)).getD 0
  | state s => s.registry.nextRunId

-- What histories go through, with the runs that are added and the sources that are merged limited.
inductive Reachable (accel : Bool) (adds : V2State → TestRun → Prop)
    (merges : List V2Members → Prop) : V2Store → Prop
  | none : Reachable accel adds merges (file {})
  | load {m s} :
    Reachable accel adds merges (file m) → V2State.load m = some s →
    Reachable accel adds merges (state s)
  | addTestRun {s} (run : TestRun) :
    Reachable accel adds merges (state s) → adds s run →
    Reachable accel adds merges (state (s.addTestRun accel run).fst)
  | squashCoverage {s} (policy ts : Nat) :
    Reachable accel adds merges (state s) →
    Reachable accel adds merges (state (s.squashCoverage policy ts))
  | save {s m} :
    Reachable accel adds merges (state s) → s.getV2Members accel = some m →
    Reachable accel adds merges (file m)
  | merge {sources m} :
    (∀ m ∈ sources, Reachable accel adds merges (file m)) → merges sources →
    mergeV2History accel sources = some m → Reachable accel adds merges (file m)

-- Every active run is past the watermark.
def Watermarked (x : V2Store) : Prop :=
  ∀ e ∈ x.contribIndex.entries, x.contribIndex.squashWatermark < e.runId

-- The very first run of a history has no coverage: its id is the watermark of a history that was
-- never squashed.
def AddsPastFirst (s : V2State) (run : TestRun) : Prop :=
  run.hasCoverage → s.registry.nextRunId ≠ 0

-- A squashed history is merged before those with active runs.
def MergesSquashedFirst (sources : List V2Members) : Prop :=
  sources.Pairwise fun m m' =>
    (file m).contribIndex.entries = [] ∨ (file m').contribIndex.squashWatermark = 0

-- The index only knows runs that were numbered.
structure Indexed (x : V2Store) : Prop where
  watermarked : x.Watermarked
  numbered    : ∀ e ∈ x.contribIndex.entries, e.runId < x.nextRunId
  watermark   : x.contribIndex.squashWatermark = 0 ∨ x.contribIndex.squashWatermark < x.nextRunId

end V2Store

section Merge

variable {sources : List V2Members} {sts : List V2State}

theorem V2State.load_ok {m : V2Members} {st : V2State} (h : V2State.load m = some st) :
    st.contribIndex = (V2Store.file m).contribIndex ∧
    st.registry.nextRunId = (V2Store.file m).nextRunId := by
  simp only [V2State.load, Option.bind_eq_bind] at h
  have ⟨reg, hr, h⟩ := Option.bind_eq_some_iff.mp h
  cases h
  refine ⟨rfl, ?_⟩
  cases hm : m.registry
  case none =>
    rw [hm] at hr
    cases hr
    rw [V2Store.nextRunId, hm]
    rfl
  case some file =>
    rw [hm] at hr
    have ⟨_, _, hr⟩ := Option.bind_eq_some_iff.mp hr
    have ⟨_, _, hr⟩ := Option.bind_eq_some_iff.mp hr
    cases hr
    rw [V2Store.nextRunId, hm]
    rfl

theorem loadAll_ok (h : sources.mapM V2State.load = some sts) :
    sts.map (fun st => (st.contribIndex, st.registry.nextRunId))
      = sources.map fun m => ((V2Store.file m).contribIndex, (V2Store.file m).nextRunId) := by
  induction sources generalizing sts
  case nil => cases h; rfl
  case cons m sources hi =>
    rw [List.mapM_cons, Option.bind_eq_bind] at h
    have ⟨st, hst, h⟩ := Option.bind_eq_some_iff.mp h
    have ⟨sts', hsts, h⟩ := Option.bind_eq_some_iff.mp h
    cases h
    have ⟨hc, hn⟩ := V2State.load_ok hst
    rw [List.map_cons, List.map_cons, hi hsts, hc, hn]

-- The active runs of some sources, with the run ids of each past those of the ones before.
def renumberedEntries (merged : TestRegistry) (sts : List V2State) : List ContribIndexEntry :=
  (sts.zip <| runIdOffsets <| sts.map (·.registry)).flatMap fun (st, offset) =>
    st.contribIndex.entries.map fun e =>
      { e with runId := e.runId + offset, nameId := merged.nameRemap st.registry e.nameId }

theorem foldl_addEntry (ci : ContribIndex) (f : ContribIndexEntry → ContribIndexEntry)
    (es : List ContribIndexEntry) :
    (es.foldl (fun ci e => ci.addEntry (f e)) ci).entries.Perm (es.map f ++ ci.entries) ∧
    (es.foldl (fun ci e => ci.addEntry (f e)) ci).squashWatermark = ci.squashWatermark := by
  induction es generalizing ci
  case nil => exact ⟨.refl _, rfl⟩
  case cons e es hi =>
    have ⟨hp, hw⟩ := hi (ci.addEntry (f e))
    refine ⟨hp.trans ?_, hw.trans (ci.addEntry_squashWatermark (f e))⟩
    exact ((ci.addEntry_entries (f e)).append_left _).trans List.perm_middle

-- The watermark of a merge is below a number if and only if each one that was set is.
theorem mergeContribIndex_ok (merged : TestRegistry) (ci : ContribIndex) (st : V2State)
    (offset : Nat) :
    (mergeContribIndex merged ci st offset).entries.Perm
      (st.contribIndex.entries.map (fun e => { e with
        runId := e.runId + offset, nameId := merged.nameRemap st.registry e.nameId }) ++ ci.entries) ∧
    ∀ n, (mergeContribIndex merged ci st offset).squashWatermark < n ↔ ci.squashWatermark < n ∧
      (0 < st.contribIndex.squashWatermark → st.contribIndex.squashWatermark + offset < n) := by
  have ⟨hp, hw⟩ := foldl_addEntry ci (fun e => { e with
    runId := e.runId + offset, nameId := merged.nameRemap st.registry e.nameId })
    st.contribIndex.entries
  rw [mergeContribIndex]
  split
  case isTrue h  => exact ⟨hp, fun n => by simp [hw, h]⟩
  case isFalse h => exact ⟨hp, fun n => by simp [hw, h]⟩

theorem foldl_mergeContribIndex (merged : TestRegistry) (ci : ContribIndex)
    (ps : List (V2State × Nat)) :
    (ps.foldl (fun ci (st, offset) => mergeContribIndex merged ci st offset) ci).entries.Perm
      (ps.flatMap (fun (st, offset) => st.contribIndex.entries.map fun e => { e with
        runId := e.runId + offset, nameId := merged.nameRemap st.registry e.nameId }) ++ ci.entries) ∧
    ∀ n, (ps.foldl (fun ci (st, offset) => mergeContribIndex merged ci st offset) ci).squashWatermark < n ↔
      ci.squashWatermark < n ∧ ∀ p ∈ ps, 0 < p.1.contribIndex.squashWatermark →
        p.1.contribIndex.squashWatermark + p.2 < n := by
  induction ps generalizing ci
  case nil => exact ⟨.refl _, by simp⟩
  case cons p ps hi =>
    have ⟨hp, hw⟩ := mergeContribIndex_ok merged ci p.1 p.2
    have ⟨hp', hw'⟩ := hi (mergeContribIndex merged ci p.1 p.2)
    refine ⟨hp'.trans ?_, fun n => ?_⟩
    · rw [List.flatMap_cons]
      refine (hp.append_left _).trans ?_
      rw [← List.append_assoc]
      exact List.perm_append_comm.append_right _
    · rw [List.foldl_cons, hw', hw, List.forall_mem_cons, and_assoc]

-- A source's run ids are those from its offset on, up to the offset of the next one.
theorem sum_take_add {ns : List Nat} {i j : Nat} (hi : i < ns.length) (hij : i < j) :
    ns[i] + (ns.take i).sum ≤ (ns.take j).sum := by
  have ⟨rest, hr⟩ := List.take_prefix_take_left (l := ns) (Nat.succ_le_of_lt hij)
  rw [← hr, List.take_succ_eq_append_getElem hi, List.sum_append, List.sum_append,
    List.sum_singleton]
  omega

def sourceOffsets (sts : List V2State) : List (V2State × Nat) :=
  sts.zip <| runIdOffsets <| sts.map (·.registry)

theorem map_fst_sourceOffsets (sts : List V2State) : (sourceOffsets sts).map Prod.fst = sts :=
  List.map_fst_zip (by simp [runIdOffsets])

theorem getElem_sourceOffsets {sts : List V2State} {i : Nat} (hi : i < (sourceOffsets sts).length) :
    ∃ hl : i < (sts.map (·.registry.nextRunId)).length,
      (sourceOffsets sts)[i].1.registry.nextRunId = (sts.map (·.registry.nextRunId))[i] ∧
      (sourceOffsets sts)[i].2 = ((sts.map (·.registry.nextRunId)).take i).sum := by
  have hl : i < (sts.map (·.registry.nextRunId)).length := by
    rw [sourceOffsets, List.length_zip] at hi
    rw [List.length_map]
    omega
  refine ⟨hl, ?_⟩
  simp only [sourceOffsets, runIdOffsets, List.getElem_zip, List.getElem_map, List.getElem_range,
    List.map_take, List.map_map]
  exact ⟨trivial, rfl⟩

theorem sourceOffsets_pairwise (sts : List V2State) :
    (sourceOffsets sts).Pairwise fun p q => p.1.registry.nextRunId + p.2 ≤ q.2 := by
  refine List.pairwise_iff_getElem.mpr fun i j hi hj hij => ?_
  have ⟨hl, hn, ho⟩ := getElem_sourceOffsets hi
  have ⟨_, _, ho'⟩ := getElem_sourceOffsets hj
  rw [hn, ho, ho']
  exact sum_take_add hl hij

theorem le_sum_sourceOffsets {p : V2State × Nat} (h : p ∈ sourceOffsets sts) :
    p.1.registry.nextRunId + p.2 ≤ (sts.map (·.registry.nextRunId)).sum := by
  have ⟨i, hi, hp⟩ := List.mem_iff_getElem.mp h
  have ⟨hl, hn, ho⟩ := getElem_sourceOffsets hi
  have hs := sum_take_add hl hl
  rw [List.take_length] at hs
  rw [← hp, hn, ho]
  exact hs

-- No active run of a source is at or below the watermark of one of the sources.
theorem sourceOffsets_past {sts : List V2State}
    (hi : ∀ st ∈ sts, (V2Store.state st).Indexed)
    (hm : sts.Pairwise fun st st' =>
      st.contribIndex.entries = [] ∨ st'.contribIndex.squashWatermark = 0)
    {p q : V2State × Nat} (hp : p ∈ sourceOffsets sts) (hq : q ∈ sourceOffsets sts)
    {e : ContribIndexEntry} (he : e ∈ p.1.contribIndex.entries)
    (hw : 0 < q.1.contribIndex.squashWatermark) :
    q.1.contribIndex.squashWatermark + q.2 < e.runId + p.2 := by
  let past (p q : V2State × Nat) : Prop := ∀ e ∈ p.1.contribIndex.entries,
    0 < q.1.contribIndex.squashWatermark → q.1.contribIndex.squashWatermark + q.2 < e.runId + p.2
  have hmem : ∀ p ∈ sourceOffsets sts, p.1 ∈ sts := fun p hp => (List.of_mem_zip hp).1
  have hm' : (sourceOffsets sts).Pairwise fun p q =>
      p.1.contribIndex.entries = [] ∨ q.1.contribIndex.squashWatermark = 0 := by
    rw [← map_fst_sourceOffsets sts, List.pairwise_map] at hm
    exact hm
  -- The earlier of two sources has the lower run ids; the later one is not squashed, unless the
  -- earlier one has no active runs.
  have hpair : (sourceOffsets sts).Pairwise fun p q => past p q ∧ past q p := by
    refine ((sourceOffsets_pairwise sts).and hm').imp_of_mem fun {p q} hp _ ⟨ho, hs⟩ => ⟨?_, ?_⟩
    · intro e he hw
      cases hs
      case inl hs => rw [hs] at he; cases he
      case inr hs => exact absurd hs (Nat.ne_of_gt hw)
    · intro e _ hw
      have hlt := (hi p.1 (hmem p hp)).watermark.resolve_left (Nat.ne_of_gt hw)
      change p.1.contribIndex.squashWatermark < p.1.registry.nextRunId at hlt
      omega
  have hself : ∀ p ∈ sourceOffsets sts, past p p ∧ past p p := by
    intro p hp
    have h : past p p := fun e he _ =>
      Nat.add_lt_add_right ((hi p.1 (hmem p hp)).watermarked e he) p.2
    exact ⟨h, h⟩
  have : Std.Symm fun p q => past p q ∧ past q p := ⟨fun _ _ h => h.symm⟩
  exact (hpair.forall_of_forall hself hp hq).1 e he hw

-- What is true of the sources, where a squashed one does not come after one with active runs, is
-- true of their merge.
theorem mergedContribIndex_indexed (merged : TestRegistry) {sts : List V2State}
    (hi : ∀ st ∈ sts, (V2Store.state st).Indexed)
    (hm : sts.Pairwise fun st st' =>
      st.contribIndex.entries = [] ∨ st'.contribIndex.squashWatermark = 0) :
    (∀ e ∈ (mergedContribIndex merged sts).entries,
      (mergedContribIndex merged sts).squashWatermark < e.runId ∧
      e.runId < (sts.map (·.registry.nextRunId)).sum) ∧
    ((mergedContribIndex merged sts).squashWatermark = 0 ∨
      (mergedContribIndex merged sts).squashWatermark < (sts.map (·.registry.nextRunId)).sum) := by
  have ⟨hp, hw⟩ := foldl_mergeContribIndex merged {} (sourceOffsets sts)
  have hmem : ∀ p ∈ sourceOffsets sts, p.1 ∈ sts := fun p hp => (List.of_mem_zip hp).1
  have hnum : ∀ p ∈ sourceOffsets sts, 0 < p.1.contribIndex.squashWatermark →
      p.1.contribIndex.squashWatermark + p.2 < (sts.map (·.registry.nextRunId)).sum := by
    intro p hp hw
    have hlt := (hi p.1 (hmem p hp)).watermark.resolve_left (Nat.ne_of_gt hw)
    change p.1.contribIndex.squashWatermark < p.1.registry.nextRunId at hlt
    have hle := le_sum_sourceOffsets hp
    omega
  refine ⟨fun e he => ?_, ?_⟩
  · have he := hp.subset he
    rw [List.append_nil] at he
    have ⟨p, hps, he⟩ := List.mem_flatMap.mp he
    have ⟨e₀, he₀, he⟩ := List.mem_map.mp he
    cases he
    have hx := hi p.1 (hmem p hps)
    have hlt : e₀.runId < p.1.registry.nextRunId := hx.numbered e₀ he₀
    have hpos : 0 < e₀.runId := Nat.zero_lt_of_lt (hx.watermarked e₀ he₀)
    have hle := le_sum_sourceOffsets hps
    refine ⟨(hw _).mpr ⟨Nat.add_pos_left hpos _, fun q hq => sourceOffsets_past hi hm hps hq he₀⟩, ?_⟩
    change e₀.runId + p.2 < _
    omega
  · by_cases hz : (sts.map (·.registry.nextRunId)).sum = 0
    case pos =>
      refine .inl <| Nat.lt_one_iff.mp <| (hw 1).mpr ⟨Nat.one_pos, fun p hp hpos => ?_⟩
      have hlt := hnum p hp hpos
      omega
    case neg => exact .inr <| (hw _).mpr ⟨Nat.pos_of_ne_zero hz, hnum⟩

end Merge

-- However runs and buckets are added, the indexes are sorted. No run is lost, and a bucket has the entry that was added
-- for its number last.
theorem indexes_ordered (policy watermark : Nat) (runs : List ContribIndexEntry) (buckets : List BucketIndexEntry) :
    let ci  := runs.foldl ContribIndex.addEntry { mergePolicy := policy, squashWatermark := watermark }
    let idx := buckets.foldl BucketIndex.addBucket {}
    ci.entries.Pairwise (·.runId ≤ ·.runId) ∧ ci.entries.Perm runs ∧
    idx.entries.Pairwise (·.bucketSeq < ·.bucketSeq) ∧
    ∀ e, e ∈ idx.entries ↔ (buckets.filter (·.bucketSeq = e.bucketSeq)).getLast? = some e := by
  refine ⟨ContribIndex.addEntries_sorted .nil runs, ?_, BucketIndex.addBuckets_sorted .nil buckets, fun e => ?_⟩
  · have hp := (foldl_addEntry { mergePolicy := policy, squashWatermark := watermark } id runs).1
    rwa [List.map_id, List.append_nil] at hp
  · rw [BucketIndex.mem_addBuckets .nil]
    exact or_iff_left fun h => List.not_mem_nil h.1

namespace V2Store

variable {accel : Bool} {s : V2State} {m : V2Members} {x : V2Store}

theorem Indexed.addTestRun (h : (state s).Indexed) {run : TestRun} (ha : AddsPastFirst s run) :
    (state (s.addTestRun accel run).fst).Indexed := by
  have hw := (s.addTestRun_adds accel run).squashWatermark
  have ⟨hn, _, hc⟩ := s.addTestRun_adds accel run
  have hpast : run.hasCoverage → s.contribIndex.squashWatermark < s.registry.nextRunId :=
    fun hr => h.watermark.elim (fun hz => hz ▸ Nat.pos_of_ne_zero (ha hr)) id
  -- An entry is an old one or that of the run.
  have hmem : ∀ e ∈ (s.addTestRun accel run).fst.contribIndex.entries,
      e ∈ s.contribIndex.entries ∨ run.hasCoverage ∧ e.runId = s.registry.nextRunId := by
    intro e he
    cases hc
    case inl hc => exact .inl (hc ▸ he)
    case inr hc =>
      have ⟨hr, entry, hi, hc⟩ := hc
      rw [hc] at he
      cases (s.contribIndex.addEntry_entries entry).subset he
      case head    => exact .inr ⟨hr, hi⟩
      case tail he => exact .inl he
  constructor
  case watermarked =>
    intro e he
    change (s.addTestRun accel run).fst.contribIndex.squashWatermark < e.runId
    rw [hw]
    cases hmem e he
    case inl he => exact h.watermarked e he
    case inr he => exact he.2 ▸ hpast he.1
  case numbered =>
    intro e he
    change e.runId < (s.addTestRun accel run).fst.registry.nextRunId
    rw [hn]
    cases hmem e he
    case inl he => exact Nat.lt_succ_of_lt (h.numbered e he)
    case inr he => exact he.2 ▸ Nat.lt_succ_self _
  case watermark =>
    change (s.addTestRun accel run).fst.contribIndex.squashWatermark = 0 ∨
      (s.addTestRun accel run).fst.contribIndex.squashWatermark
        < (s.addTestRun accel run).fst.registry.nextRunId
    rw [hw, hn]
    exact h.watermark.imp_right Nat.lt_succ_of_lt

theorem Indexed.squashCoverage (h : (state s).Indexed) (policy ts : Nat) :
    (state (s.squashCoverage policy ts)).Indexed := by
  have he := s.squashCoverage_entries policy ts
  constructor
  case watermarked =>
    intro e hm
    rw [contribIndex, he] at hm
    cases hm
  case numbered =>
    intro e hm
    rw [contribIndex, he] at hm
    cases hm
  case watermark =>
    change s.contribIndex.maxRunId = 0 ∨ s.contribIndex.maxRunId < s.registry.nextRunId
    rw [ContribIndex.maxRunId]
    cases hx : (s.contribIndex.entries.map (·.runId)).max?
    case none   => exact h.watermark
    case some n =>
      have ⟨e, he, hn⟩ := List.mem_map.mp (List.max?_eq_some_iff.mp hx).1
      exact .inr (hn ▸ h.numbered e he)

-- Storing and loading keep the index and the number of the next run.
theorem getV2Members_ok (h : s.getV2Members accel = some m) :
    (file m).contribIndex = s.contribIndex ∧ (file m).nextRunId = s.registry.nextRunId := by
  simp only [V2State.getV2Members, Option.bind_eq_bind] at h
  have ⟨reg, hr, h⟩ := Option.bind_eq_some_iff.mp h
  have ⟨_, _, h⟩ := Option.bind_eq_some_iff.mp h
  have ⟨ci, hc, h⟩ := Option.bind_eq_some_iff.mp h
  have ⟨_, _, h⟩ := Option.bind_eq_some_iff.mp h
  have ⟨_, _, h⟩ := Option.bind_eq_some_iff.mp h
  have ⟨_, _, h⟩ := Option.bind_eq_some_iff.mp h
  cases h
  rw [ContribIndex.serialize] at hc
  rw [TestRegistry.serialize] at hr
  split at hc <;> cases hc
  split at hr <;> cases hr
  exact ⟨rfl, rfl⟩

theorem Indexed.of_eq {y : V2Store} (h : x.Indexed) (hc : y.contribIndex = x.contribIndex)
    (hn : y.nextRunId = x.nextRunId) : y.Indexed where
  watermarked := by rw [Watermarked, hc]; exact h.watermarked
  numbered    := by rw [hc, hn]; exact h.numbered
  watermark   := by rw [hc, hn]; exact h.watermark

theorem mergeV2History_ok {sources : List V2Members} (h : mergeV2History accel sources = some m) :
    ∃ sts, sources.mapM V2State.load = some sts ∧
    (file m).contribIndex = mergedContribIndex (mergeRegistries <| sts.map (·.registry)) sts ∧
    (file m).nextRunId = (sts.map (·.registry.nextRunId)).sum := by
  simp only [mergeV2History, mergeV2States, Option.bind_eq_bind] at h
  have ⟨sts, hs, h⟩ := Option.bind_eq_some_iff.mp h
  have ⟨_, _, h⟩ := Option.bind_eq_some_iff.mp h
  have ⟨_, _, h⟩ := Option.bind_eq_some_iff.mp h
  have ⟨reg, hr, h⟩ := Option.bind_eq_some_iff.mp h
  have ⟨_, _, h⟩ := Option.bind_eq_some_iff.mp h
  have ⟨_, _, h⟩ := Option.bind_eq_some_iff.mp h
  have ⟨ci, hc, h⟩ := Option.bind_eq_some_iff.mp h
  have ⟨_, _, h⟩ := Option.bind_eq_some_iff.mp h
  cases h
  rw [ContribIndex.serialize] at hc
  rw [TestRegistry.serialize] at hr
  split at hc <;> cases hc
  split at hr <;> cases hr
  refine ⟨sts, hs, rfl, ?_⟩
  change ((sts.map (·.registry)).map (·.nextRunId)).sum = _
  rw [List.map_map]
  rfl

theorem Indexed.merge {sources : List V2Members} (hi : ∀ m ∈ sources, (file m).Indexed)
    (hs : MergesSquashedFirst sources) (h : mergeV2History accel sources = some m) :
    (file m).Indexed := by
  have ⟨sts, hl, hc, hn⟩ := mergeV2History_ok h
  have hmap := loadAll_ok hl
  have hi' : ∀ st ∈ sts, (state st).Indexed := by
    intro st hst
    have hm := List.mem_map_of_mem (f := fun st => (st.contribIndex, st.registry.nextRunId)) hst
    rw [hmap] at hm
    have ⟨m', hm', he⟩ := List.mem_map.mp hm
    have ⟨hc, hn⟩ := Prod.mk.inj he
    exact (hi m' hm').of_eq hc.symm hn.symm
  have hs' : sts.Pairwise fun st st' =>
      st.contribIndex.entries = [] ∨ st'.contribIndex.squashWatermark = 0 := by
    have hp : (sources.map fun m => ((file m).contribIndex, (file m).nextRunId)).Pairwise
        fun p q => p.1.entries = [] ∨ q.1.squashWatermark = 0 := List.pairwise_map.mpr hs
    rw [← hmap, List.pairwise_map] at hp
    exact hp
  have ⟨he, hw⟩ := mergedContribIndex_indexed (mergeRegistries <| sts.map (·.registry)) hi' hs'
  constructor
  case watermarked => rw [Watermarked, hc]; exact fun e hm => (he e hm).1
  case numbered    => rw [hc, hn]; exact fun e hm => (he e hm).2
  case watermark   => rw [hc, hn]; exact hw

theorem Reachable.indexed (h : Reachable accel AddsPastFirst MergesSquashedFirst x) :
    x.Indexed := by
  induction h
  case none                    => exact ⟨nofun, nofun, .inl rfl⟩
  case load hl hi              => exact hi.of_eq (V2State.load_ok hl).1 (V2State.load_ok hl).2
  case addTestRun run _ ha hi  => exact hi.addTestRun ha
  case squashCoverage hi       => exact hi.squashCoverage ..
  case save hm hi              => exact hi.of_eq (getV2Members_ok hm).1 (getV2Members_ok hm).2
  case merge hs hm hi          => exact .merge hi hs hm

-- While the first run has no coverage and squashed histories are merged before those with active
-- runs, every active run is past the watermark. A merge has exactly the active runs of its sources.
theorem watermark_invariant (accel : Bool) :
    (∀ x, Reachable accel AddsPastFirst MergesSquashedFirst x → x.Watermarked) ∧
    ∀ sources sts m, sources.mapM V2State.load = some sts → mergeV2History accel sources = some m →
      (file m).contribIndex.entries.Perm
        (renumberedEntries (mergeRegistries <| sts.map (·.registry)) sts) := by
  refine ⟨fun x h => h.indexed.watermarked, fun sources sts m hl h => ?_⟩
  have ⟨sts', hl', hc, _⟩ := mergeV2History_ok h
  cases hl.symm.trans hl'
  have hp := (foldl_mergeContribIndex (mergeRegistries <| sts.map (·.registry)) {}
    (sourceOffsets sts)).1
  rw [List.append_nil] at hp
  exact hc ▸ hp

-- A run without coverage, then one with.
def twoRuns : V2State :=
  (({} : V2State).addTestRun true { name := "A", ts := 50 }).fst.addTestRun true
    { name := "B", ts := 100, hasCoverage := true } |>.fst

theorem twoRuns_reachable {merges : List V2Members → Prop} :
    Reachable true AddsPastFirst merges (state twoRuns) :=
  .addTestRun _ (.addTestRun _ (.load .none rfl) nofun) fun _ => by decide

def savedRuns : V2Members :=
  (twoRuns.getV2Members true).get rfl

def savedSquash : V2Members :=
  ((twoRuns.squashCoverage policyAll 0).getV2Members true).get rfl

theorem savedRuns_reachable {merges : List V2Members → Prop} :
    Reachable true AddsPastFirst merges (file savedRuns) :=
  .save twoRuns_reachable (Option.some_get _).symm

theorem savedSquash_reachable {merges : List V2Members → Prop} :
    Reachable true AddsPastFirst merges (file savedSquash) :=
  .save (.squashCoverage _ _ twoRuns_reachable) (Option.some_get _).symm

theorem watermark_invariant_twoRuns :
    ∃ sts m, [savedSquash, savedRuns].mapM V2State.load = some sts ∧
      mergeV2History true [savedSquash, savedRuns] = some m ∧ (file m).Watermarked ∧
      (file m).contribIndex.entries.map (·.runId) = [3] ∧
      (file m).contribIndex.entries.Perm
        (renumberedEntries (mergeRegistries <| sts.map (·.registry)) sts) := by
  have hl : [savedSquash, savedRuns].mapM V2State.load = some _ := rfl
  have hm : mergeV2History true [savedSquash, savedRuns] = some _ := rfl
  have hr : ∀ m ∈ [savedSquash, savedRuns],
      Reachable true AddsPastFirst MergesSquashedFirst (file m) :=
    List.forall_mem_cons.mpr ⟨savedSquash_reachable,
      List.forall_mem_cons.mpr ⟨savedRuns_reachable, nofun⟩⟩
  have hs : MergesSquashedFirst [savedSquash, savedRuns] := List.pairwise_pair.mpr (.inl rfl)
  exact ⟨_, _, hl, hm, (watermark_invariant true).1 _ (.merge hr hs hm), rfl,
    (watermark_invariant true).2 _ _ _ hl hm⟩

-- The first run is at the watermark, and so are the active runs that are merged before a squashed
-- history.
theorem watermark_fails :
    (¬∀ x, Reachable true (fun _ _ => True) (fun _ => True) x → x.Watermarked) ∧
    ¬∀ x, Reachable true AddsPastFirst (fun _ => True) x → x.Watermarked := by
  constructor
  · intro h
    have h := h _ <| .addTestRun { name := "A", ts := 50, hasCoverage := true } (.load .none rfl)
      trivial
    exact absurd (h _ (.head _)) (by decide)
  · intro h
    have hm : mergeV2History true [savedRuns, savedSquash] = some _ := rfl
    have hr : ∀ m ∈ [savedRuns, savedSquash],
        Reachable true AddsPastFirst (fun _ => True) (file m) :=
      List.forall_mem_cons.mpr ⟨savedRuns_reachable,
        List.forall_mem_cons.mpr ⟨savedSquash_reachable, nofun⟩⟩
    exact absurd (h _ (.merge hr trivial hm) _ (.head _)) (by decide)

end V2Store

-- What the squash log says about the runs that were squashed.

inductive SquashOp
  | addTestRun (run : TestRun)
  | squashCoverage (policy ts : Nat)

def SquashOp.squashes : SquashOp → Bool
  | addTestRun _       => false
  | squashCoverage _ _ => true

-- A history with the run ids that each squash took out of the contribution index.
structure SquashTrail where
  state    : V2State := {}
  squashed : List (List Nat) := []

namespace SquashTrail

def step (accel : Bool) (t : SquashTrail) : SquashOp → SquashTrail
  | .addTestRun run           => { t with state := (t.state.addTestRun accel run).fst }
  | .squashCoverage policy ts => {
      state    := t.state.squashCoverage policy ts
      squashed := t.squashed ++ [t.state.contribIndex.entries.map (·.runId)]
    }

def run (accel : Bool) (ops : List SquashOp) : SquashTrail :=
  ops.foldl (step accel) {}

end SquashTrail

def SquashLogEntry.Contains (e : SquashLogEntry) (runId : Nat) : Prop :=
  e.fromRun ≤ runId ∧ runId ≤ e.toRun

namespace SquashTrail

-- The intervals are in order and do not meet, and the runs of a squash lie in its own interval and no
-- other, which records how many there are.
structure Partitioned (t : SquashTrail) : Prop where
  disjoint : t.state.squashLog.Pairwise (·.toRun < ·.fromRun)
  recorded : List.Forall₂ (fun (e : SquashLogEntry) (runIds : List Nat) =>
    e.numRuns = runIds.length ∧ ∀ runId ∈ runIds, ∀ e' ∈ t.state.squashLog,
      (e'.Contains runId ↔ e' = e)) t.state.squashLog t.squashed

-- A squash appends an interval that starts where the last one ended.
structure Logged (t : SquashTrail) (squashes : Nat) : Prop where
  length      : t.state.squashLog.length = squashes
  last        : ∀ e ∈ t.state.squashLog.getLast?, e.toRun = t.state.contribIndex.squashWatermark
  seams       : t.state.squashLog.IsChain fun e e' => e'.fromRun = e.toRun
  partitioned : squashes ≤ 1 → t.Partitioned
  unsquashed  : squashes = 0 → t.state.contribIndex.squashWatermark = 0 ∧ t.squashed = []

namespace Logged

variable {t : SquashTrail} {n : Nat}

theorem init : Logged {} 0 where
  length      := rfl
  last        := nofun
  seams       := .nil
  partitioned := fun _ => ⟨.nil, .nil⟩
  unsquashed  := fun _ => ⟨rfl, rfl⟩

theorem addTestRun (h : t.Logged n) (accel : Bool) (run : TestRun) :
    (t.step accel (.addTestRun run)).Logged n := by
  have ha := t.state.addTestRun_adds accel run
  have hl : (t.step accel (.addTestRun run)).state.squashLog = t.state.squashLog := ha.squashLog
  have hw : (t.step accel (.addTestRun run)).state.contribIndex.squashWatermark
      = t.state.contribIndex.squashWatermark := ha.squashWatermark
  constructor
  case length      => exact hl ▸ h.length
  case last        => exact fun e he => hw ▸ h.last e (hl ▸ he)
  case seams       => exact hl ▸ h.seams
  case partitioned => exact fun hn => ⟨hl ▸ (h.partitioned hn).disjoint, hl ▸ (h.partitioned hn).recorded⟩
  case unsquashed  => exact fun hn => hw ▸ h.unsquashed hn

theorem squashCoverage (h : t.Logged n) (accel : Bool) (policy ts : Nat) :
    (t.step accel (.squashCoverage policy ts)).Logged (n + 1) := by
  constructor
  case length => simp [step, V2State.squashCoverage, h.length]
  case last   => simp [step, V2State.squashCoverage, ContribIndex.setSquashWatermark]
  case seams =>
    refine List.isChain_append.mpr ⟨h.seams, .singleton _, fun e he e' he' => ?_⟩
    cases he'
    exact (h.last e he).symm
  case partitioned =>
    intro hn
    have hz : n = 0 := by omega
    have hlog : t.state.squashLog = [] := List.eq_nil_of_length_eq_zero (h.length.trans hz)
    have ⟨hw, hs⟩ := h.unsquashed hz
    have hone : (t.step accel (.squashCoverage policy ts)).state.squashLog = [{
        ts := ts, policy := policy, fromRun := 0, toRun := t.state.contribIndex.maxRunId,
        numRuns := t.state.contribIndex.numActive,
        passRuns := (t.state.contribIndex.passingRunIds policy).length }] := by
      simp [step, V2State.squashCoverage, hlog, hw]
    have hids : (t.step accel (.squashCoverage policy ts)).squashed
        = [t.state.contribIndex.entries.map (·.runId)] := by
      simp [step, hs]
    refine ⟨by rw [hone]; exact List.pairwise_singleton .., ?_⟩
    rw [hids, hone]
    refine .cons ⟨(List.length_map _).symm, fun runId hm e' he => ?_⟩ .nil
    have ⟨e, he₀, hr⟩ := List.mem_map.mp hm
    cases List.mem_singleton.mp he
    exact iff_of_true ⟨Nat.zero_le _, hr ▸ t.state.contribIndex.le_maxRunId he₀⟩ rfl
  case unsquashed => nofun

-- One that comes second starts inside the first.
theorem le_one (h : t.Logged n) (hp : t.Partitioned) : n ≤ 1 := by
  have hl := h.length
  have hs := h.seams
  have hd := hp.disjoint
  match hlog : t.state.squashLog with
  | []           => rw [hlog] at hl; exact hl ▸ Nat.zero_le 1
  | [_]          => rw [hlog] at hl; exact hl ▸ Nat.le_refl 1
  | e :: e' :: _ =>
    rw [hlog] at hs hd
    have hseam : e'.fromRun = e.toRun := (List.isChain_cons_cons.mp hs).1
    exact absurd (hseam ▸ List.rel_of_pairwise_cons hd (.head _)) (Nat.lt_irrefl e.toRun)

end Logged

theorem run_logged (accel : Bool) (ops : List SquashOp) :
    (run accel ops).Logged (ops.countP (·.squashes)) := by
  induction ops using List.reverseRecOn
  case nil => exact .init
  case append_singleton ops op hi =>
    rw [run, List.foldl_append, List.countP_append]
    cases op
    case addTestRun run           => exact hi.addTestRun accel run
    case squashCoverage policy ts => exact hi.squashCoverage accel policy ts

-- The log partitions the squashed runs as long as there is one squash at most.
theorem partitioned_iff (accel : Bool) (ops : List SquashOp) :
    (run accel ops).Partitioned ↔ ops.countP (·.squashes) ≤ 1 := by
  have h := run_logged accel ops
  exact ⟨h.le_one, h.partitioned⟩

-- The second interval starts with the last run of the first one.
theorem not_partitioned : ¬∀ ops, (run true ops).Partitioned := by
  intro h
  have h := h [.addTestRun { name := "A", ts := 50, hasCoverage := true },
    .squashCoverage policyAll 60, .addTestRun { name := "A", ts := 70, hasCoverage := true },
    .squashCoverage policyAll 80]
  exact absurd h.disjoint (by decide)

end SquashTrail
