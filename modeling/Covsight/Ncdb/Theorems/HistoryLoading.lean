import Covsight.Ncdb.NcdbUCIS
import Covsight.Ncdb.Theorems.ContribIndex
import Covsight.Ncdb.Theorems.NcdbUCIS

-- When recording a run is all or nothing.

namespace StringIds

-- An id stands for the string it was looked up for, also where strings are repeated.
theorem getElem?_of_idIn {s : String} {start i : Nat} {xs : List String}
    (h : idIn s start xs = some i) : start ≤ i ∧ xs[i - start]? = some s := by
  induction xs generalizing start
  case nil => cases h
  case cons x xs hi =>
    rw [idIn, Option.or_eq_some_iff] at h
    cases h
    case inl h =>
      obtain ⟨hle, hx⟩ := hi h
      have hs : i - start = i - (start + 1) + 1 := by omega
      exact ⟨by omega, by rw [hs, List.getElem?_cons_succ, hx]⟩
    case inr h =>
      obtain ⟨_, h⟩ := h
      split at h
      case isFalse => cases h
      case isTrue hx =>
        cases h
        exact ⟨Nat.le_refl _, by simp [hx]⟩

theorem lookupId_getElem? (ids : StringIds) (s : String) :
    (ids.lookupId s).snd.strings[(ids.lookupId s).fst]? = some s := by
  rw [lookupId]
  split
  case h_1 i h => exact (getElem?_of_idIn h).right
  case h_2 h   => simp

theorem lookupId_prefix (ids : StringIds) (s : String) :
    ids.strings <+: (ids.lookupId s).snd.strings := by
  rw [lookupId]
  split
  case h_1 => exact List.prefix_rfl
  case h_2 => exact List.prefix_append ..

end StringIds

namespace V2State

variable {accel : Bool} {s s' : V2State} {run : TestRun}

-- The open bucket with the record of a run.
def bucketWith (s : V2State) (run : TestRun) : BucketWriter where
  records := s.current.records ++ [s.recordOf run]
  seedIds :=
    if (s.recordOf run).seedId ∈ s.current.seedIds then
      s.current.seedIds
    else
      s.current.seedIds ++ [(s.recordOf run).seedId]

-- The bucket has room for the seed of a run, and it can be sealed if the run fills it.
structure Takes (accel : Bool) (s : V2State) (run : TestRun) : Prop where
  seed : (s.recordOf run).seedId ∈ s.current.seedIds ∨ s.current.seedIds.length < 255
  full : historyBucketMaxRecords ≤ s.current.records.length + 1 →
    (s.bucketWith run).packs accel ∧ run.status < 16

-- The run is in all parts of the history; in the index only if it has coverage.
structure Recorded (s : V2State) (run : TestRun) (runId : Nat) (s' : V2State) : Prop where
  ids     : runId = s.registry.nextRunId ∧ s'.registry.nextRunId = runId + 1
  name    : s.registry.names.strings <+: s'.registry.names.strings ∧
    s'.registry.names.strings[(s.recordOf run).nameId]? = some run.name
  seed    : s.registry.seeds.strings <+: s'.registry.seeds.strings ∧
    s'.registry.seeds.strings[(s.recordOf run).seedId]? = some run.seed
  stats   : ∃ e, (s.stats.ensure (s.recordOf run).nameId).entries[(s.recordOf run).nameId]? = some e ∧
    s'.stats.entries = (s.stats.ensure (s.recordOf run).nameId).entries.set (s.recordOf run).nameId
      (e.update run.status run.ts run.cpuTime (some (s.recordOf run).seedId))
  bucket  :
    s'.current.records = s.current.records ++ [s.recordOf run] ∧ s'.sealedBuckets = s.sealedBuckets ∨
    ∃ file, s'.current = {} ∧ s'.sealedBuckets = s.sealedBuckets.set s.bucketIndex.nextSeq file ∧
      file.records.Perm ((s.current.records ++ [s.recordOf run]).map BucketRecord.truncated) ∧
      s.recordOf run ∈ file.records
  contrib :
    if run.hasCoverage then
      s'.contribIndex.entries.Perm ({
        runId  := runId
        nameId := (s.recordOf run).nameId
        status := run.status
        flags  := if run.isRerun then flagIsRerun else 0
      } :: s.contribIndex.entries)
    else
      s'.contribIndex = s.contribIndex

theorem add_eq (s : V2State) (run : TestRun) : s.current.add (s.recordOf run) =
    if (s.recordOf run).seedId ∈ s.current.seedIds ∨ s.current.seedIds.length < 255 then
      some (s.bucketWith run)
    else
      none := by
  rw [BucketWriter.add, bucketWith]
  by_cases hm : (s.recordOf run).seedId ∈ s.current.seedIds
  case pos => simp [hm]
  case neg =>
    by_cases hl : s.current.seedIds.length < 255
    case pos => simp [hm, hl]
    case neg => simp [hm, hl, Nat.le_of_not_lt hl]

theorem truncated_eq_iff : (s.recordOf run).truncated = s.recordOf run ↔ run.status < 16 := by
  have hf : (s.recordOf run).flags < 16 := by
    change run.flags < 16
    rw [TestRun.flags]
    split <;> split <;> decide
  constructor
  case mp =>
    intro h
    have hs : run.status % 16 = run.status := congrArg BucketRecord.status h
    omega
  case mpr => exact fun h => BucketRecord.truncated_eq h hf

theorem register_stats (s : V2State) (run : TestRun) :
    ∃ e, (s.stats.ensure (s.recordOf run).nameId).entries[(s.recordOf run).nameId]? = some e ∧
      (s.register run).stats.entries = (s.stats.ensure (s.recordOf run).nameId).entries.set
        (s.recordOf run).nameId (e.update run.status run.ts run.cpuTime (some (s.recordOf run).seedId)) := by
  have hl : (s.recordOf run).nameId < (s.stats.ensure (s.recordOf run).nameId).entries.length := by
    rw [TestStatsTable.ensure, List.length_append, List.length_map, List.length_range']
    omega
  refine ⟨_, List.getElem?_eq_getElem hl, ?_⟩
  exact List.modify_eq_set_get _ hl

-- The parts that are not the bucket, once the record is in it.
theorem recorded_of_bucket {runId : Nat} (hid : runId = s.registry.nextRunId)
    (hr : s'.registry = (s.register run).registry) (hs : s'.stats = (s.register run).stats)
    (hc : s'.contribIndex = s.contribIndex)
    (hb : s'.current.records = s.current.records ++ [s.recordOf run] ∧
        s'.sealedBuckets = s.sealedBuckets ∨
      ∃ file, s'.current = {} ∧ s'.sealedBuckets = s.sealedBuckets.set s.bucketIndex.nextSeq file ∧
        file.records.Perm ((s.current.records ++ [s.recordOf run]).map BucketRecord.truncated) ∧
        s.recordOf run ∈ file.records) :
    s.Recorded run runId (s'.indexRun runId (s.recordOf run).nameId run) := by
  have hids : (s.register run).registry.nextRunId = s.registry.nextRunId + 1 := rfl
  have hname : (s.register run).registry.names = (s.registry.names.lookupId run.name).snd := rfl
  have hseed : (s.register run).registry.seeds = (s.registry.seeds.lookupId run.seed).snd := rfl
  have hrecorded (ci : ContribIndex)
      (hci : if run.hasCoverage then ci.entries.Perm ({
          runId  := runId
          nameId := (s.recordOf run).nameId
          status := run.status
          flags  := if run.isRerun then flagIsRerun else 0
        } :: s.contribIndex.entries) else ci = s.contribIndex) :
      s.Recorded run runId { s' with contribIndex := ci } := by
    constructor
    case ids     => exact ⟨hid, by rw [hr, hids, hid]⟩
    case name    => exact hr ▸ hname ▸ ⟨StringIds.lookupId_prefix .., StringIds.lookupId_getElem? ..⟩
    case seed    => exact hr ▸ hseed ▸ ⟨StringIds.lookupId_prefix .., StringIds.lookupId_getElem? ..⟩
    case stats   => exact hs ▸ register_stats s run
    case bucket  => exact hb
    case contrib => exact hci
  rw [indexRun]
  split
  case isTrue h  => exact hrecorded _ (by rw [if_pos h, ← hc]; exact ContribIndex.addEntry_entries ..)
  case isFalse h => exact hrecorded s'.contribIndex (by rw [if_neg h, hc])

-- The four parts that a run is recorded in.
def parts (s : V2State) : TestRegistry × TestStatsTable × (BucketWriter × Dict Nat BucketFile) × ContribIndex :=
  (s.registry, s.stats, (s.current, s.sealedBuckets), s.contribIndex)

theorem parts_ne_of_register (hr : s'.registry = (s.register run).registry) : s'.parts ≠ s.parts := by
  intro h
  have hn : s'.registry.nextRunId = s.registry.nextRunId :=
    congrArg (fun p : TestRegistry × _ => p.fst.nextRunId) h
  have hs : (s.register run).registry.nextRunId = s.registry.nextRunId + 1 := rfl
  rw [hr, hs] at hn
  omega

-- The run is recorded in all parts, or the call raises and leaves them as they were.
def AllOrNothing (accel : Bool) (s : V2State) (run : TestRun) : Prop :=
  match s.addTestRun accel run with
  | (s', none)       => s'.parts = s.parts
  | (s', some runId) => s.Recorded run runId s'

theorem bucketWith_numbered (h : s.current.SeedsNumbered) (run : TestRun) :
    (s.bucketWith run).SeedsNumbered := by
  intro r hr
  rw [bucketWith]
  cases List.mem_append.mp hr
  case inl hr =>
    have hm := h r hr
    split
    case isTrue  => exact hm
    case isFalse => exact List.mem_append_left _ hm
  case inr hr =>
    rw [List.mem_singleton.mp hr]
    split
    case isTrue hm => exact hm
    case isFalse   => exact List.mem_append_right _ (.head _)

theorem addTestRun_full {file : BucketFile} (hf : historyBucketMaxRecords ≤ s.current.records.length + 1)
    (ha : s.current.add (s.recordOf run) = some (s.bucketWith run))
    (he : (s.bucketWith run).encode accel = some file) : s.addTestRun accel run =
      ({ s.register run with
          sealedBuckets := s.sealedBuckets.set s.bucketIndex.nextSeq file
          bucketIndex   := s.bucketIndex.addBucket <|
            bucketEntry s.bucketIndex.nextSeq file.records (·.status ≠ 0)
          current       := {} }.indexRun s.registry.nextRunId (s.recordOf run).nameId run,
        some s.registry.nextRunId) := by
  refine addTestRun_of_sealed ha ?_
  have hfull : (s.bucketWith run).isFull = true := by
    rw [BucketWriter.isFull, bucketWith, List.length_append]
    exact decide_eq_true hf
  have hne : (s.bucketWith run).records.isEmpty = false := by simp [bucketWith]
  rw [sealIfFull, if_pos hfull, sealCurrentBucket, if_neg (by rw [hne]; exact Bool.false_ne_true), he]
  rfl

-- A bucket that is full and cannot be encoded stays as it is, with the record in it.
theorem addTestRun_not_sealed (hf : historyBucketMaxRecords ≤ s.current.records.length + 1)
    (ha : s.current.add (s.recordOf run) = some (s.bucketWith run))
    (he : (s.bucketWith run).encode accel = none) :
    s.addTestRun accel run = ({ s.register run with current := s.bucketWith run }, none) := by
  have hfull : (s.bucketWith run).isFull = true := by
    rw [BucketWriter.isFull, bucketWith, List.length_append]
    exact decide_eq_true hf
  have hne : (s.bucketWith run).records.isEmpty = false := by simp [bucketWith]
  have ha : (s.register run).current.add (s.recordOf run) = some (s.bucketWith run) := ha
  have hs : { s.register run with current := s.bucketWith run }.sealIfFull accel = none := by
    rw [sealIfFull, if_pos hfull, sealCurrentBucket, if_neg (by rw [hne]; exact Bool.false_ne_true), he]
    rfl
  simp only [addTestRun, ha, hs]

theorem addTestRun_not_full (hf : ¬historyBucketMaxRecords ≤ s.current.records.length + 1)
    (ha : s.current.add (s.recordOf run) = some (s.bucketWith run)) : s.addTestRun accel run =
      ({ s.register run with current := s.bucketWith run }.indexRun s.registry.nextRunId
        (s.recordOf run).nameId run, some s.registry.nextRunId) := by
  have hfull : ¬(s.bucketWith run).isFull = true := by
    rw [BucketWriter.isFull, bucketWith, List.length_append]
    exact fun hl => hf (of_decide_eq_true hl)
  exact addTestRun_of_sealed ha (if_neg hfull)

theorem indexRun_same (s : V2State) (runId nameId : Nat) (run : TestRun) :
    (s.indexRun runId nameId run).current = s.current ∧
      (s.indexRun runId nameId run).sealedBuckets = s.sealedBuckets := by
  rw [indexRun]
  split <;> exact ⟨rfl, rfl⟩

theorem addTestRun_numbered (h : s.current.SeedsNumbered) (accel : Bool) (run : TestRun) :
    (s.addTestRun accel run).fst.current.SeedsNumbered := by
  have ha := add_eq s run
  have hw := bucketWith_numbered h run
  by_cases hseed : (s.recordOf run).seedId ∈ s.current.seedIds ∨ s.current.seedIds.length < 255
  case neg =>
    rw [if_neg hseed] at ha
    rw [addTestRun_of_not_added ha]
    exact h
  case pos =>
    rw [if_pos hseed] at ha
    by_cases hf : historyBucketMaxRecords ≤ s.current.records.length + 1
    case neg =>
      rw [addTestRun_not_full hf ha, (indexRun_same ..).left]
      exact hw
    case pos =>
      cases he : (s.bucketWith run).encode accel
      case none =>
        rw [addTestRun_not_sealed hf ha he]
        exact hw
      case some file =>
        rw [addTestRun_full hf ha he, (indexRun_same ..).left]
        exact nofun

theorem allOrNothing_iff (h : s.current.SeedsNumbered) : s.AllOrNothing accel run ↔ s.Takes accel run := by
  have ha := add_eq s run
  rw [AllOrNothing]
  by_cases hseed : (s.recordOf run).seedId ∈ s.current.seedIds ∨ s.current.seedIds.length < 255
  case neg =>
    rw [if_neg hseed] at ha
    rw [addTestRun_of_not_added ha]
    exact iff_of_false (parts_ne_of_register rfl) fun ht => hseed ht.seed
  case pos =>
    rw [if_pos hseed] at ha
    by_cases hf : historyBucketMaxRecords ≤ s.current.records.length + 1
    case neg =>
      rw [addTestRun_not_full hf ha]
      exact iff_of_true (recorded_of_bucket rfl rfl rfl rfl (.inl ⟨rfl, rfl⟩))
        ⟨hseed, fun hl => absurd hl hf⟩
    case pos =>
      cases he : (s.bucketWith run).encode accel
      case none =>
        rw [addTestRun_not_sealed hf ha he]
        refine iff_of_false (parts_ne_of_register rfl) fun ht => ?_
        rw [BucketWriter.encode, if_pos (ht.full hf).left] at he
        cases he
      case some file =>
        have hrecords := BucketWriter.records_encode he (bucketWith_numbered h run)
        have hsorted := (BucketWriter.sortedRecords_perm (s.bucketWith run)).map BucketRecord.truncated
        rw [← hrecords] at hsorted
        rw [addTestRun_full hf ha he]
        constructor
        case mp =>
          intro hr
          refine ⟨hseed, fun _ => ⟨(BucketWriter.encode_eq_some he).right, ?_⟩⟩
          obtain ⟨hcurrent, _⟩ := indexRun_same { s.register run with
            sealedBuckets := s.sealedBuckets.set s.bucketIndex.nextSeq file
            bucketIndex   := s.bucketIndex.addBucket <|
              bucketEntry s.bucketIndex.nextSeq file.records (·.status ≠ 0)
            current       := {} } s.registry.nextRunId (s.recordOf run).nameId run
          cases hr.bucket
          case inl hb =>
            rw [hcurrent] at hb
            exact absurd hb.left.symm (by simp)
          case inr hb =>
            obtain ⟨_, _, _, hp, hm⟩ := hb
            obtain ⟨r, _, hr⟩ := List.mem_map.mp (hp.subset hm)
            have hs : r.status % 16 = run.status := congrArg BucketRecord.status hr
            omega
        case mpr =>
          intro ht
          have hm : s.recordOf run ∈ file.records := by
            rw [← truncated_eq_iff.mpr (ht.full hf).right]
            exact hsorted.symm.subset (List.mem_map_of_mem (List.mem_append_right _ (.head _)))
          exact recorded_of_bucket rfl rfl rfl rfl (.inr ⟨file, rfl, rfl, hsorted, hm⟩)

end V2State

namespace HistoryState

variable {accel : Bool}

-- The parts of the history, as far as they are set.
def parts (s : HistoryState) : Option TestRegistry × Option TestStatsTable ×
    Option (BucketWriter × Dict Nat BucketFile) × Option ContribIndex :=
  match s.held with
  | .complete s                         =>
    (some s.registry, some s.stats, some (s.current, s.sealedBuckets), some s.contribIndex)
  | .stopped registry stats contribIndex => (registry, stats, none, contribIndex)

def AllOrNothing (accel : Bool) (s : HistoryState) (run : TestRun) : Prop :=
  match s.addTestRun accel run with
  | (s', none)       => s'.parts = s.parts
  | (s', some runId) => ∃ st st', s.held = .complete st ∧ s'.held = .complete st' ∧
    st.Recorded run runId st'

-- A loaded history takes the run; one whose loading stopped has nothing that could be changed, or
-- it is this call that loads it.
def Takes (accel : Bool) (run : TestRun) : HistoryState → Prop
  | unloaded m                       => ∀ s, m.load = .complete s → s.Takes accel run
  | loaded (.complete s)             => s.Takes accel run
  | loaded (.stopped registry _ _)   => registry = none

inductive Reachable (accel : Bool) : HistoryState → Prop
  | unloaded (m : HistoryMembers) : Reachable accel (unloaded m)
  | addTestRun {s} (run : TestRun) : Reachable accel s → Reachable accel (s.addTestRun accel run).fst
  | squashCoverage {s} (policy ts : Nat) : Reachable accel s → Reachable accel (s.squashCoverage policy ts)
  | query {s} : Reachable accel s → Reachable accel s.query

theorem held_loaded (h : HeldHistory) : (loaded h).held = h :=
  rfl

theorem load_numbered {m : HistoryMembers} {st : V2State} (h : m.load = .complete st) :
    st.current.SeedsNumbered := by
  rw [HistoryMembers.load] at h
  repeat' split at h
  all_goals cases h
  exact nofun

theorem held_addTestRun (s : HistoryState) (run : TestRun) :
    (s.addTestRun accel run).fst.held = (s.held.addTestRun accel run).fst ∨
      (s.addTestRun accel run).fst.held = s.held := by
  cases s
  case loaded h => exact .inl rfl
  case unloaded m =>
    rw [addTestRun]
    split
    case h_1 st hl => exact .inl (by rw [held, held, hl])
    case h_2       => exact .inr rfl

theorem Reachable.numbered {s : HistoryState} (h : Reachable accel s) {st : V2State}
    (hs : s.held = .complete st) : st.current.SeedsNumbered := by
  induction h generalizing st
  case unloaded m => exact load_numbered hs
  case addTestRun s run _ hi =>
    cases @held_addTestRun accel s run
    case inr hh => exact hi (hh.symm.trans hs)
    case inl hh =>
      rw [hh] at hs
      cases hc : s.held <;> rw [hc] at hs
      case complete st₀ =>
        cases hs
        exact V2State.addTestRun_numbered (hi hc) accel run
      case stopped registry stats contribIndex => cases registry <;> cases hs
  case squashCoverage s policy ts _ hi =>
    change s.held.squashCoverage policy ts = _ at hs
    cases hc : s.held <;> rw [hc] at hs <;> cases hs
    have hn := hi hc
    exact hn
  case query hi => exact hi hs

theorem complete_allOrNothing_iff {s : HistoryState} {st : V2State} {run : TestRun}
    (hh : s.held = .complete st) (hn : st.current.SeedsNumbered)
    (ha : s.addTestRun accel run =
      (loaded (.complete (st.addTestRun accel run).fst), (st.addTestRun accel run).snd)) :
    s.AllOrNothing accel run ↔ st.Takes accel run := by
  rw [← V2State.allOrNothing_iff hn, AllOrNothing, V2State.AllOrNothing, ha]
  cases hr : st.addTestRun accel run
  case mk st' runId =>
    cases runId
    case none =>
      simp only [parts, hh, held_loaded, V2State.parts, Prod.mk.injEq, Option.some.injEq]
    case some runId =>
      simp only [hh, held_loaded]
      constructor
      case mp =>
        intro ⟨_, _, h₁, h₂, h⟩
        cases h₁
        cases h₂
        exact h
      case mpr => exact fun h => ⟨st, st', rfl, rfl, h⟩

theorem stopped_addTestRun_iff {registry : Option TestRegistry} {stats : Option TestStatsTable}
    {contribIndex : Option ContribIndex} {run : TestRun} :
    (loaded (.stopped registry stats contribIndex)).AllOrNothing accel run ↔ registry = none := by
  cases registry
  case none => exact iff_of_true rfl rfl
  case some registry =>
    refine iff_of_false (fun h => ?_) nofun
    have hp := congrArg (fun p : Option TestRegistry × _ => p.fst.map (·.nextRunId)) h
    have hn : registry.nextRunId + 1 = registry.nextRunId := Option.some.inj hp
    omega

-- A run is recorded in all parts, or none of them changes, if and only if the history takes it.
theorem addTestRun_allOrNothing_iff {s : HistoryState} (h : Reachable accel s) (run : TestRun) :
    s.AllOrNothing accel run ↔ s.Takes accel run := by
  cases s
  case loaded held =>
    cases held
    case complete st => exact complete_allOrNothing_iff rfl (h.numbered rfl) rfl
    case stopped     => exact stopped_addTestRun_iff
  case unloaded m =>
    cases hl : m.load
    case complete st =>
      have ha : (unloaded m).addTestRun accel run =
          (loaded (.complete (st.addTestRun accel run).fst), (st.addTestRun accel run).snd) := by
        rw [HistoryState.addTestRun, hl]
        rfl
      have hh : (unloaded m).held = .complete st := hl
      rw [complete_allOrNothing_iff hh (h.numbered hh) ha]
      exact ⟨fun ht s hs => by cases hl.symm.trans hs; exact ht, fun ht => ht st hl⟩
    case stopped registry stats contribIndex =>
      have ha : (unloaded m).addTestRun accel run = (loaded m.load, none) := by
        rw [HistoryState.addTestRun, hl]
      refine iff_of_true ?_ fun s hs => nomatch hl.symm.trans hs
      rw [AllOrNothing, ha]
      rfl

theorem addTestRun_allOrNothing_new :
    let run := { name := "uart_smoke", ts := 1700000000, hasCoverage := true }
    (unloaded {}).AllOrNothing false run ↔ (unloaded {}).Takes false run :=
  addTestRun_allOrNothing_iff (.unloaded {}) _

-- A run with a seed of its own.
def seedOf (n : Nat) : String :=
  String.ofList (List.replicate n '1')

def seededRun (n : Nat) : TestRun where
  name := "uart_smoke"
  seed := seedOf n
  ts   := 1700000000

-- After some runs, each with another seed.
structure Seeded (n : Nat) (st : V2State) : Prop where
  reachable : Reachable false (loaded (.complete st))
  records   : st.current.records.length = n
  seedIds   : st.current.seedIds = List.range n
  strings   : st.registry.seeds.strings = (List.range n).map seedOf

theorem Seeded.recordOf_seedId {n : Nat} {st : V2State} (h : Seeded n st) :
    (st.recordOf (seededRun n)).seedId = n ∧
      (st.registry.seeds.lookupId (seedOf n)).snd.strings = (List.range (n + 1)).map seedOf := by
  have hn : st.registry.seeds.idOf (seedOf n) = none := by
    refine StringIds.idOf_eq_none_iff.mpr fun hm => ?_
    rw [h.strings] at hm
    have ⟨m, hm, he⟩ := List.mem_map.mp hm
    have heq : m = n := by simpa [seedOf] using congrArg (·.toList.length) he
    exact Nat.ne_of_lt (List.mem_range.mp hm) heq
  constructor
  case left =>
    change (st.registry.seeds.lookupId (seedOf n)).fst = n
    rw [StringIds.lookupId, hn, h.strings, List.length_map, List.length_range]
  case right =>
    rw [StringIds.lookupId, hn, h.strings, List.range_succ, List.map_append]
    rfl

theorem exists_seeded {n : Nat} (hn : n ≤ 255) : ∃ st, Seeded n st := by
  induction n
  case zero =>
    exact ⟨{}, .query (.unloaded {}), rfl, rfl, rfl⟩
  case succ n hi =>
    have ⟨st, h⟩ := hi (by omega)
    have ⟨hid, hstrings⟩ := h.recordOf_seedId
    have hnew : (st.recordOf (seededRun n)).seedId ∉ st.current.seedIds := by
      rw [hid, h.seedIds]
      exact List.not_mem_range_self
    have hlen : st.current.seedIds.length < 255 := by
      rw [h.seedIds, List.length_range]
      omega
    have ha := V2State.add_eq st (seededRun n)
    rw [if_pos (.inr hlen)] at ha
    have hfull : ¬historyBucketMaxRecords ≤ st.current.records.length + 1 := by
      rw [h.records, historyBucketMaxRecords]
      omega
    have hadd := @V2State.addTestRun_not_full false _ _ hfull ha
    have hreach := h.reachable.addTestRun (seededRun n)
    change Reachable false (loaded (.complete (st.addTestRun false (seededRun n)).fst)) at hreach
    rw [hadd] at hreach
    refine ⟨_, hreach, ?_, ?_, hstrings⟩
    · change (st.current.records ++ [_]).length = n + 1
      rw [List.length_append, h.records]
      rfl
    · change (st.bucketWith (seededRun n)).seedIds = _
      rw [V2State.bucketWith, if_neg hnew, hid, h.seedIds, List.range_succ]

-- The run with the 256th seed in a bucket raises after it took an id and was counted.
theorem addTestRun_not_atomic :
    ∃ st, Reachable false (loaded (.complete st)) ∧
      (st.addTestRun false (seededRun 255)).snd = none ∧
      ¬(loaded (.complete st)).AllOrNothing false (seededRun 255) := by
  have ⟨st, h⟩ := exists_seeded (Nat.le_refl 255)
  have hid := h.recordOf_seedId.left
  have hfull : ¬((st.recordOf (seededRun 255)).seedId ∈ st.current.seedIds ∨
      st.current.seedIds.length < 255) := by
    rw [hid, h.seedIds, List.length_range]
    simp
  have ha := V2State.add_eq st (seededRun 255)
  rw [if_neg hfull] at ha
  refine ⟨st, h.reachable, by rw [V2State.addTestRun_of_not_added ha], fun hn => ?_⟩
  have ht := (complete_allOrNothing_iff rfl (h.reachable.numbered rfl) rfl).mp hn
  exact hfull ht.seed

end HistoryState
