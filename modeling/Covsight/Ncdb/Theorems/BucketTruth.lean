import Mathlib.Order.Bounds.Basic
import Covsight.Ncdb.Theorems.NcdbUCIS

-- What a caller does with a database that is open over a file.
inductive V2Op
  | addTestRun (run : TestRun)
  | queryTestHistory
  | save
  | reload

-- A database over its file, with the runs that were recorded in the database and up to the last
-- save.
structure V2Session where
  file  : Option V2Members := none
  db    : NcdbUCIS := {}
  saved : List RecordedRun := []
  log   : List RecordedRun := []

namespace V2Session

-- A call that raises records no run and a save that raises leaves the file as it is. Reloading
-- goes back to what was saved.
def step (accel : Bool) (s : V2Session) : V2Op → V2Session
  | .addTestRun run =>
    match s.db.ensureV2History s.file with
    | none          => s
    | some (db, st) =>
      let (st, runId) := st.addTestRun accel run
      { s with
        db  := { db with state := some st }
        log := if runId.isSome then s.log ++ [run.recorded] else s.log
      }
  | .queryTestHistory =>
    match s.db.ensureV2History s.file with
    | none         => s
    | some (db, _) => { s with db := db }
  | .save =>
    match s.db.v2Members accel with
    | none   => s
    | some m => { s with db := s.db.readZip s.file, file := some m, saved := s.log }
  | .reload => { s with db := {}, log := s.saved }

-- The runs a query returns, by name and seed.
def query (accel : Bool) (s : V2Session) (name : String) (tsFrom tsTo : Option Int) :
    Option (List (Option RecordedRun)) :=
  (s.db.ensureV2History s.file).map fun (_, st) =>
    (st.queryTestHistory accel name tsFrom tsTo).map st.registry.recorded

-- Every query returns exactly the recorded runs of the name in the range.
def Complete (accel : Bool) (s : V2Session) : Prop :=
  ∀ name tsFrom tsTo, ∃ runs, s.query accel name tsFrom tsTo = some runs ∧
    runs.Perm ((s.log.filter (·.matches name tsFrom tsTo)).map some)

-- The sessions reached from an empty one by steps that are allowed.
inductive Reachable (accel : Bool) (allowed : V2Session → V2Op → Prop) : V2Session → Prop
  | init : Reachable accel allowed {}
  | step {s} (op : V2Op) :
    Reachable accel allowed s → allowed s op → Reachable accel allowed (s.step accel op)

-- A run is added to a history that keeps it, and a file with a history is only overwritten once
-- the history is loaded.
def Keeps (s : V2Session) : V2Op → Prop
  | .addTestRun run    => ∀ db st, s.db.ensureV2History s.file = some (db, st) → st.Accepts run
  | .save              => s.db.state.isSome ∨ s.file.getD {} = {}
  | .queryTestHistory  => True
  | .reload            => True

-- Both the file and the database store the runs recorded in them.
structure Consistent (s : V2Session) : Prop where
  file     : ∃ st, V2State.load (s.file.getD {}) = some st ∧ st.Sound s.saved ∧ st.current = {}
  loaded   : ∀ st, s.db.state = some st →
    st.Sound s.log ∧ st.current.records.length < historyBucketMaxRecords
  unloaded : s.db.state = none →
    s.log = s.saved ∧ (s.db.zfCache = none ∨ s.db.zfCache.getD {} = s.file.getD {})

namespace Consistent

variable {accel : Bool} {s : V2Session}

theorem init : Consistent {} where
  file     := ⟨{}, rfl, .empty, rfl⟩
  loaded   := nofun
  unloaded := fun _ => ⟨rfl, .inl rfl⟩

-- Loading the history on demand finds what was recorded.
theorem ensure (h : s.Consistent) : ∃ db st, s.db.ensureV2History s.file = some (db, st) ∧
    db.state = some st ∧ st.Sound s.log ∧
    st.current.records.length < historyBucketMaxRecords := by
  rw [NcdbUCIS.ensureV2History]
  cases hs : s.db.state
  case some st => exact ⟨s.db, st, rfl, hs, h.loaded st hs⟩
  case none =>
    have ⟨hl, hc⟩ := h.unloaded hs
    have ⟨st, he, hst, hcur⟩ := h.file
    have hz : (s.db.readZip s.file).zfCache.getD {} = s.file.getD {} := by
      rw [NcdbUCIS.readZip]
      cases hz : s.db.zfCache <;> simp [hz] at hc ⊢
      exact hc
    simp only [hz, he]
    exact ⟨_, st, rfl, rfl, hl ▸ hst, hcur ▸ by decide⟩

theorem complete (h : s.Consistent) : s.Complete accel := by
  intro name tsFrom tsTo
  have ⟨db, st, he, _, hst, _⟩ := h.ensure
  exact ⟨_, by rw [query, he]; rfl, hst.query hst.truthful hst.encodable accel name tsFrom tsTo⟩

theorem step (h : s.Consistent) {op : V2Op} (hk : s.Keeps op) : (s.step accel op).Consistent := by
  have ⟨db, st, he, hd, hst, hl⟩ := h.ensure
  cases op <;> simp only [V2Session.step, he]
  case addTestRun run =>
    have ha := hst.addTestRun hl (hk db st he) accel
    exact { file := h.file, loaded := by rintro _ ⟨⟩; exact ha, unloaded := nofun }
  case queryTestHistory =>
    refine { file := h.file, loaded := fun st' hs => ?_, unloaded := fun hs => ?_ }
    · cases hd.symm.trans hs
      exact ⟨hst, hl⟩
    · cases hd.symm.trans hs
  case reload => exact { file := h.file, loaded := nofun, unloaded := fun _ => ⟨rfl, .inl rfl⟩ }
  case save =>
    rw [NcdbUCIS.v2Members]
    cases hs : s.db.state
    case some st =>
      have ⟨hst, hl⟩ := h.loaded st hs
      cases hm : st.getV2Members accel
      case none => simpa only [hm] using h
      case some m =>
        simp only [hm]
        refine { file := hst.load_getV2Members hm, loaded := fun st' hs' => ?_,
                 unloaded := fun hn => ?_ }
        · cases hs.symm.trans hs'
          exact ⟨hst, hl⟩
        · cases hs.symm.trans hn
    case none =>
      have ⟨hlog, hc⟩ := h.unloaded hs
      have hf : s.file.getD {} = {} := by
        cases hk
        case inl hk => simp [hs] at hk
        case inr hk => exact hk
      refine { file := ?_, loaded := fun st' hs' => ?_, unloaded := fun _ => ⟨rfl, .inr ?_⟩ }
      · have hfile := h.file
        rwa [hf, ← hlog] at hfile
      · cases hs.symm.trans hs'
      · rw [NcdbUCIS.readZip]
        cases hz : s.db.zfCache <;> simp [hz, hf] at hc ⊢
        exact hc

end Consistent

-- While all runs that are added are kept, queries are complete.
theorem Reachable.queries_complete {accel : Bool} {s : V2Session} (h : Reachable accel Keeps s) :
    s.Complete accel := by
  have hc : s.Consistent := by
    induction h
    case init           => exact .init
    case step _ _ hk hi => exact hi.step hk
  exact hc.complete

-- Two runs in order of time, saved and reloaded.
theorem Reachable.queries_complete_reloaded :
    let ops : List V2Op := [.addTestRun { name := "A", ts := 50 },
      .addTestRun { name := "B", ts := 100 }, .save, .reload]
    let s : V2Session := ops.foldl (V2Session.step true) {}
    s.log.length = 2 ∧ s.Complete true := by
  refine ⟨rfl, Reachable.queries_complete ?_⟩
  refine .step .reload (.step .save (.step _ (.step _ .init ?_) ?_) ?_) ?_
  · rintro _ _ ⟨⟩
    exact ⟨by decide, by decide, by decide, by decide, by decide⟩
  · rintro _ _ ⟨⟩
    exact ⟨by decide, by decide, by decide, by decide, by decide⟩
  · exact .inl rfl
  · trivial

-- A run that is older than the runs of the first test hides all runs of the open bucket.
theorem Reachable.queries_not_complete :
    ¬∀ s, Reachable true (fun _ _ => True) s → s.Complete true := by
  intro h
  have h := h _ <| .step (.addTestRun { name := "B", ts := 50 })
    (.step (.addTestRun { name := "A", ts := 100 }) .init trivial) trivial
  have ⟨runs, hq, hp⟩ := h "A" none none
  have hr : runs = [] := Option.some.inj (hq.symm.trans rfl)
  exact absurd hp.length_eq (hr ▸ by decide)

end V2Session

-- What the bucket index says of the buckets, over whole sessions.

section

variable {α : Type*} [LinearOrder α] {xs : List α}

theorem isLeast_min? (h : xs ≠ []) (d : α) : IsLeast {x | x ∈ xs} (xs.min?.getD d) := by
  refine ⟨?_, fun x hx => min?_getD_le hx d⟩
  have ⟨m, hm⟩ := Option.ne_none_iff_exists'.mp fun hn => h (List.min?_eq_none_iff.mp hn)
  rw [hm, Option.getD_some]
  exact (List.min?_eq_some_iff.mp hm).left

theorem isGreatest_max? (h : xs ≠ []) (d : α) : IsGreatest {x | x ∈ xs} (xs.max?.getD d) := by
  refine ⟨?_, fun x hx => le_max?_getD hx d⟩
  have ⟨m, hm⟩ := Option.ne_none_iff_exists'.mp fun hn => h (List.max?_eq_none_iff.mp hn)
  rw [hm, Option.getD_some]
  exact (List.max?_eq_some_iff.mp hm).left

end

-- An entry states the truth of its bucket. A run that is not OK has failed.
structure BucketIndexEntry.States (e : BucketIndexEntry) (rs : List BucketRecord) : Prop where
  numRecords : e.numRecords = rs.length
  tsStart    : IsLeast {t | t ∈ rs.map (·.ts)} e.tsStart
  tsEnd      : IsGreatest {t | t ∈ rs.map (·.ts)} e.tsEnd
  minNameId  : IsLeast {n | n ∈ rs.map (·.nameId)} e.minNameId
  maxNameId  : IsGreatest {n | n ∈ rs.map (·.nameId)} e.maxNameId
  failCount  : e.failCount = (rs.filter (·.status ≠ histStatusOk)).length
  kept       : ∀ r ∈ rs, ∀ tsFrom tsTo, V2State.inRange tsFrom tsTo r.ts → e.mayHold r.nameId tsFrom tsTo

-- An entry made of the same times and names is true if and only if it counts the same failures.
theorem bucketEntry_states_iff {seq : Nat} {recs rs : List BucketRecord} {failed : BucketRecord → Bool} (hne : recs ≠ [])
    (ht : (rs.map (·.ts)).Perm (recs.map (·.ts))) (hn : (rs.map (·.nameId)).Perm (recs.map (·.nameId))) :
    (bucketEntry seq recs failed).States rs ↔
      (recs.filter failed).length = (rs.filter (·.status ≠ histStatusOk)).length := by
  have hts : {t | t ∈ rs.map (·.ts)} = {t | t ∈ recs.map (·.ts)} := Set.ext fun t => ht.mem_iff
  have hns : {n | n ∈ rs.map (·.nameId)} = {n | n ∈ recs.map (·.nameId)} := Set.ext fun n => hn.mem_iff
  have hcov : (bucketEntry seq recs failed).Covers rs := by
    intro r hr
    have htr := ht.mem_iff.mp <| List.mem_map_of_mem hr
    have hnr := hn.mem_iff.mp <| List.mem_map_of_mem hr
    exact ⟨⟨min?_getD_le hnr 0, le_max?_getD hnr 0⟩, min?_getD_le htr 0, le_max?_getD htr 0⟩
  refine ⟨fun h => h.failCount, fun hf => ?_⟩
  have hm {β : Type} (f : BucketRecord → β) : recs.map f ≠ [] := fun he => hne (List.map_eq_nil_iff.mp he)
  constructor
  case numRecords => simpa [bucketEntry] using ht.length_eq.symm
  case tsStart    => exact hts ▸ isLeast_min? (hm _) 0
  case tsEnd      => exact hts ▸ isGreatest_max? (hm _) 0
  case minNameId  => exact hns ▸ isLeast_min? (hm _) 0
  case maxNameId  => exact hns ▸ isGreatest_max? (hm _) 0
  case failCount  => exact hf
  case kept       => exact fun r hr _ _ hi => hcov.mayHold hr hi

-- Index and buckets belong together, one entry for one bucket, and every entry says something of its bucket.
structure Describes (p : BucketIndexEntry → List BucketRecord → Prop) (index : BucketIndex) (buckets : Dict Nat BucketFile) :
    Prop where
  sorted  : index.entries.Pairwise (·.bucketSeq < ·.bucketSeq)
  entries : List.Forall₂ (fun e b => e.bucketSeq = b.fst ∧ p e b.snd.records) index.entries buckets.entries

namespace Describes

variable {p q : BucketIndexEntry → List BucketRecord → Prop} {index : BucketIndex} {buckets : Dict Nat BucketFile}

theorem empty : Describes p {} ∅ where
  sorted  := .nil
  entries := .nil

-- One more bucket, of which something else may be said
theorem store (h : Describes p index buckets) {entry : BucketIndexEntry} (he : entry.bucketSeq = index.nextSeq)
    (file : BucketFile) :
    (Describes q index buckets → q entry file.records →
      Describes q (index.addBucket entry) (buckets.set index.nextSeq file)) ∧
    (Describes q (index.addBucket entry) (buckets.set index.nextSeq file) → q entry file.records) := by
  obtain ⟨ha, hlt⟩ := BucketIndex.addBucket_nextSeq h.sorted he
  have hk : index.nextSeq ∉ buckets := by
    have hs : List.Forall₂ Eq (index.entries.map (·.bucketSeq)) buckets.keys := by
      rw [Dict.keys, List.forall₂_map_left_iff, List.forall₂_map_right_iff]
      exact h.entries.imp fun _ _ hi => hi.left
    rw [List.forall₂_eq_eq_eq] at hs
    rw [Dict.mem_def, ← hs]
    intro hm
    obtain ⟨e, hm, hs⟩ := List.mem_map.mp hm
    exact Nat.ne_of_lt (hlt e hm) (hs.trans he.symm)
  have hb := Dict.entries_set_of_not_mem hk file
  refine ⟨fun hq hf => ⟨?_, ?_⟩, fun hq => ?_⟩
  case refine_1 =>
    rw [ha]
    exact List.pairwise_append.mpr ⟨hq.sorted, List.pairwise_singleton .., by simpa using hlt⟩
  case refine_2 =>
    rw [ha, hb]
    exact List.rel_append hq.entries <| .cons ⟨he, hf⟩ .nil
  case refine_3 =>
    have hs := hq.entries
    rw [ha, hb] at hs
    have hd := List.forall₂_drop_append _ _ _ hs
    rw [← h.entries.length_eq, List.drop_left] at hd
    exact (List.forall₂_cons.mp hd).left.right

end Describes

namespace V2State

variable {p q : BucketIndexEntry → List BucketRecord → Prop} {accel : Bool} {s s' : V2State} {run : TestRun}

structure Describing (p : BucketIndexEntry → List BucketRecord → Prop) (s : V2State) : Prop where
  buckets  : Describes p s.bucketIndex s.sealedBuckets
  numbered : s.current.SeedsNumbered

-- What is said of a bucket when it is sealed.
def Seals (p : BucketIndexEntry → List BucketRecord → Prop) : Prop :=
  ∀ seq rs, rs ≠ [] → p (bucketEntry seq rs (·.status ≠ 0)) rs

theorem seals_states : Seals BucketIndexEntry.States :=
  fun _ _ hne => (bucketEntry_states_iff hne (.refl _) (.refl _)).mpr rfl

theorem records_ne_nil (h : s.current.SeedsNumbered) (hne : ¬s.current.records.isEmpty) {file : BucketFile}
    (hf : s.current.encode accel = some file) : file.records ≠ [] := by
  intro he
  have hl := congrArg List.length (BucketWriter.records_encode hf h)
  rw [he, List.length_map, (BucketWriter.sortedRecords_perm _).length_eq] at hl
  exact hne (List.isEmpty_iff.mpr (List.length_eq_zero_iff.mp hl.symm))

theorem Describing.sealCurrentBucket (h : s.Describing p) (hp : Seals p)
    (hs : s.sealCurrentBucket accel = some s') : s'.Describing p := by
  rw [V2State.sealCurrentBucket] at hs
  split at hs
  case isTrue => cases hs; exact h
  case isFalse hne =>
    obtain ⟨file, hf, hs⟩ := Option.bind_eq_some_iff.mp hs
    cases hs
    have hq := hp s.bucketIndex.nextSeq file.records (records_ne_nil h.numbered hne hf)
    exact ⟨(h.buckets.store rfl file).left h.buckets hq, List.forall_mem_nil _⟩

theorem Describing.sealIfFull (h : s.Describing p) (hp : Seals p) (hs : s.sealIfFull accel = some s') :
    s'.Describing p := by
  rw [V2State.sealIfFull] at hs
  split at hs
  case isTrue  => exact h.sealCurrentBucket hp hs
  case isFalse => cases hs; exact h

theorem Describing.addTestRun (h : s.Describing p) (hp : Seals p) : (s.addTestRun accel run).fst.Describing p := by
  have hr : (s.register run).Describing p := ⟨h.buckets, h.numbered⟩
  rw [V2State.addTestRun]
  dsimp only
  cases ha : (s.register run).current.add (s.recordOf run) with
  | none         => exact hr
  | some current =>
    have hc : { s.register run with current := current }.Describing p :=
      ⟨h.buckets, (BucketWriter.add_spec ha h.numbered).right⟩
    dsimp only
    cases hs : { s.register run with current := current }.sealIfFull accel with
    | none    => exact hc
    | some s' =>
      have hs := hc.sealIfFull hp hs
      dsimp only
      rw [V2State.indexRun]
      split
      case isTrue  => exact ⟨hs.buckets, hs.numbered⟩
      case isFalse => exact hs

-- Runs of the open bucket that are told from failed ones as the sealing does.
def OkOrFail (s : V2State) : Prop :=
  ∀ r ∈ s.current.records, r.status % 16 = histStatusOk ∨ r.status = histStatusFail

end V2State

def V2Members.Describing (p : BucketIndexEntry → List BucketRecord → Prop) (m : V2Members) : Prop :=
  Describes p (m.bucketIndex.getD {}) m.buckets

namespace V2State

variable {p : BucketIndexEntry → List BucketRecord → Prop} {accel : Bool} {s s' : V2State} {m : V2Members}

theorem Describing.load (h : m.Describing p) (hs : V2State.load m = some s') : s'.Describing p := by
  have ⟨registry, _, hs⟩ := Option.bind_eq_some_iff.mp hs
  cases hs
  exact ⟨h, nofun⟩

theorem eq_of_serialize {index index' : BucketIndex} (h : index.serialize = some index') : index' = index := by
  rw [BucketIndex.serialize] at h
  split at h <;> cases h
  rfl

-- The members of a history: its buckets, and the open one if it has records.
theorem bucketMembers_of_getV2Members (h : s.getV2Members accel = some m) :
    ∃ index, s.bucketMembers accel = some (m.buckets, index) ∧ m.bucketIndex = some index := by
  simp only [getV2Members, Option.bind_eq_bind, Option.bind_eq_some_iff] at h
  have ⟨_, _, _, _, _, _, _, _, (_, index), hb, index', hi, hm⟩ := h
  rw [eq_of_serialize hi] at hm
  cases hm
  exact ⟨index, hb, rfl⟩

-- The entry of the open bucket counts the runs with the status FAIL.
theorem openEntry_states_iff (hn : s.current.SeedsNumbered) (hne : s.current.records ≠ []) {file : BucketFile}
    (hf : s.current.encode accel = some file) (seq : Nat) :
    (bucketEntry seq s.current.records (·.status = histStatusFail)).States file.records ↔ s.OkOrFail := by
  have hp : (s.current.records.map BucketRecord.truncated).Perm file.records := by
    rw [BucketWriter.records_encode hf hn]
    exact ((BucketWriter.sortedRecords_perm _).map _).symm
  have ht : (file.records.map (·.ts)).Perm (s.current.records.map (·.ts)) := by
    have := (hp.map (·.ts)).symm
    rwa [List.map_map] at this
  have hi : (file.records.map (·.nameId)).Perm (s.current.records.map (·.nameId)) := by
    have := (hp.map (·.nameId)).symm
    rwa [List.map_map] at this
  have hl : (file.records.filter (·.status ≠ histStatusOk)).length =
      (s.current.records.filter (·.status % 16 ≠ histStatusOk)).length := by
    have hf := (hp.filter (·.status ≠ histStatusOk)).length_eq
    rw [List.filter_map, List.length_map] at hf
    exact hf.symm
  rw [bucketEntry_states_iff hne ht hi, hl]
  have hsub : (s.current.records.filter (·.status = histStatusFail)).Sublist
      (s.current.records.filter (·.status % 16 ≠ histStatusOk)) := by
    refine List.monotone_filter_right _ fun r hr => ?_
    have hr : r.status = histStatusFail := by simpa using hr
    simp [hr, histStatusFail, histStatusOk]
  constructor
  case mp =>
    intro he r hm
    have heq := hsub.eq_of_length he
    by_contra hc
    have ⟨ho, hfail⟩ := not_or.mp hc
    have hr : r ∈ s.current.records.filter (·.status % 16 ≠ histStatusOk) :=
      List.mem_filter.mpr ⟨hm, by simpa using ho⟩
    rw [← heq] at hr
    exact hfail <| by simpa using (List.mem_filter.mp hr).right
  case mpr =>
    intro ho
    refine congrArg List.length <| List.filter_congr fun r hm => decide_eq_decide.mpr ?_
    constructor
    case mp  => intro hr; simp [hr, histStatusFail, histStatusOk]
    case mpr => exact fun hr => (ho r hm).resolve_left hr

theorem Describing.getV2Members (h : s.Describing p) (hm : s.getV2Members accel = some m)
    (ho : ∀ file, s.current.records ≠ [] → s.current.encode accel = some file →
      p (bucketEntry s.bucketIndex.nextSeq s.current.records (·.status = histStatusFail)) file.records) :
    m.Describing p := by
  have ⟨index, hb, hi⟩ := bucketMembers_of_getV2Members hm
  rw [V2Members.Describing, hi, Option.getD_some]
  rw [V2State.bucketMembers] at hb
  split at hb
  case isTrue =>
    rw [Option.some.injEq, Prod.mk.injEq] at hb
    exact hb.left ▸ hb.right ▸ h.buckets
  case isFalse hne =>
    simp only [Option.bind_eq_bind, Option.bind_eq_some_iff] at hb
    have ⟨file, hf, index', hs, hb⟩ := hb
    rw [eq_of_serialize hs, Option.pure_def, Option.some.injEq, Prod.mk.injEq] at hb
    have hp := ho file (fun he => hne (List.isEmpty_iff.mpr he)) hf
    exact hb.left ▸ hb.right ▸ (h.buckets.store rfl file).left h.buckets hp

theorem okOrFail_of_getV2Members (h : s.Describing fun _ _ => True) (hm : s.getV2Members accel = some m)
    (hd : m.Describing BucketIndexEntry.States) : s.OkOrFail := by
  have ⟨index, hb, hi⟩ := bucketMembers_of_getV2Members hm
  rw [V2Members.Describing, hi, Option.getD_some] at hd
  rw [V2State.bucketMembers] at hb
  split at hb
  case isTrue hne =>
    intro r hr
    rw [List.isEmpty_iff.mp hne] at hr
    cases hr
  case isFalse hne =>
    simp only [Option.bind_eq_bind, Option.bind_eq_some_iff] at hb
    have ⟨file, hf, index', hs, hb⟩ := hb
    rw [eq_of_serialize hs, Option.pure_def, Option.some.injEq, Prod.mk.injEq] at hb
    rw [← hb.left, ← hb.right] at hd
    exact (openEntry_states_iff h.numbered (fun he => hne (List.isEmpty_iff.mpr he)) hf _).mp <|
      (h.buckets.store rfl file).right hd

end V2State

namespace V2Session

variable {p : BucketIndexEntry → List BucketRecord → Prop} {accel : Bool} {s : V2Session} {ops : List V2Op}

-- The index is true of the buckets in the file, in the history once it is loaded, and in what a save of it stores.
structure IndexTrue (accel : Bool) (s : V2Session) : Prop where
  file   : ∀ m, s.file = some m → m.Describing BucketIndexEntry.States
  loaded : ∀ st, s.db.state = some st → Describes BucketIndexEntry.States st.bucketIndex st.sealedBuckets
  stored : ∀ st m, s.db.state = some st → st.getV2Members accel = some m → m.Describing BucketIndexEntry.States

-- A history that can be saved has no run in its open bucket that is neither OK nor failed.
def SavesOkOrFail (accel : Bool) (s : V2Session) : Prop :=
  ∀ st m, s.db.state = some st → st.getV2Members accel = some m → st.OkOrFail

-- The sessions that calls lead through
def states (accel : Bool) (s : V2Session) : List V2Op → List V2Session
  | []        => [s]
  | op :: ops => s :: states accel (s.step accel op) ops

structure Described (p : BucketIndexEntry → List BucketRecord → Prop) (s : V2Session) : Prop where
  file   : ∀ m, s.file = some m → m.Describing p
  cached : ∀ m, s.db.zfCache = some m → m.Describing p
  state  : ∀ st, s.db.state = some st → st.Describing p

theorem Described.readZip (h : s.Described p) : ∀ m, (s.db.readZip s.file).zfCache = some m → m.Describing p := by
  intro m hm
  rw [NcdbUCIS.readZip] at hm
  cases hc : s.db.zfCache with
  | none   => exact h.file m (by simpa [hc] using hm)
  | some _ => exact h.cached m (by simpa [hc] using hm)

theorem Described.ensure (h : s.Described p) {db : NcdbUCIS} {st : V2State}
    (he : s.db.ensureV2History s.file = some (db, st)) :
    st.Describing p ∧ (∀ m, db.zfCache = some m → m.Describing p) ∧ db.state = some st := by
  rw [NcdbUCIS.ensureV2History] at he
  cases hs : s.db.state with
  | some st' =>
    rw [hs] at he
    cases he
    exact ⟨h.state _ hs, h.cached, hs⟩
  | none =>
    rw [hs] at he
    simp only [Option.bind_eq_bind, Option.bind_eq_some_iff] at he
    obtain ⟨st', hl, he⟩ := he
    cases he
    refine ⟨?_, h.readZip, rfl⟩
    cases hz : (s.db.readZip s.file).zfCache with
    | none   =>
      have he : V2Members.Describing p {} := Describes.empty
      rw [hz] at hl
      exact V2State.Describing.load he hl
    | some m =>
      rw [hz] at hl
      exact V2State.Describing.load (h.readZip m hz) hl

theorem Described.step (h : s.Described p) (hp : V2State.Seals p)
    (hm : ∀ st m, s.db.state = some st → st.getV2Members accel = some m → m.Describing p) (op : V2Op) :
    (s.step accel op).Described p := by
  cases op with
  | addTestRun run =>
    rw [V2Session.step]
    cases he : s.db.ensureV2History s.file with
    | none   => exact h
    | some r =>
      obtain ⟨hs, hc, _⟩ := h.ensure he
      refine ⟨h.file, hc, fun st hst => ?_⟩
      cases hst
      exact hs.addTestRun hp
  | queryTestHistory =>
    rw [V2Session.step]
    cases he : s.db.ensureV2History s.file with
    | none   => exact h
    | some r =>
      obtain ⟨hs, hc, hd⟩ := h.ensure he
      refine ⟨h.file, hc, fun st hst => ?_⟩
      rw [hd] at hst
      cases hst
      exact hs
  | save =>
    rw [V2Session.step]
    cases he : s.db.v2Members accel with
    | none   => exact h
    | some m =>
      refine ⟨fun m' hm' => ?_, h.readZip, h.state⟩
      cases hm'
      rw [NcdbUCIS.v2Members] at he
      cases hs : s.db.state with
      | none    => rw [hs] at he; cases he; exact .empty
      | some st => rw [hs] at he; exact hm st m hs he
  | reload => exact ⟨h.file, by simp [V2Session.step], by simp [V2Session.step]⟩

theorem described_init : Described p {} :=
  ⟨nofun, nofun, nofun⟩

-- The buckets have their entries in every session.
theorem described_states (h : s.Described fun _ _ => True) : ∀ s' ∈ s.states accel ops, s'.Described fun _ _ => True := by
  induction ops generalizing s with
  | nil => exact fun s' hs' => List.mem_singleton.mp hs' ▸ h
  | cons op ops hi =>
    intro s' hs'
    rcases List.mem_cons.mp hs' with rfl | hs'
    case inl => exact h
    case inr =>
      refine hi (h.step (fun _ _ _ => trivial) (fun st m hst hm => ?_) op) s' hs'
      exact (h.state st hst).getV2Members hm fun _ _ _ => trivial

theorem Described.indexTrue (h : s.Described BucketIndexEntry.States) (ho : s.SavesOkOrFail accel) : s.IndexTrue accel where
  file       := h.file
  loaded     := fun st hst => (h.state st hst).buckets
  stored st m hst hm :=
    (h.state st hst).getV2Members hm fun _ hne hf =>
      (V2State.openEntry_states_iff (h.state st hst).numbered hne hf _).mpr (ho st m hst hm)

theorem indexTrue_states (h : s.Described BucketIndexEntry.States)
    (ho : ∀ s' ∈ s.states accel ops, s'.SavesOkOrFail accel) : ∀ s' ∈ s.states accel ops, s'.IndexTrue accel := by
  induction ops generalizing s with
  | nil => exact fun s' hs' => List.mem_singleton.mp hs' ▸ h.indexTrue (ho s (.head _))
  | cons op ops hi =>
    intro s' hs'
    have ht := h.indexTrue (ho s (.head _))
    rcases List.mem_cons.mp hs' with rfl | hs'
    case inl => exact ht
    case inr => exact hi (h.step V2State.seals_states ht.stored op) (fun s hs => ho s (.tail _ hs)) s' hs'

-- The index is true in every session of a run if and only if no session would save an open bucket with a
-- run that is neither OK nor failed.
theorem indexTrue_iff (accel : Bool) (ops : List V2Op) :
    (∀ s ∈ ({} : V2Session).states accel ops, s.IndexTrue accel) ↔
    ∀ s ∈ ({} : V2Session).states accel ops, s.SavesOkOrFail accel := by
  constructor
  case mp =>
    intro h s hs st m hst hm
    have hd := described_states described_init s hs
    exact V2State.okOrFail_of_getV2Members (hd.state st hst) hm ((h s hs).stored st m hst hm)
  case mpr => exact indexTrue_states described_init

def afterError : V2Session :=
  ({} : V2Session).step false (.addTestRun { name := "t", status := 2, ts := 0 })

-- A run that ends with an error is not counted in the open bucket.
theorem error_not_counted : ¬∀ s ∈ ({} : V2Session).states false [.addTestRun { name := "t", status := 2, ts := 0 }],
    s.IndexTrue false := by
  intro h
  have hmem : afterError ∈ ({} : V2Session).states false [.addTestRun { name := "t", status := 2, ts := 0 }] :=
    .tail _ (.head _)
  have hd := described_states described_init afterError hmem
  have ⟨st, hst⟩ := Option.isSome_iff_exists.mp (show afterError.db.state.isSome by decide +kernel)
  have hsome : (afterError.db.state.bind (·.getV2Members false)).isSome := by decide +kernel
  have hbad : afterError.db.state.any fun st => st.current.records.any fun r => r.status = 2 := by decide +kernel
  rw [hst] at hsome hbad
  have ⟨m, hm⟩ := Option.isSome_iff_exists.mp hsome
  have ho := V2State.okOrFail_of_getV2Members (hd.state st hst) hm ((h _ hmem).stored st m hst hm)
  have ⟨r, hr, hs⟩ := List.any_eq_true.mp hbad
  have hs : r.status = 2 := by simpa using hs
  have hr := ho r hr
  rw [hs] at hr
  exact absurd hr (by decide)

end V2Session
