import Covsight.Lib.Blocks
import Covsight.Ncdb.NcdbUCIS
import Covsight.Ncdb.Theorems.HistoryBuckets

-- A run as a caller knows it: by its name and its seed, not by their ids.
structure RecordedRun where
  name   : String
  seed   : String
  ts     : Int
  status : Nat
  flags  : Nat
  deriving DecidableEq, Repr

def TestRun.recorded (run : TestRun) : RecordedRun where
  name   := run.name
  seed   := run.seed
  ts     := run.ts
  status := run.status
  flags  := run.flags

-- What a query asks for.
def RecordedRun.matches (name : String) (tsFrom tsTo : Option Int) (run : RecordedRun) : Bool :=
  run.name = name ∧ V2State.inRange tsFrom tsTo run.ts

namespace TestRegistry

variable {reg : TestRegistry} {r : BucketRecord} {run : RecordedRun}

-- The run that a record describes.
def recorded (reg : TestRegistry) (r : BucketRecord) : Option RecordedRun := do
  let name ← reg.names.strings[r.nameId]?
  let seed ← reg.seeds.strings[r.seedId]?
  return { name := name, seed := seed, ts := r.ts, status := r.status, flags := r.flags }

theorem recorded_eq_some_iff : reg.recorded r = some run ↔
    reg.names.strings[r.nameId]? = some run.name ∧ reg.seeds.strings[r.seedId]? = some run.seed ∧
    r.ts = run.ts ∧ r.status = run.status ∧ r.flags = run.flags := by
  cases run
  simp [recorded, Option.bind_eq_some_iff]

-- A registry that keeps all ids of another one describes its records the same way.
def Extends (reg' reg : TestRegistry) : Prop :=
  (∀ (i : Nat) x, reg.names.strings[i]? = some x → reg'.names.strings[i]? = some x) ∧
  ∀ (i : Nat) x, reg.seeds.strings[i]? = some x → reg'.seeds.strings[i]? = some x

theorem Extends.recorded {reg' : TestRegistry} (h : reg'.Extends reg)
    (hr : reg.recorded r = some run) : reg'.recorded r = some run := by
  rw [recorded_eq_some_iff] at hr ⊢
  exact ⟨h.1 _ _ hr.1, h.2 _ _ hr.2.1, hr.2.2⟩

end TestRegistry

-- The entry of a bucket bounds its records.
def BucketIndexEntry.Covers (e : BucketIndexEntry) (rs : List BucketRecord) : Prop :=
  ∀ r ∈ rs, (e.minNameId ≤ r.nameId ∧ r.nameId ≤ e.maxNameId) ∧ e.tsStart ≤ r.ts ∧ r.ts ≤ e.tsEnd

theorem min?_getD_le {α : Type*} [LinearOrder α] {xs : List α} {x : α} (hx : x ∈ xs) (d : α) :
    xs.min?.getD d ≤ x := by
  cases hm : xs.min?
  case none   => exact absurd (List.min?_eq_none_iff.mp hm) (List.ne_nil_of_mem hx)
  case some m => exact (List.min?_eq_some_iff.mp hm).2 x hx

theorem le_max?_getD {α : Type*} [LinearOrder α] {xs : List α} {x : α} (hx : x ∈ xs) (d : α) :
    x ≤ xs.max?.getD d := by
  cases hm : xs.max?
  case none   => exact absurd (List.max?_eq_none_iff.mp hm) (List.ne_nil_of_mem hx)
  case some m => exact (List.max?_eq_some_iff.mp hm).2 x hx

theorem bucketEntry_covers (seq : Nat) (recs : List BucketRecord) (failed : BucketRecord → Bool) :
    (bucketEntry seq recs failed).Covers recs := by
  intro r hr
  have hn : r.nameId ∈ recs.map (·.nameId) := List.mem_map_of_mem hr
  have ht : r.ts ∈ recs.map (·.ts) := List.mem_map_of_mem hr
  exact ⟨⟨min?_getD_le hn 0, le_max?_getD hn 0⟩, min?_getD_le ht 0, le_max?_getD ht 0⟩

namespace BucketIndexEntry

variable {e : BucketIndexEntry} {rs rs' : List BucketRecord}

theorem Covers.of_subset (h : e.Covers rs) (hs : rs' ⊆ rs) : e.Covers rs' :=
  fun r hr => h r (hs hr)

-- A bucket that is passed over holds no record of the name in the range.
theorem Covers.mayHold (h : e.Covers rs) {r : BucketRecord} (hr : r ∈ rs) {tsFrom tsTo : Option Int}
    (ht : V2State.inRange tsFrom tsTo r.ts) : e.mayHold r.nameId tsFrom tsTo := by
  have ⟨hn, hs, he⟩ := h r hr
  simp only [V2State.inRange, decide_eq_true_eq] at ht
  simp only [BucketIndexEntry.mayHold, decide_eq_true_eq]
  refine ⟨hn.1, hn.2, ?_, ?_⟩
  · cases tsFrom
    case none   => rfl
    case some t =>
      have ht := ht.1
      simp only [Option.all_some, decide_eq_true_eq] at ht ⊢
      omega
  · cases tsTo
    case none   => rfl
    case some t =>
      have ht := ht.2
      simp only [Option.all_some, decide_eq_true_eq] at ht ⊢
      omega

end BucketIndexEntry

-- An index entry of a bucket.
structure BucketFile.Indexed (e : BucketIndexEntry) (b : Nat × BucketFile) : Prop where
  seq     : e.bucketSeq = b.1
  written : b.2.Written

namespace V2State

variable {accel : Bool} {s s' : V2State} {log : List RecordedRun} {run : TestRun}

-- All records of the history, sealed or not.
def records (s : V2State) : List BucketRecord :=
  s.sealedBuckets.entries.flatMap (·.2.records) ++ s.current.records

-- The history holds exactly the runs of a log.
structure Stores (s : V2State) (log : List RecordedRun) : Prop where
  names   : s.registry.names.strings.Nodup
  seeds   : s.registry.seeds.strings.Nodup
  nulFree : s.registry.NulFree
  sorted  : s.bucketIndex.entries.Pairwise (·.bucketSeq < ·.bucketSeq)
  indexed : List.Forall₂ BucketFile.Indexed s.bucketIndex.entries s.sealedBuckets.entries
  current : s.current.Bounded
  records : (s.records.map s.registry.recorded).Perm (log.map some)

-- Every index entry bounds the records of its bucket.
def Truthful (s : V2State) : Prop :=
  List.Forall₂ (fun e b => e.Covers b.2.records) s.bucketIndex.entries s.sealedBuckets.entries

-- The open bucket can be encoded.
def Encodable (s : V2State) : Prop :=
  s.current.records ≠ [] → BucketWriter.Anchored s.current.records

theorem addTestRun_of_not_added (h : s.current.add (s.recordOf run) = none) :
    s.addTestRun accel run = (s.register run, none) := by
  have h : (s.register run).current.add (s.recordOf run) = none := h
  simp only [addTestRun, h]

theorem addTestRun_of_sealed {current : BucketWriter}
    (h : s.current.add (s.recordOf run) = some current)
    (he : { s.register run with current := current }.sealIfFull accel = some s') :
    s.addTestRun accel run
      = (s'.indexRun s.registry.nextRunId (s.recordOf run).nameId run,
          some s.registry.nextRunId) := by
  have h : (s.register run).current.add (s.recordOf run) = some current := h
  simp only [addTestRun, h, he]

-- What a run and the state before it must satisfy for the run to be kept.
structure Accepts (s : V2State) (run : TestRun) : Prop where
  nulFree  : '\x00' ∉ run.name.toList ∧ '\x00' ∉ run.seed.toList
  ids      : (s.recordOf run).nameId < 2 ^ 32 ∧ (s.recordOf run).seedId < 2 ^ 32
  status   : run.status < 16
  ts       : run.ts < 2 ^ 64
  anchored : BucketWriter.Anchored (s.current.records ++ [s.recordOf run])

namespace Stores

theorem empty : Stores {} [] where
  names   := List.nodup_nil
  seeds   := List.nodup_nil
  nulFree := ⟨nofun, nofun⟩
  sorted  := .nil
  indexed := .nil
  current := .empty
  records := .nil

theorem exists_recorded (h : s.Stores log) {r : BucketRecord} (hr : r ∈ s.records) :
    ∃ run, s.registry.recorded r = some run := by
  have hm := h.records.subset (List.mem_map_of_mem hr)
  have ⟨run, _, hr⟩ := List.mem_map.mp hm
  exact ⟨run, hr.symm⟩

theorem recordsIn_eq {file : BucketFile} {nameId : Nat}
    (h : file.recordsForName nameId = file.records.filter (·.nameId = nameId))
    (tsFrom tsTo : Option Int) : recordsIn file nameId tsFrom tsTo
      = file.records.filter fun r => r.nameId = nameId ∧ inRange tsFrom tsTo r.ts := by
  rw [recordsIn, h, List.filter_filter]
  refine List.filter_congr fun r _ => ?_
  simp [Bool.and_comm]

theorem storedRecords_eq {e : BucketIndexEntry} {b : Nat × BucketFile}
    (hb : b ∈ s.sealedBuckets.entries) (he : BucketFile.Indexed e b) (nameId : Nat)
    (tsFrom tsTo : Option Int) : s.storedRecords nameId tsFrom tsTo e
      = b.2.records.filter fun r => r.nameId = nameId ∧ inRange tsFrom tsTo r.ts := by
  rw [storedRecords, he.seq, Dict.get?_eq_some_iff.mpr hb]
  exact recordsIn_eq (he.written.forName nameId) tsFrom tsTo

-- An index entry reads the records of its bucket.
theorem read_eq (h : s.Stores log) (nameId : Nat) (tsFrom tsTo : Option Int) :
    List.Forall₂ (fun e b => s.storedRecords nameId tsFrom tsTo e
      = b.2.records.filter fun r => r.nameId = nameId ∧ inRange tsFrom tsTo r.ts)
      s.bucketIndex.entries s.sealedBuckets.entries :=
  List.forall₂_iff_zip.mpr ⟨h.indexed.length_eq, fun hm =>
    storedRecords_eq (List.of_mem_zip hm).2 (List.forall₂_zip h.indexed hm) nameId tsFrom tsTo⟩

theorem unsavedRecords_perm (h : s.Stores log) (ho : s.Encodable) (accel : Bool) (nameId : Nat)
    (tsFrom tsTo : Option Int) : (s.unsavedRecords accel nameId tsFrom tsTo).Perm
      (s.current.records.filter fun r => r.nameId = nameId ∧ inRange tsFrom tsTo r.ts) := by
  have ⟨file, he⟩ := (h.current.encode_iff accel).mpr ho
  have hw : file.Written := ⟨accel, _, h.current, he⟩
  simp only [unsavedRecords, he, recordsIn_eq (hw.forName nameId)]
  split
  case isTrue hc  => simp [List.isEmpty_iff.mp hc]
  case isFalse hc => exact (h.current.records_encode he).filter _

-- The records of a name in a range are those of the runs that are asked for.
theorem filter_records (h : s.Stores log) {name : String} {nameId : Nat}
    (hn : s.registry.names.idOf name = some nameId) (tsFrom tsTo : Option Int) :
    ((s.records.filter fun r => r.nameId = nameId ∧ inRange tsFrom tsTo r.ts).map
      s.registry.recorded).Perm ((log.filter (·.matches name tsFrom tsTo)).map some) := by
  have hm : ∀ r ∈ s.records, (s.registry.recorded r).any (·.matches name tsFrom tsTo)
      = decide (r.nameId = nameId ∧ inRange tsFrom tsTo r.ts) := by
    intro r hr
    have ⟨run, he⟩ := h.exists_recorded hr
    have ⟨hrn, _, ht, _⟩ := TestRegistry.recorded_eq_some_iff.mp he
    have hs := (StringIds.idOf_eq_some_iff h.names).mp hn
    have hiff : r.nameId = nameId ↔ run.name = name := by
      constructor
      case mp => intro hi; rw [hi, hs] at hrn; exact (Option.some.inj hrn).symm
      case mpr =>
        intro hi
        have hl := (List.getElem?_eq_some_iff.mp hrn).1
        exact (List.getElem?_inj hl h.names).mp (by rw [hrn, hs, hi])
    rw [he, Option.any_some, RecordedRun.matches, ht, decide_eq_decide, hiff]
  have hf := h.records.filter (Option.any (·.matches name tsFrom tsTo))
  rw [List.filter_map, List.filter_map] at hf
  exact .trans (.of_eq <| congrArg _ <| List.filter_congr fun r hr => (hm r hr).symm) hf

-- A query returns the runs of the log that it asks for.
theorem query (h : s.Stores log) (ht : s.Truthful) (ho : s.Encodable) (accel : Bool)
    (name : String) (tsFrom tsTo : Option Int) :
    ((s.queryTestHistory accel name tsFrom tsTo).map s.registry.recorded).Perm
      ((log.filter (·.matches name tsFrom tsTo)).map some) := by
  cases hn : s.registry.names.idOf name
  case none =>
    have hf : log.filter (·.matches name tsFrom tsTo) = [] := by
      refine List.filter_eq_nil_iff.mpr fun run hm hc => ?_
      have hm := h.records.symm.subset (List.mem_map_of_mem hm)
      have ⟨r, _, he⟩ := List.mem_map.mp hm
      have hs := List.mem_of_getElem? (TestRegistry.recorded_eq_some_iff.mp he).1
      exact StringIds.idOf_eq_none_iff.mp hn ((of_decide_eq_true hc).1 ▸ hs)
    simp [queryTestHistory, hn, hf]
  case some nameId =>
    refine .trans (.map _ ?_) (h.filter_records hn tsFrom tsTo)
    simp only [queryTestHistory, hn, V2State.records, List.filter_append]
    refine .append (.of_eq ?_) (h.unsavedRecords_perm ho accel nameId tsFrom tsTo)
    rw [BucketIndex.bucketsForName, List.filter_flatMap]
    exact Pruning.eq_of_kept (h.read_eq nameId tsFrom tsTo) <| ht.imp fun e b hc hk =>
      List.filter_eq_nil_iff.mpr fun r hr hp => by
        have ⟨hi, ht⟩ := of_decide_eq_true hp
        exact absurd (hi ▸ hc.mayHold hr ht) (by simp [hk])

theorem unsavedRecords_length_le (h : s.Stores log) (accel : Bool) (nameId : Nat)
    (tsFrom tsTo : Option Int) : (s.unsavedRecords accel nameId tsFrom tsTo).length
      ≤ (s.current.records.filter fun r => r.nameId = nameId ∧ inRange tsFrom tsTo r.ts).length := by
  by_cases ho : s.Encodable
  case pos => exact Nat.le_of_eq (h.unsavedRecords_perm ho accel nameId tsFrom tsTo).length_eq
  case neg =>
    have hn : s.current.encode accel = none := by
      cases he : s.current.encode accel
      case none      => rfl
      case some file => exact absurd ((h.current.encode_iff accel).mp ⟨file, he⟩) ho
    simp [unsavedRecords, hn]

-- Neither the stored nor the unsaved part of a complete query misses a record.
theorem length_of_query (h : s.Stores log) {accel : Bool} {name : String} {nameId : Nat}
    {tsFrom tsTo : Option Int} (hn : s.registry.names.idOf name = some nameId)
    (hq : ((s.queryTestHistory accel name tsFrom tsTo).map s.registry.recorded).Perm
      ((log.filter (·.matches name tsFrom tsTo)).map some)) :
    ((s.bucketIndex.entries.filter (·.mayHold nameId tsFrom tsTo)).flatMap
        (s.storedRecords nameId tsFrom tsTo)).length
      = (s.sealedBuckets.entries.flatMap fun b =>
          b.2.records.filter fun r => r.nameId = nameId ∧ inRange tsFrom tsTo r.ts).length ∧
    (s.unsavedRecords accel nameId tsFrom tsTo).length
      = (s.current.records.filter fun r => r.nameId = nameId ∧ inRange tsFrom tsTo r.ts).length := by
  have hl := (hq.trans (h.filter_records hn tsFrom tsTo).symm).length_eq
  have hs := Pruning.length_le (·.mayHold nameId tsFrom tsTo) (h.read_eq nameId tsFrom tsTo)
  have hu := h.unsavedRecords_length_le accel nameId tsFrom tsTo
  simp only [List.length_map, queryTestHistory, hn, V2State.records, List.filter_append,
    List.length_append, List.filter_flatMap, BucketIndex.bucketsForName] at hl
  omega

-- Conversely, complete queries need a truthful index and an open bucket that can be encoded.
theorem truthful_of_query (h : s.Stores log) (accel : Bool)
    (hq : ∀ name tsFrom tsTo, ((s.queryTestHistory accel name tsFrom tsTo).map
      s.registry.recorded).Perm ((log.filter (·.matches name tsFrom tsTo)).map some)) :
    s.Truthful ∧ s.Encodable := by
  -- Asking for the name and the time of a record.
  have hl : ∀ r ∈ s.records, ∃ name, s.registry.names.idOf name = some r.nameId := by
    intro r hr
    have ⟨run, he⟩ := h.exists_recorded hr
    exact ⟨run.name, (StringIds.idOf_eq_some_iff h.names).mpr
      (TestRegistry.recorded_eq_some_iff.mp he).1⟩
  have hself : ∀ {rs : List BucketRecord} {r}, r ∈ rs →
      r ∈ rs.filter fun r' => r'.nameId = r.nameId ∧ inRange (some r.ts) (some r.ts) r'.ts :=
    fun hr => List.mem_filter.mpr ⟨hr, by simp [inRange]⟩
  constructor
  case left =>
    refine List.forall₂_iff_zip.mpr ⟨h.indexed.length_eq, fun {e b} hm r hr => ?_⟩
    have hb : r ∈ s.sealedBuckets.entries.flatMap (·.2.records) :=
      List.mem_flatMap.mpr ⟨b, (List.of_mem_zip hm).2, hr⟩
    have ⟨name, hn⟩ := hl r <| List.mem_append_left _ hb
    have hk := Pruning.kept_of_length_eq (h.read_eq r.nameId (some r.ts) (some r.ts))
      (h.length_of_query hn <| hq name (some r.ts) (some r.ts)).1
    have hk := List.forall₂_zip hk hm
    cases hk' : e.mayHold r.nameId (some r.ts) (some r.ts)
    case false => exact absurd (hk hk') (List.ne_nil_of_mem (hself hr))
    case true =>
      simp only [BucketIndexEntry.mayHold, Option.all_some, decide_eq_true_eq] at hk'
      exact ⟨⟨hk'.1, hk'.2.1⟩, hk'.2.2.2, hk'.2.2.1⟩
  case right =>
    intro hne
    refine (h.current.encode_iff accel).mp ?_ hne
    have ⟨r, hr⟩ := List.exists_mem_of_ne_nil _ hne
    have ⟨name, hn⟩ := hl r <| List.mem_append_right _ hr
    have hu := (h.length_of_query hn <| hq name (some r.ts) (some r.ts)).2
    cases he : s.current.encode accel
    case some file => exact ⟨file, rfl⟩
    case none =>
      have hpos := List.length_pos_of_mem (hself hr)
      simp only [unsavedRecords, he, ite_self, List.length_nil] at hu
      omega

-- Only the registry, the index and the buckets matter, and the registry may grow.
theorem of_extends (h : s.Stores log) (hr : s'.registry.Extends s.registry)
    (hn : s'.registry.names.strings.Nodup ∧ s'.registry.seeds.strings.Nodup)
    (hz : s'.registry.NulFree) (hi : s'.bucketIndex = s.bucketIndex)
    (hb : s'.sealedBuckets = s.sealedBuckets) (hc : s'.current = s.current) : s'.Stores log where
  names   := hn.1
  seeds   := hn.2
  nulFree := hz
  sorted  := hi ▸ h.sorted
  indexed := hi ▸ hb ▸ h.indexed
  current := hc ▸ h.current
  records := by
    have he : s'.records.map s'.registry.recorded = s.records.map s.registry.recorded := by
      rw [V2State.records, hb, hc]
      refine List.map_congr_left fun r hm => ?_
      have ⟨run, hs⟩ := h.exists_recorded hm
      rw [hs, hr.recorded hs]
    exact he ▸ h.records

theorem register (h : s.Stores log)
    (hz : '\x00' ∉ run.name.toList ∧ '\x00' ∉ run.seed.toList) :
    (s.register run).Stores log ∧
    (s.register run).registry.recorded (s.recordOf run) = some run.recorded := by
  have ⟨hn, hni, hnk, hnm⟩ := StringIds.lookupId_spec h.names run.name
  have ⟨hs, hsi, hsk, hsm⟩ := StringIds.lookupId_spec h.seeds run.seed
  refine ⟨h.of_extends ⟨hnk, hsk⟩ ⟨hn, hs⟩ ⟨fun x hx => ?_, fun x hx => ?_⟩ rfl rfl rfl, ?_⟩
  · cases hnm x hx
    case inl hx => exact h.nulFree.1 x hx
    case inr hx => exact hx ▸ hz.1
  · cases hsm x hx
    case inl hx => exact h.nulFree.2 x hx
    case inr hx => exact hx ▸ hz.2
  · exact TestRegistry.recorded_eq_some_iff.mpr ⟨hni, hsi, rfl, rfl, rfl⟩

theorem add (h : s.Stores log) {r : BucketRecord} {current : BucketWriter} {run : RecordedRun}
    (ha : s.current.add r = some current) (hc : current.Bounded)
    (hr : s.registry.recorded r = some run) :
    { s with current := current }.Stores (log ++ [run]) := by
  refine { h with current := hc, records := ?_ }
  have hs : { s with current := current }.records = s.records ++ [r] := by
    simp only [V2State.records, (BucketWriter.add_spec ha h.current.numbered).1, List.append_assoc]
  rw [hs, List.map_append, List.map_append, List.map_singleton, hr]
  exact h.records.append_right _

theorem keys_eq (h : s.Stores log) :
    s.sealedBuckets.keys = s.bucketIndex.entries.map (·.bucketSeq) := by
  have hs : List.Forall₂ Eq (s.bucketIndex.entries.map (·.bucketSeq)) s.sealedBuckets.keys := by
    rw [Dict.keys, List.forall₂_map_left_iff, List.forall₂_map_right_iff]
    exact h.indexed.imp fun _ _ hi => hi.seq
  rw [List.forall₂_eq_eq_eq] at hs
  exact hs.symm

-- A bucket stored under the next sequence number goes to the end, as its index entry does.
theorem store_entries (h : s.Stores log) {entry : BucketIndexEntry}
    (he : entry.bucketSeq = s.bucketIndex.nextSeq) (file : BucketFile) :
    (s.bucketIndex.addBucket entry).entries = s.bucketIndex.entries ++ [entry] ∧
    (∀ e ∈ s.bucketIndex.entries, e.bucketSeq < entry.bucketSeq) ∧
    (s.sealedBuckets.set s.bucketIndex.nextSeq file).entries
      = s.sealedBuckets.entries ++ [(s.bucketIndex.nextSeq, file)] := by
  have ⟨ha, hlt⟩ := BucketIndex.addBucket_nextSeq h.sorted he
  have hk : s.bucketIndex.nextSeq ∉ s.sealedBuckets := by
    rw [Dict.mem_def, h.keys_eq]
    intro hm
    have ⟨e, hm, hs⟩ := List.mem_map.mp hm
    exact Nat.ne_of_lt (hlt e hm) (hs.trans he.symm)
  exact ⟨ha, hlt, Dict.entries_set_of_not_mem hk file⟩

-- Storing records in a new bucket, be it those of the open one or others.
theorem store (h : s.Stores log) {entry : BucketIndexEntry} {file : BucketFile}
    {current : BucketWriter} {log' : List RecordedRun}
    (he : entry.bucketSeq = s.bucketIndex.nextSeq) (hw : file.Written) (hc : current.Bounded)
    (hl : ((s.sealedBuckets.entries.flatMap (·.2.records) ++ file.records ++ current.records).map
      s.registry.recorded).Perm (log'.map some)) :
    { s with
      sealedBuckets := s.sealedBuckets.set s.bucketIndex.nextSeq file
      bucketIndex   := s.bucketIndex.addBucket entry
      current       := current
    }.Stores log' := by
  have ⟨ha, hlt, hb⟩ := h.store_entries he file
  refine { h with sorted := ?_, indexed := ?_, current := hc, records := ?_ }
  · rw [ha]
    exact List.pairwise_append.mpr ⟨h.sorted, List.pairwise_singleton .., by simpa using hlt⟩
  · rw [ha, hb]
    exact List.rel_append h.indexed <| .cons ⟨he, hw⟩ .nil
  · simp only [V2State.records, hb, List.flatMap_append, List.flatMap_singleton]
    exact hl

theorem store_truthful (h : s.Stores log) {entry : BucketIndexEntry}
    (he : entry.bucketSeq = s.bucketIndex.nextSeq) (file : BucketFile) (current : BucketWriter) :
    { s with
      sealedBuckets := s.sealedBuckets.set s.bucketIndex.nextSeq file
      bucketIndex   := s.bucketIndex.addBucket entry
      current       := current
    }.Truthful ↔ s.Truthful ∧ entry.Covers file.records := by
  have ⟨ha, _, hb⟩ := h.store_entries he file
  rw [Truthful, ha, hb]
  constructor
  case mp =>
    intro ht
    have ht' := List.forall₂_take_append _ _ _ ht
    have hd' := List.forall₂_drop_append _ _ _ ht
    rw [← h.indexed.length_eq] at ht' hd'
    rw [List.take_left] at ht'
    rw [List.drop_left] at hd'
    exact ⟨ht', (List.forall₂_cons.mp hd').1⟩
  case mpr => exact fun ⟨ht, hc⟩ => List.rel_append ht <| .cons hc .nil

end Stores

-- A history that answers all queries and can take on further runs.
structure Sound (s : V2State) (log : List RecordedRun) : Prop extends s.Stores log where
  truthful  : s.Truthful
  encodable : s.Encodable

namespace Sound

theorem empty : Sound {} [] :=
  { Stores.empty with truthful := .nil, encodable := nofun }

-- Storing the open bucket.
theorem store (h : s.Sound log) {entry : BucketIndexEntry} {file : BucketFile}
    (he : entry.bucketSeq = s.bucketIndex.nextSeq) (hf : s.current.encode accel = some file)
    (hc : entry.Covers s.current.records) :
    { s with
      sealedBuckets := s.sealedBuckets.set s.bucketIndex.nextSeq file
      bucketIndex   := s.bucketIndex.addBucket entry
      current       := {}
    }.Sound log := by
  have hp := h.current.records_encode hf
  have hw : file.Written := ⟨accel, _, h.current, hf⟩
  refine {
    h.toStores.store he hw .empty (.trans ?_ h.records) with
    truthful  := (h.store_truthful he file {}).mpr ⟨h.truthful, hc.of_subset hp.subset⟩
    encodable := nofun
  }
  rw [List.append_nil]
  exact (hp.append_left _).map _

theorem sealCurrentBucket (h : s.Sound log) (accel : Bool) :
    ∃ s', s.sealCurrentBucket accel = some s' ∧ s'.Sound log ∧ s'.current.records = [] := by
  rw [V2State.sealCurrentBucket]
  split
  case isTrue he => exact ⟨s, rfl, h, List.isEmpty_iff.mp he⟩
  case isFalse =>
    have ⟨file, he⟩ := (h.current.encode_iff accel).mpr h.encodable
    have hp := h.current.records_encode he
    have hc := (bucketEntry_covers s.bucketIndex.nextSeq file.records (·.status ≠ 0)).of_subset
      hp.symm.subset
    exact ⟨_, by rw [he]; rfl, h.store rfl he hc, rfl⟩

theorem bucketMembers (h : s.Sound log) {buckets : Dict Nat BucketFile} {index : BucketIndex}
    (hm : s.bucketMembers accel = some (buckets, index)) :
    { s with sealedBuckets := buckets, bucketIndex := index, current := {} }.Sound log := by
  rw [V2State.bucketMembers] at hm
  split at hm
  case isTrue he =>
    cases hm
    have he := List.isEmpty_iff.mp he
    refine { h with current := .empty, encodable := nofun, records := ?_ }
    simpa only [V2State.records, he, List.append_nil] using h.records
  case isFalse =>
    have ⟨file, he⟩ := (h.current.encode_iff accel).mpr h.encodable
    have hs := h.store rfl he <|
      bucketEntry_covers s.bucketIndex.nextSeq s.current.records (·.status = histStatusFail)
    rw [he, BucketIndex.serialize] at hm
    split at hm <;> cases hm
    exact hs

-- What is saved is loaded again.
theorem load_getV2Members (h : s.Sound log) {m : V2Members}
    (hm : s.getV2Members accel = some m) :
    ∃ s', V2State.load m = some s' ∧ s'.Sound log ∧ s'.current = {} := by
  simp only [getV2Members, Option.bind_eq_bind, Option.bind_eq_some_iff] at hm
  obtain ⟨file, hr, stats, _, contribIndex, _, squashLog, _, ⟨buckets, index⟩, hb, index', hi, hm⟩ := hm
  have hi : index' = index := by
    rw [BucketIndex.serialize] at hi
    split at hi <;> cases hi
    rfl
  cases hm
  refine ⟨_, by simp only [V2State.load, readRegistry, TestRegistry.deserialize_serialize h.nulFree hr]; rfl, ?_, rfl⟩
  have hs := h.bucketMembers hb
  subst hi
  exact { hs with }

theorem sealIfFull (h : s.Sound log) (accel : Bool) : ∃ s', s.sealIfFull accel = some s' ∧
    s'.Sound log ∧ s'.current.records.length < historyBucketMaxRecords := by
  rw [V2State.sealIfFull]
  split
  case isTrue =>
    have ⟨s', he, hs', hn⟩ := h.sealCurrentBucket accel
    exact ⟨s', he, hs', hn ▸ by decide⟩
  case isFalse hn => exact ⟨s, rfl, h, Nat.lt_of_not_le fun hc => hn <| decide_eq_true hc⟩

theorem indexRun (h : s.Sound log) (runId nameId : Nat) (run : TestRun) :
    (s.indexRun runId nameId run).Sound log ∧ (s.indexRun runId nameId run).current = s.current := by
  rw [V2State.indexRun]
  split
  case isTrue  => exact ⟨{ h with }, rfl⟩
  case isFalse => exact ⟨h, rfl⟩

theorem addTestRun (h : s.Sound log) (hl : s.current.records.length < historyBucketMaxRecords)
    (hr : s.Accepts run) (accel : Bool) :
    (s.addTestRun accel run).fst.Sound
      (if (s.addTestRun accel run).snd.isSome then log ++ [run.recorded] else log) ∧
    (s.addTestRun accel run).fst.current.records.length < historyBucketMaxRecords := by
  have ⟨hs, hrec⟩ := h.register hr.nulFree
  cases ha : s.current.add (s.recordOf run)
  case none =>
    rw [addTestRun_of_not_added ha]
    exact ⟨{ hs with truthful := h.truthful, encodable := h.encodable }, hl⟩
  case some current =>
    have hf : run.flags < 16 := by
      unfold TestRun.flags
      split <;> split <;> decide
    have hc := h.current.add ha hl ⟨hr.ids.1, hr.ts, hr.status, hf⟩ hr.ids.2
    have he := (BucketWriter.add_spec ha h.current.numbered).1
    have hs : { s.register run with current := current }.Sound (log ++ [run.recorded]) :=
      { hs.add ha hc hrec with
        truthful  := h.truthful
        encodable := fun _ => by rw [he]; exact hr.anchored }
    have ⟨s', he, hs', hl'⟩ := hs.sealIfFull accel
    have ⟨hi, hc'⟩ := hs'.indexRun s.registry.nextRunId (s.recordOf run).nameId run
    rw [addTestRun_of_sealed ha he]
    exact ⟨hi, hc' ▸ hl'⟩

end Sound

end V2State
