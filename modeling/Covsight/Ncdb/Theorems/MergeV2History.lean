import Covsight.Ncdb.MergeV2History
import Covsight.Ncdb.Theorems.NcdbUCIS

namespace StringIds

variable {ids merged : StringIds} {x : String} {i : Nat}

theorem lookupAll_spec (ids : StringIds) (hn : ids.strings.Nodup) (xs : List String) :
    (ids.lookupAll xs).strings.Nodup ∧
    (∀ x ∈ ids.strings, x ∈ (ids.lookupAll xs).strings) ∧
    (∀ x ∈ xs, x ∈ (ids.lookupAll xs).strings) ∧
    ∀ x ∈ (ids.lookupAll xs).strings, x ∈ ids.strings ∨ x ∈ xs := by
  induction xs generalizing ids
  case nil => exact ⟨hn, fun _ hx => hx, nofun, fun _ hx => .inl hx⟩
  case cons x xs hi =>
    have ⟨hn', hx, hk, hm⟩ := lookupId_spec hn x
    have ⟨hl, hl₁, hl₂, hl₃⟩ := hi _ hn'
    have hold : ∀ y ∈ ids.strings, y ∈ (ids.lookupId x).snd.strings := by
      intro y hy
      have ⟨i, hi⟩ := List.mem_iff_getElem?.mp hy
      exact List.mem_of_getElem? (hk i y hi)
    refine ⟨hl, fun y hy => hl₁ y (hold y hy), fun y hy => ?_, fun y hy => ?_⟩
    · cases hy
      case head    => exact hl₁ x (List.mem_of_getElem? hx)
      case tail hy => exact hl₂ y hy
    · cases hl₃ y hy
      case inr hy => exact .inr (.tail _ hy)
      case inl hy =>
        cases hm y hy
        case inl hy => exact .inl hy
        case inr hy => exact .inr (hy ▸ .head _)

-- A renumbered string is the same string.
theorem remap_spec (hn : merged.strings.Nodup) (hm : x ∈ merged.strings)
    (hx : ids.strings[i]? = some x) : merged.strings[merged.remap ids i]? = some x := by
  have ⟨j, hj⟩ := List.mem_iff_getElem?.mp hm
  have ho := (idOf_eq_some_iff hn).mpr hj
  simp only [remap, hx, ho, Option.getD_some]
  exact hj

theorem remap_lt {bound : Nat} (hn : merged.strings.Nodup) (hb : merged.strings.length ≤ bound)
    (hi : i < bound) : merged.remap ids i < bound := by
  rw [remap]
  split
  case h_1 => exact hi
  case h_2 x _ =>
    cases ho : merged.idOf x
    case none => exact hi
    case some j =>
      have hj := (List.getElem?_eq_some_iff.mp <| (idOf_eq_some_iff hn).mp ho).1
      exact Nat.lt_of_lt_of_le hj hb

end StringIds

namespace TestRegistry

variable {merged reg : TestRegistry} {r : BucketRecord} {run : RecordedRun}

-- A registry that numbers all names and seeds of another one.
structure Includes (merged reg : TestRegistry) : Prop where
  nodup : merged.names.strings.Nodup ∧ merged.seeds.strings.Nodup
  names : ∀ x ∈ reg.names.strings, x ∈ merged.names.strings
  seeds : ∀ x ∈ reg.seeds.strings, x ∈ merged.seeds.strings

-- A renumbered record describes the same run.
theorem Includes.recorded (h : merged.Includes reg) (hr : reg.recorded r = some run) :
    merged.recorded (merged.remapRecord reg r) = some run := by
  have ⟨hn, hs, hr⟩ := recorded_eq_some_iff.mp hr
  have hn := StringIds.remap_spec h.nodup.1 (h.names _ <| List.mem_of_getElem? hn) hn
  have hs := StringIds.remap_spec h.nodup.2 (h.seeds _ <| List.mem_of_getElem? hs) hs
  exact recorded_eq_some_iff.mpr ⟨hn, hs, hr⟩

theorem mergeRegistries_includes {regs : List TestRegistry} (hm : reg ∈ regs) :
    (mergeRegistries regs).Includes reg := by
  have ⟨hn, _, hnm, _⟩ := StringIds.lookupAll_spec {} .nil (regs.flatMap (·.names.strings))
  have ⟨hs, _, hsm, _⟩ := StringIds.lookupAll_spec {} .nil (regs.flatMap (·.seeds.strings))
  exact ⟨⟨hn, hs⟩, fun x hx => hnm x <| List.mem_flatMap.mpr ⟨reg, hm, hx⟩,
    fun x hx => hsm x <| List.mem_flatMap.mpr ⟨reg, hm, hx⟩⟩

theorem mergeRegistries_nulFree {regs : List TestRegistry} (h : ∀ reg ∈ regs, reg.NulFree) :
    (mergeRegistries regs).NulFree := by
  have ⟨_, _, _, hn⟩ := StringIds.lookupAll_spec {} .nil (regs.flatMap (·.names.strings))
  have ⟨_, _, _, hs⟩ := StringIds.lookupAll_spec {} .nil (regs.flatMap (·.seeds.strings))
  constructor
  case left =>
    intro x hx
    have ⟨reg, hm, hx⟩ := List.mem_flatMap.mp <| (hn x hx).resolve_left List.not_mem_nil
    exact (h reg hm).1 x hx
  case right =>
    intro x hx
    have ⟨reg, hm, hx⟩ := List.mem_flatMap.mp <| (hs x hx).resolve_left List.not_mem_nil
    exact (h reg hm).2 x hx

end TestRegistry

namespace BucketFile

variable {merged reg : TestRegistry} {file file' : BucketFile}

-- The bucket can be renumbered: either nothing changes or the new order can be encoded.
def Renumberable (merged reg : TestRegistry) (file : BucketFile) : Prop :=
  (∀ r ∈ file.records, merged.remapRecord reg r = r) ∨
    BucketWriter.Anchored (file.records.map (merged.remapRecord reg))

instance : Decidable (Renumberable merged reg file) :=
  inferInstanceAs (Decidable (_ ∨ _))

-- Renumbering succeeds exactly on such buckets and keeps their records.
theorem Written.remap (h : file.Written) (hi : merged.Includes reg)
    (hf : merged.names.strings.length ≤ 2 ^ 32 ∧ merged.seeds.strings.length ≤ 2 ^ 32)
    (accel : Bool) :
    ((∃ file', remapBucket accel merged reg file = some file') ↔ Renumberable merged reg file) ∧
    ∀ file', remapBucket accel merged reg file = some file' →
      file'.Written ∧ file'.records.Perm (file.records.map (merged.remapRecord reg)) := by
  have ⟨hl, hb, seeds, hsl, hs, hm⟩ := h.bounded
  by_cases hall : ∀ r ∈ file.records, merged.remapRecord reg r = r
  case pos =>
    have he : remapBucket accel merged reg file = some file := by
      rw [remapBucket, if_pos (by simpa using hall)]
    refine ⟨iff_of_true ⟨file, he⟩ (.inl hall), fun file' h' => ?_⟩
    cases he.symm.trans h'
    exact ⟨h, .of_eq <| ((List.map_congr_left hall).trans (List.map_id _)).symm⟩
  case neg =>
    have hperm := List.perm_insertionSort BucketRecord.before
      (file.records.map (merged.remapRecord reg))
    have hrs : ∀ r ∈ (file.records.map (merged.remapRecord reg)).insertionSort BucketRecord.before,
        (r.nameId < 2 ^ 32 ∧ r.ts < 2 ^ 64 ∧ r.status < 16 ∧ r.flags < 16) ∧
        r.seedId ∈ seeds.map (merged.seedRemap reg) := by
      intro r hr
      have ⟨r₀, hm₀, hr⟩ := List.mem_map.mp (hperm.subset hr)
      have hb := hb r₀ hm₀
      rw [← hr]
      exact ⟨⟨StringIds.remap_lt hi.nodup.1 hf.1 hb.1, hb.2⟩, List.mem_map_of_mem (hm r₀ hm₀)⟩
    have hseeds : (seeds.map (merged.seedRemap reg)).length ≤ 255 ∧
        ∀ s ∈ seeds.map (merged.seedRemap reg), s < 2 ^ 32 := by
      refine ⟨by simpa using hsl, fun s hm => ?_⟩
      have ⟨s₀, hm₀, hs₀⟩ := List.mem_map.mp hm
      exact hs₀ ▸ StringIds.remap_lt hi.nodup.2 hf.2 (hs s₀ hm₀)
    have ⟨w, hw, hbw, hrw⟩ := BucketWriter.Bounded.empty.addAll
      (by simpa [hperm.length_eq] using hl) (List.nil_subset _) hseeds hrs
    rw [List.nil_append] at hrw
    have hperm := hrw ▸ hperm
    have he : remapBucket accel merged reg file = w.encode accel := by
      rw [remapBucket, if_neg (by simpa using hall)]
      simp only [hw]
      rfl
    rw [he, hbw.encode_iff accel]
    constructor
    case left =>
      have hne : w.records ≠ [] := by
        intro hn
        rw [hn] at hperm
        have hz := List.map_eq_nil_iff.mp hperm.symm.eq_nil
        exact hall (by simp [hz])
      refine ⟨fun ha => .inr ?_, fun ha _ => ?_⟩
      · exact (BucketWriter.Anchored.of_perm hperm).mp (ha hne)
      · exact (BucketWriter.Anchored.of_perm hperm).mpr <| ha.resolve_left hall
    case right =>
      intro file' he'
      exact ⟨⟨accel, w, hbw, he'⟩, (hbw.records_encode he').trans hperm⟩

end BucketFile

-- The index entry bounds the renumbered names too.
def BucketIndexEntry.KeepsBounds (merged reg : TestRegistry) (e : BucketIndexEntry)
    (file : BucketFile) : Prop :=
  ∀ r ∈ file.records,
    min (merged.nameRemap reg e.minNameId) (merged.nameRemap reg e.maxNameId)
      ≤ merged.nameRemap reg r.nameId ∧
    merged.nameRemap reg r.nameId
      ≤ max (merged.nameRemap reg e.minNameId) (merged.nameRemap reg e.maxNameId)

instance (merged reg : TestRegistry) (e : BucketIndexEntry) (file : BucketFile) :
    Decidable (e.KeepsBounds merged reg file) :=
  inferInstanceAs (Decidable (∀ r ∈ file.records, _))

theorem BucketIndexEntry.Covers.remapEntry_iff {merged reg : TestRegistry} {e : BucketIndexEntry}
    {file : BucketFile} {rs : List BucketRecord} (h : e.Covers file.records)
    (hp : rs.Perm (file.records.map (merged.remapRecord reg))) (newSeq : Nat) :
    (remapEntry merged reg newSeq e).Covers rs ↔ e.KeepsBounds merged reg file := by
  constructor
  case mp => exact fun hc r hr => (hc _ <| hp.symm.subset <| List.mem_map_of_mem hr).1
  case mpr =>
    intro hk r hr
    have ⟨r₀, hm, he⟩ := List.mem_map.mp (hp.subset hr)
    exact he ▸ ⟨hk r₀ hm, (h r₀ hm).2⟩

theorem remapEntry_packs {merged reg : TestRegistry} {e : BucketIndexEntry} {newSeq : Nat}
    (hn : merged.names.strings.Nodup) (hb : merged.names.strings.length ≤ 2 ^ 32) (h : e.packs) :
    { remapEntry merged reg newSeq e with bucketSeq := 0 }.packs := by
  simp only [BucketIndexEntry.packs, decide_eq_true_eq] at h ⊢
  have hmin := reg.names.remap_lt hn hb h.2.2.2.2.2.1
  have hmax := reg.names.remap_lt hn hb h.2.2.2.2.2.2
  exact ⟨by decide, h.2.1, h.2.2.1, h.2.2.2.1, h.2.2.2.2.1, by
    simp only [remapEntry, TestRegistry.nameRemap]
    omega⟩

-- A history as an archive holds it: it answers all queries, and its index was packed.
structure V2State.Valid (st : V2State) : Prop where
  sound : ∃ log, st.Sound log
  packs : ∀ e ∈ st.bucketIndex.entries, e.packs

namespace MergedBuckets

variable {accel : Bool} {merged : TestRegistry} {mb mb' : MergedBuckets} {st : V2State}
variable {log : List RecordedRun}

-- The merged history so far.
def state (merged : TestRegistry) (mb : MergedBuckets) : V2State where
  registry      := merged
  bucketIndex   := mb.index
  sealedBuckets := mb.buckets

-- The runs of a bucket.
def runsOf (reg : TestRegistry) (file : BucketFile) : List RecordedRun :=
  file.records.filterMap reg.recorded

structure Holds (merged : TestRegistry) (mb : MergedBuckets) (log : List RecordedRun) : Prop where
  stores : (mb.state merged).Stores log
  newSeq : mb.newSeq = mb.index.nextSeq
  length : mb.index.entries.length = mb.newSeq
  packs  : ∀ e ∈ mb.index.entries, e.bucketSeq < mb.newSeq ∧ { e with bucketSeq := 0 }.packs

theorem Holds.empty {reg : TestRegistry} (h : merged.Includes reg) (hz : merged.NulFree) :
    Holds merged {} [] where
  stores := { V2State.Stores.empty with names := h.nodup.1, seeds := h.nodup.2, nulFree := hz }
  newSeq := rfl
  length := rfl
  packs  := nofun

theorem map_recorded {reg : TestRegistry} {file : BucketFile} (hi : merged.Includes reg)
    (hr : ∀ r ∈ file.records, ∃ run, reg.recorded r = some run) :
    (file.records.map (merged.remapRecord reg)).map merged.recorded
      = (runsOf reg file).map some := by
  rw [runsOf]
  generalize file.records = rs at hr
  induction rs
  case nil => rfl
  case cons r rs hi' =>
    have ⟨run, hr₀⟩ := hr r (.head _)
    rw [List.map_cons, List.map_cons, List.filterMap_cons_some hr₀, List.map_cons,
      hi.recorded hr₀, hi' fun r hm => hr r (.tail _ hm)]

-- A step of the merge that succeeds under one condition, adds a number of buckets and leads to a log,
-- and keeps the index truthful under another condition.
structure Adds (merged : TestRegistry) (mb : MergedBuckets) (step : Option MergedBuckets)
    (log : List RecordedRun) (count : Nat) (ok keeps : Prop) : Prop where
  ok_iff : (∃ mb', step = some mb') ↔ ok
  spec   : ∀ mb', step = some mb' → mb'.Holds merged log ∧ mb'.newSeq = mb.newSeq + count ∧
    ((mb'.state merged).Truthful ↔ (mb.state merged).Truthful ∧ keeps)

theorem Adds.bind {step : Option MergedBuckets} {f : MergedBuckets → Option MergedBuckets}
    {log' : List RecordedRun} {count count' : Nat} {ok keeps ok' keeps' : Prop}
    (h : Adds merged mb step log count ok keeps)
    (hf : ∀ mb', mb'.Holds merged log → Adds merged mb' (f mb') log' count' ok' keeps') :
    Adds merged mb (step.bind f) log' (count + count') (ok ∧ ok') (keeps ∧ keeps') where
  ok_iff := by
    rw [← h.ok_iff]
    constructor
    case mp =>
      intro ⟨mb'', he⟩
      have ⟨mb', hs, hf'⟩ := Option.bind_eq_some_iff.mp he
      exact ⟨⟨mb', hs⟩, (hf mb' (h.spec mb' hs).1).ok_iff.mp ⟨mb'', hf'⟩⟩
    case mpr =>
      intro ⟨⟨mb', hs⟩, ho⟩
      have ⟨mb'', hf'⟩ := (hf mb' (h.spec mb' hs).1).ok_iff.mpr ho
      exact ⟨mb'', Option.bind_eq_some_iff.mpr ⟨mb', hs, hf'⟩⟩
  spec mb'' he := by
    have ⟨mb', hs, hf'⟩ := Option.bind_eq_some_iff.mp he
    have ⟨hh, hc, ht⟩ := h.spec mb' hs
    have ⟨hh', hc', ht'⟩ := (hf mb' hh).spec mb'' hf'
    exact ⟨hh', by rw [hc', hc, Nat.add_assoc], by rw [ht', ht, and_assoc]⟩

-- Adding one bucket.
theorem Holds.addBucket (h : mb.Holds merged log) (hi : merged.Includes st.registry)
    (hf : merged.names.strings.length ≤ 2 ^ 32 ∧ merged.seeds.strings.length ≤ 2 ^ 32)
    {e : BucketIndexEntry} {file : BucketFile} (hg : st.sealedBuckets.get? e.bucketSeq = some file)
    (hw : file.Written) (hr : ∀ r ∈ file.records, ∃ run, st.registry.recorded r = some run)
    (hc : e.Covers file.records) (hp : e.packs) (accel : Bool) :
    Adds merged mb (mb.addBucket accel merged st e) (log ++ runsOf st.registry file) 1
      (file.Renumberable merged st.registry) (e.KeepsBounds merged st.registry file) := by
  have ⟨hiff, hspec⟩ := hw.remap hi hf accel
  have he : mb.addBucket accel merged st e
      = (remapBucket accel merged st.registry file).map fun file => {
          buckets := mb.buckets.set mb.newSeq file
          index   := mb.index.addBucket <| remapEntry merged st.registry mb.newSeq e
          newSeq  := mb.newSeq + 1
        } := by
    simp only [MergedBuckets.addBucket, hg]
    cases remapBucket accel merged st.registry file <;> rfl
  rw [he]
  constructor
  case ok_iff => rw [← hiff]; cases remapBucket accel merged st.registry file <;> simp
  case spec =>
    intro mb' hmb
    have ⟨file', hfile, hmb⟩ := Option.map_eq_some_iff.mp hmb
    have ⟨hw', hperm⟩ := hspec file' hfile
    have hseq : (remapEntry merged st.registry mb.newSeq e).bucketSeq = mb.index.nextSeq := h.newSeq
    have hrec := (hperm.map merged.recorded).trans <| .of_eq <| map_recorded hi hr
    have hl : (((mb.state merged).records ++ file'.records).map merged.recorded).Perm
        ((log ++ runsOf st.registry file).map some) := by
      rw [List.map_append, List.map_append]
      exact h.stores.records.append hrec
    rw [V2State.records, show (mb.state merged).current.records = [] from rfl,
      List.append_nil] at hl
    have hs := h.stores.store hseq hw' .empty (by rw [List.append_nil]; exact hl)
    have ht := h.stores.store_truthful hseq file' {}
    have ha : (mb.index.addBucket <| remapEntry merged st.registry mb.newSeq e).entries
        = mb.index.entries ++ [remapEntry merged st.registry mb.newSeq e] :=
      (h.stores.store_entries hseq file').1
    have hn : (mb.index.addBucket <| remapEntry merged st.registry mb.newSeq e).nextSeq
        = mb.newSeq + 1 := by
      rw [BucketIndex.nextSeq, ha, List.getLast?_concat]
      rfl
    rw [hc.remapEntry_iff hperm] at ht
    simp only [state, ← h.newSeq] at hs ht
    refine hmb ▸ ⟨⟨hs, hn.symm, ?_, fun e' hm => ?_⟩, rfl, ht⟩
    · rw [ha, List.length_append, h.length, List.length_singleton]
    · rw [ha] at hm
      cases List.mem_append.mp hm
      case inl hm => exact ⟨Nat.lt_succ_of_lt (h.packs e' hm).1, (h.packs e' hm).2⟩
      case inr hm =>
        rw [List.mem_singleton.mp hm]
        exact ⟨Nat.lt_succ_self _, remapEntry_packs hi.nodup.1 hf.1 hp⟩

-- Adding all buckets of a source.
theorem Holds.addSource (h : mb.Holds merged log) (hi : merged.Includes st.registry)
    (hf : merged.names.strings.length ≤ 2 ^ 32 ∧ merged.seeds.strings.length ≤ 2 ^ 32)
    {stLog : List RecordedRun} (hst : st.Sound stLog)
    (hp : ∀ e ∈ st.bucketIndex.entries, e.packs) (accel : Bool) :
    Adds merged mb (mb.addSource accel merged st)
      (log ++ st.sealedBuckets.entries.flatMap (runsOf st.registry ·.2))
      st.bucketIndex.entries.length
      (List.Forall₂ (fun _ b => b.2.Renumberable merged st.registry)
        st.bucketIndex.entries st.sealedBuckets.entries)
      (List.Forall₂ (fun e b => e.KeepsBounds merged st.registry b.2)
        st.bucketIndex.entries st.sealedBuckets.entries) := by
  rw [MergedBuckets.addSource]
  have hg : ∀ b ∈ st.sealedBuckets.entries, st.sealedBuckets.get? b.1 = some b.2 ∧
      ∀ r ∈ b.2.records, ∃ run, st.registry.recorded r = some run :=
    fun b hb => ⟨Dict.get?_eq_some_iff.mpr hb, fun r hr =>
      hst.exists_recorded <| List.mem_append_left _ <| List.mem_flatMap.mpr ⟨b, hb, hr⟩⟩
  have hx := hst.indexed
  have ht := hst.truthful
  rw [V2State.Truthful] at ht
  generalize st.bucketIndex.entries = es, st.sealedBuckets.entries = bs at hg hx ht hp
  induction hx generalizing mb log
  case nil =>
    refine ⟨by simp, fun mb' he => ?_⟩
    cases he
    simpa using h
  case cons e b es bs hx _ hi' =>
    obtain ⟨hc, ht⟩ := List.forall₂_cons.mp ht
    obtain ⟨hgb, hrec⟩ := hg b (.head _)
    obtain ⟨hpe, hp⟩ := List.forall_mem_cons.mp hp
    have hstep := h.addBucket hi hf (hx.seq ▸ hgb) hx.written hrec hc hpe accel
    have hall := hstep.bind fun mb' h' => hi' h' (fun b hb => hg b (.tail _ hb)) ht hp
    simpa only [List.foldlM_cons, Option.bind_eq_bind, List.flatMap_cons, List.append_assoc,
      List.forall₂_cons, List.length_cons, Nat.add_comm] using hall

-- Adding all sources.
theorem Holds.addSources {sts : List V2State} (h : mb.Holds merged log)
    (hf : merged.names.strings.length ≤ 2 ^ 32 ∧ merged.seeds.strings.length ≤ 2 ^ 32)
    (hst : ∀ st ∈ sts, merged.Includes st.registry ∧ st.Valid) (accel : Bool) :
    Adds merged mb (sts.foldlM (MergedBuckets.addSource accel merged) mb)
      (log ++ sts.flatMap fun st => st.sealedBuckets.entries.flatMap (runsOf st.registry ·.2))
      (sts.map (·.bucketIndex.entries.length)).sum
      (∀ st ∈ sts, List.Forall₂ (fun _ b => b.2.Renumberable merged st.registry)
        st.bucketIndex.entries st.sealedBuckets.entries)
      (∀ st ∈ sts, List.Forall₂ (fun e b => e.KeepsBounds merged st.registry b.2)
        st.bucketIndex.entries st.sealedBuckets.entries) := by
  induction sts generalizing mb log
  case nil =>
    refine ⟨by simp, fun mb' he => ?_⟩
    cases he
    simpa using h
  case cons st sts hi =>
    have ⟨hinc, ⟨stLog, hs⟩, hp⟩ := hst st (.head _)
    have hall := (h.addSource hinc hf hs hp accel).bind fun mb' h' =>
      hi h' fun st hm => hst st (.tail _ hm)
    simpa only [List.foldlM_cons, Option.bind_eq_bind, List.flatMap_cons, List.append_assoc,
      List.forall_mem_cons, List.map_cons, List.sum_cons] using hall

end MergedBuckets

-- The records that a query over an archive's history returns, by name and seed.
def V2Members.query (accel : Bool) (m : V2Members) (name : String) (tsFrom tsTo : Option Int) :
    Option (List (Option RecordedRun)) :=
  (V2State.load m).map fun st =>
    (st.queryTestHistory accel name tsFrom tsTo).map st.registry.recorded

-- The merge succeeds, and every query over its result returns what it returns over the sources.
def MergedComplete (accel : Bool) (sources : List V2Members) : Prop :=
  ∃ out, mergeV2History accel sources = some out ∧ ∀ name tsFrom tsTo,
    ∃ runs, out.query accel name tsFrom tsTo = some runs ∧
      runs.Perm (sources.flatMap fun m => (m.query accel name tsFrom tsTo).getD [])

-- The merged tables fit the widths of their fields.
structure MergeFits (sts : List V2State) : Prop where
  registry     : ∃ file, (mergeRegistries <| sts.map (·.registry)).serialize = some file
  stats        : ∃ tbl stats, mergedStats (mergeRegistries <| sts.map (·.registry)) sts = some tbl ∧
    tbl.serialize = some stats
  buckets      : (sts.map (·.bucketIndex.entries.length)).sum < 2 ^ 32
  contribIndex : ∃ ci, (mergedContribIndex (mergeRegistries <| sts.map (·.registry)) sts).serialize
    = some ci
  squashLog    : ∃ log, SquashLog.serialize (sts.flatMap (·.squashLog)) = some log

namespace MergedBuckets

variable {merged : TestRegistry} {mb : MergedBuckets} {log : List RecordedRun}

theorem Holds.serialize_iff (h : mb.Holds merged log) :
    mb.index.serialize = if mb.newSeq < 2 ^ 32 then some mb.index else none := by
  rw [BucketIndex.serialize, h.length]
  refine if_congr ⟨fun hc => hc.1, fun hc => ⟨hc, ?_⟩⟩ rfl rfl
  refine List.all_eq_true.mpr fun e hm => ?_
  obtain ⟨hs, hp⟩ := h.packs e hm
  simp only [BucketIndexEntry.packs, decide_eq_true_eq] at hp ⊢
  exact ⟨Nat.lt_trans hs hc, hp.2⟩

end MergedBuckets

namespace V2State

variable {st : V2State} {log : List RecordedRun}

-- What a loaded history stores are the runs of its buckets.
theorem Stores.runsOf_perm (h : st.Stores log) (hc : st.current = {}) :
    log.Perm (st.sealedBuckets.entries.flatMap (MergedBuckets.runsOf st.registry ·.2)) := by
  have hr := h.records
  have hf : ∀ rs : List BucketRecord,
      (∀ r ∈ rs, ∃ run, st.registry.recorded r = some run) →
      rs.map st.registry.recorded = (rs.filterMap st.registry.recorded).map some := by
    intro rs hrs
    induction rs
    case nil => rfl
    case cons r rs hi =>
      have ⟨run, hr⟩ := hrs r (.head _)
      rw [List.map_cons, List.filterMap_cons_some hr, List.map_cons, hr,
        hi fun r hm => hrs r (.tail _ hm)]
  rw [hf _ fun r hm => h.exists_recorded hm, List.map_perm_map_iff (Option.some_injective _),
    V2State.records, hc, List.append_nil, List.filterMap_flatMap] at hr
  exact hr.symm

end V2State

section Merge

variable {sources : List V2Members} {sts : List V2State}

theorem V2State.load_current {m : V2Members} {st : V2State} (h : V2State.load m = some st) :
    st.current = {} := by
  simp only [V2State.load, Option.bind_eq_bind] at h
  obtain ⟨_, _, h⟩ := Option.bind_eq_some_iff.mp h
  cases h
  rfl

-- The runs of all sources.
def sourceRuns (sts : List V2State) : List RecordedRun :=
  sts.flatMap fun st => st.sealedBuckets.entries.flatMap (MergedBuckets.runsOf st.registry ·.2)

theorem sources_query (hl : sources.mapM V2State.load = some sts) (hv : ∀ st ∈ sts, st.Valid)
    (accel : Bool) (name : String) (tsFrom tsTo : Option Int) :
    (sources.flatMap fun m => (m.query accel name tsFrom tsTo).getD []).Perm
      (((sourceRuns sts).filter (·.matches name tsFrom tsTo)).map some) := by
  induction sources generalizing sts
  case nil =>
    cases hl
    rfl
  case cons m sources hi =>
    rw [List.mapM_cons, Option.bind_eq_bind] at hl
    have ⟨st, hst, hl⟩ := Option.bind_eq_some_iff.mp hl
    have ⟨sts', hsts, hl⟩ := Option.bind_eq_some_iff.mp hl
    cases hl
    have ⟨⟨log, hs⟩, _⟩ := hv st (.head _)
    have hq := hs.query hs.truthful hs.encodable accel name tsFrom tsTo
    have hp := (hs.runsOf_perm <| V2State.load_current hst).filter (·.matches name tsFrom tsTo)
    rw [List.flatMap_cons, sourceRuns, List.flatMap_cons, List.filter_append, List.map_append,
      V2Members.query, hst]
    exact (hq.trans <| hp.map _).append <| hi hsts fun st hm => hv st (.tail _ hm)

theorem TestRegistry.lengths_of_serialize {reg : TestRegistry} {file : RegistryFile}
    (h : reg.serialize = some file) :
    reg.names.strings.length ≤ 2 ^ 32 ∧ reg.seeds.strings.length ≤ 2 ^ 32 := by
  rw [TestRegistry.serialize] at h
  split at h <;> cases h
  case isTrue h =>
    have hn := h.2.1
    have hs := h.2.2
    simp only [StringIds.packs, decide_eq_true_eq] at hn hs
    exact ⟨Nat.le_of_lt hn.1, Nat.le_of_lt hs.1⟩

-- A stored history answers all queries exactly when its index is truthful.
theorem MergedBuckets.Holds.complete_iff {merged : TestRegistry} {mb : MergedBuckets}
    {log : List RecordedRun} (h : mb.Holds merged log) {file : RegistryFile}
    (hf : merged.serialize = some file) (stats : TestStatsTable) (ci : ContribIndex)
    (slog : SquashLog) (accel : Bool) :
    (∀ name tsFrom tsTo, ∃ runs, V2Members.query accel {
        registry     := file
        stats        := stats
        bucketIndex  := mb.index
        contribIndex := ci
        squashLog    := slog
        buckets      := mb.buckets
      } name tsFrom tsTo = some runs ∧
      runs.Perm ((log.filter (·.matches name tsFrom tsTo)).map some))
    ↔ (mb.state merged).Truthful := by
  have hr := TestRegistry.deserialize_serialize h.stores.nulFree hf
  simp only [V2Members.query, V2State.load, V2State.readRegistry, hr]
  constructor
  case mp =>
    intro hq
    refine (h.stores.truthful_of_query accel fun name tsFrom tsTo => ?_).1
    obtain ⟨runs, he, hp⟩ := hq name tsFrom tsTo
    cases he
    exact hp
  case mpr =>
    intro ht name tsFrom tsTo
    exact ⟨_, rfl, h.stores.query ht (absurd rfl ·) accel name tsFrom tsTo⟩

-- A merge keeps all runs exactly when its tables fit, every bucket can be renumbered and every
-- index entry still bounds its bucket.
theorem mergeV2History_complete_iff (hl : sources.mapM V2State.load = some sts)
    (hv : ∀ st ∈ sts, st.Valid) (accel : Bool) :
    MergedComplete accel sources ↔ MergeFits sts ∧
      (∀ st ∈ sts, List.Forall₂ (fun _ b =>
        b.2.Renumberable (mergeRegistries <| sts.map (·.registry)) st.registry)
        st.bucketIndex.entries st.sealedBuckets.entries) ∧
      ∀ st ∈ sts, List.Forall₂ (fun e b =>
        e.KeepsBounds (mergeRegistries <| sts.map (·.registry)) st.registry b.2)
        st.bucketIndex.entries st.sealedBuckets.entries := by
  generalize hm : mergeRegistries (sts.map (·.registry)) = merged
  have hinc : ∀ st ∈ sts, merged.Includes st.registry ∧ st.Valid := fun st hst =>
    ⟨hm ▸ TestRegistry.mergeRegistries_includes (List.mem_map_of_mem hst), hv st hst⟩
  have hz : merged.NulFree := hm ▸ TestRegistry.mergeRegistries_nulFree fun reg hr => by
    obtain ⟨st, hst, he⟩ := List.mem_map.mp hr
    obtain ⟨⟨_, hs⟩, _⟩ := hv st hst
    exact he ▸ hs.nulFree
  have hn : merged.names.strings.Nodup ∧ merged.seeds.strings.Nodup :=
    hm ▸ ⟨(StringIds.lookupAll_spec {} .nil _).1, (StringIds.lookupAll_spec {} .nil _).1⟩
  have hempty : MergedBuckets.Holds merged {} [] :=
    .empty ⟨hn, fun _ hx => hx, fun _ hx => hx⟩ hz
  have hsq := sources_query hl hv accel
  have hdef : mergeV2History accel sources = mergeV2States accel sts := by
    rw [mergeV2History, hl]
    rfl
  rw [MergedComplete, hdef]
  simp only [mergeV2States, hm, Option.bind_eq_bind, Option.bind_eq_some_iff]
  constructor
  case mp =>
    rintro ⟨out, ⟨tbl, htbl, mb, hmb, file, hfile, stats, hstats, idx, hidx, ci, hci, slog, hslog,
      hout⟩, hq⟩
    have hadds := hempty.addSources (TestRegistry.lengths_of_serialize hfile) hinc accel
    obtain ⟨hh, hc, ht⟩ := hadds.spec mb hmb
    rw [hh.serialize_iff] at hidx
    split at hidx <;> cases hidx
    case isTrue hlt =>
      have hcomplete := (hh.complete_iff hfile stats ci slog accel).mp fun name tsFrom tsTo => by
        obtain ⟨runs, hr, hp⟩ := hq name tsFrom tsTo
        cases hout
        exact ⟨runs, hr, hp.trans (hsq name tsFrom tsTo)⟩
      refine ⟨⟨⟨file, hm ▸ hfile⟩, ⟨tbl, stats, hm ▸ htbl, hstats⟩, ?_, ⟨ci, hm ▸ hci⟩,
        ⟨slog, hslog⟩⟩, hadds.ok_iff.mp ⟨mb, hmb⟩, (ht.mp hcomplete).2⟩
      rwa [hc, Nat.zero_add] at hlt
  case mpr =>
    rintro ⟨⟨⟨file, hfile⟩, ⟨tbl, stats, htbl, hstats⟩, hlt, ⟨ci, hci⟩, slog, hslog⟩, hok, hkeeps⟩
    rw [hm] at hfile htbl hci
    have hadds := hempty.addSources (TestRegistry.lengths_of_serialize hfile) hinc accel
    obtain ⟨mb, hmb⟩ := hadds.ok_iff.mpr hok
    obtain ⟨hh, hc, ht⟩ := hadds.spec mb hmb
    have hidx : mb.index.serialize = some mb.index := by
      rw [hh.serialize_iff, if_pos (by rwa [hc, Nat.zero_add])]
    refine ⟨_, ⟨tbl, htbl, mb, hmb, file, hfile, stats, hstats, _, hidx, ci, hci, slog, hslog, rfl⟩,
      fun name tsFrom tsTo => ?_⟩
    obtain ⟨runs, hr, hp⟩ := (hh.complete_iff hfile stats ci slog accel).mpr (ht.mpr ⟨.nil, hkeeps⟩)
      name tsFrom tsTo
    exact ⟨runs, hr, hp.trans (hsq name tsFrom tsTo).symm⟩

-- What a sound history is saved as is a valid source.
theorem V2State.Sound.valid_members {accel : Bool} {s : V2State} {log : List RecordedRun}
    (h : s.Sound log) {m : V2Members} (hm : s.getV2Members accel = some m) :
    ∃ st, V2State.load m = some st ∧ st.Valid := by
  obtain ⟨st, hl, hs, _⟩ := h.load_getV2Members hm
  refine ⟨st, hl, ⟨log, hs⟩, ?_⟩
  simp only [V2State.getV2Members, Option.bind_eq_bind, Option.bind_eq_some_iff] at hm
  obtain ⟨_, _, _, _, _, _, _, _, ⟨_, idx⟩, _, idx', hi, hm⟩ := hm
  rw [BucketIndex.serialize] at hi
  split at hi <;> cases hi
  case isTrue hp =>
    cases hm
    simp only [V2State.load, Option.bind_eq_bind] at hl
    obtain ⟨_, _, hl⟩ := Option.bind_eq_some_iff.mp hl
    cases hl
    exact List.all_eq_true.mp hp.2

theorem V2State.load_pair {m₁ m₂ : V2Members} {st₁ st₂ : V2State}
    (h₁ : V2State.load m₁ = some st₁) (h₂ : V2State.load m₂ = some st₂) :
    [m₁, m₂].mapM V2State.load = some [st₁, st₂] := by
  rw [List.mapM_cons, h₁, List.mapM_cons, h₂]
  rfl

-- The history of some runs recorded one after the other.
def V2State.ofRuns (accel : Bool) (runs : List TestRun) : V2State :=
  runs.foldl (fun st run => (st.addTestRun accel run).fst) {}

theorem mergeV2History_complete_two :
    let st₁ := V2State.ofRuns true [{ name := "x", ts := 5 }]
    let st₂ := V2State.ofRuns true [{ name := "y", ts := 4 }]
    ∃ m₁ m₂, st₁.getV2Members true = some m₁ ∧ st₂.getV2Members true = some m₂ ∧
      MergedComplete true [m₁, m₂] := by
  have h₁ : (V2State.ofRuns true [{ name := "x", ts := 5 }]).Sound _ :=
    (V2State.Sound.empty.addTestRun (by decide)
      ⟨by decide, by decide, by decide, by decide, by decide⟩ true).1
  have h₂ : (V2State.ofRuns true [{ name := "y", ts := 4 }]).Sound _ :=
    (V2State.Sound.empty.addTestRun (by decide)
      ⟨by decide, by decide, by decide, by decide, by decide⟩ true).1
  have hm₁ : (V2State.ofRuns true [{ name := "x", ts := 5 }]).getV2Members true = some _ := rfl
  have hm₂ : (V2State.ofRuns true [{ name := "y", ts := 4 }]).getV2Members true = some _ := rfl
  refine ⟨_, _, hm₁, hm₂, ?_⟩
  have ⟨st₁, hl₁, hv₁⟩ := h₁.valid_members hm₁
  have ⟨st₂, hl₂, hv₂⟩ := h₂.valid_members hm₂
  have hv : ∀ st ∈ [st₁, st₂], st.Valid := by simp [hv₁, hv₂]
  refine (mergeV2History_complete_iff (V2State.load_pair hl₁ hl₂) hv true).mpr ?_
  cases hl₁
  cases hl₂
  refine ⟨⟨⟨_, rfl⟩, ⟨_, _, rfl, rfl⟩, by decide, ⟨_, rfl⟩, _, rfl⟩, ?_, ?_⟩
  · exact List.forall_mem_cons.mpr ⟨by decide, List.forall_mem_cons.mpr ⟨by decide, nofun⟩⟩
  · exact List.forall_mem_cons.mpr ⟨by decide, List.forall_mem_cons.mpr ⟨by decide, nofun⟩⟩

-- The second source's bucket of `x`, `y` and `z` is bounded by the new numbers of `x` and `z`, but
-- `y` is now the lowest.
theorem mergeV2History_incomplete : ¬∀ sources sts, sources.mapM V2State.load = some sts →
    (∀ st ∈ sts, st.Valid) → MergedComplete true sources := by
  intro h
  have ha : ∀ {st : V2State} {log : List RecordedRun}, st.Sound log → ∀ run,
      st.current.records.length < historyBucketMaxRecords → st.Accepts run →
      (st.addTestRun true run).fst.Sound _ := fun h run hl hr => (h.addTestRun hl hr true).1
  have h₁ : (V2State.ofRuns true [{ name := "y", ts := 5 }]).Sound _ :=
    ha .empty _ (by decide) ⟨by decide, by decide, by decide, by decide, by decide⟩
  have h₂ : (V2State.ofRuns true [{ name := "x", ts := 5 }, { name := "y", ts := 5 },
      { name := "z", ts := 5 }]).Sound _ :=
    ha (ha (ha .empty _ (by decide) ⟨by decide, by decide, by decide, by decide, by decide⟩) _
      (by decide) ⟨by decide, by decide, by decide, by decide, by decide⟩) _ (by decide)
      ⟨by decide, by decide, by decide, by decide, by decide⟩
  have hm₁ : (V2State.ofRuns true [{ name := "y", ts := 5 }]).getV2Members true = some _ := rfl
  have hm₂ : (V2State.ofRuns true [{ name := "x", ts := 5 }, { name := "y", ts := 5 },
    { name := "z", ts := 5 }]).getV2Members true = some _ := rfl
  have ⟨st₁, hl₁, hv₁⟩ := h₁.valid_members hm₁
  have ⟨st₂, hl₂, hv₂⟩ := h₂.valid_members hm₂
  have ⟨out, ho, hq⟩ := h _ _ (V2State.load_pair hl₁ hl₂) (by simp [hv₁, hv₂])
  have ⟨runs, hr, hp⟩ := hq "y" none none
  cases Option.some.inj ho
  cases hr
  exact absurd hp.length_eq (by decide)

end Merge
