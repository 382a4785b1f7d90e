import Covsight.Ncdb.Theorems.StatsRuns

-- The statistics of one test from two sources.

namespace TestStatsEntry

variable {dst src e : TestStatsEntry} {runs runs' : List StatsUpdate} {nameId : Nat}

def cpuTimes (runs : List StatsUpdate) : List Rat :=
  runs.filterMap (·.cpuTime)

-- Without a CPU time the mean is zero.
def pooledMean (runs : List StatsUpdate) : Rat :=
  (cpuTimes runs).sum / (cpuTimes runs).length

theorem cpuTimes_append : cpuTimes (runs ++ runs') = cpuTimes runs ++ cpuTimes runs' :=
  List.filterMap_append

-- What a merge is for.

structure CountsKept (dst src : TestStatsEntry) (nameId : Nat) : Prop where
  counts      : let e := mergeStatsEntry dst src nameId
    e.passCount + e.failCount + e.errorCount = e.totalRuns
  transitions : let e := mergeStatsEntry dst src nameId
    0 < e.totalRuns → e.transitionCount < e.totalRuns
  flakeScore  : let e := mergeStatsEntry dst src nameId
    0 ≤ e.flakeScore ∧ e.flakeScore ≤ 1
  lastTs      : (mergeStatsEntry dst src nameId).lastTs = max dst.lastTs src.lastTs

structure MergedRight (runs runs' : List StatsUpdate) (dst src : TestStatsEntry) (nameId : Nat) : Prop
    extends CountsKept dst src nameId where
  identity    : ∀ e ∈ [dst, src], mergeStatsEntry { nameId } e nameId = { e with nameId } ∧
    mergeStatsEntry e { nameId } nameId = { e with nameId }
  lastStatus  : let e := mergeStatsEntry dst src nameId
    (dst.lastTs < src.lastTs → e.lastStatus = src.lastStatus) ∧
    (src.lastTs < dst.lastTs → e.lastStatus = dst.lastStatus)
  meanCpuTime : (mergeStatsEntry dst src nameId).meanCpuTime = pooledMean (runs ++ runs')

-- Fields of a source that a merge into an empty entry does not take over are as an empty entry has them.
structure TakenOver (e : TestStatsEntry) : Prop where
  runs         : 0 < e.totalRuns
  lastStatus   : e.lastStatus = histStatusOk
  cusumRefMean : e.cusumRefMean = 0
  knownSeeds   : e.knownSeeds = []
  firstTs      : 0 ≤ e.firstTs

-- The same part of the runs has a CPU time, or the means are the same anyway.
def SameShare (runs runs' : List StatsUpdate) (dst src : TestStatsEntry) : Prop :=
  dst.meanCpuTime = src.meanCpuTime ∨
  dst.totalRuns * (cpuTimes runs').length = src.totalRuns * (cpuTimes runs).length

structure Mergeable (dst src : TestStatsEntry) : Prop where
  takenOver  : dst.TakenOver ∧ src.TakenOver
  lastStatus : dst.lastTs < src.lastTs → src.lastStatus = dst.lastStatus

theorem gradeScore_merge_empty {n : Nat} : (mergeStatsEntry { nameId := n } { nameId } nameId).gradeScore = 1 := by
  simp [mergeStatsEntry]

theorem takenOver_of_identity (hl : mergeStatsEntry { nameId } e nameId = { e with nameId })
    (hr : mergeStatsEntry e { nameId } nameId = { e with nameId }) (hs : e.Sound) : e.TakenOver where
  runs         := by
    by_contra hz
    have hg := congrArg gradeScore hr
    rw [hs.fresh <| Nat.eq_zero_of_not_pos hz, gradeScore_merge_empty] at hg
    exact absurd hg one_ne_zero
  lastStatus   := (congrArg TestStatsEntry.lastStatus hl).symm
  cusumRefMean := (congrArg TestStatsEntry.cusumRefMean hl).symm
  knownSeeds   := (congrArg TestStatsEntry.knownSeeds hl).symm
  firstTs      := by
    have hf := congrArg TestStatsEntry.firstTs hl
    simp only [mergeStatsEntry] at hf
    split at hf <;> omega

theorem merge_empty_right (hs : e.Sound) (hn : 0 < e.totalRuns) :
    mergeStatsEntry e { nameId } nameId = { e with nameId } := by
  have ⟨hf, hr, hg⟩ := hs.scored hn
  rw [grade, ← hf] at hg
  have hst : ¬|(0 : Int)| > |e.streak| := by simp
  simp only [mergeStatsEntry, Nat.add_zero, gt_iff_lt, false_and, decide_false,
    Bool.false_eq_true, if_false, hn, if_true, max_eq_left hs.lastTs, max_eq_left hs.lastGreenTs,
    max_eq_left hs.cusumValue.left, Nat.max_zero, lt_self_iff_false]
  rw [if_neg hst, ← flake, ← hf, ← hr]
  exact congrArg (fun g => { e with nameId, gradeScore := g }) hg.symm

theorem merge_empty_left (hs : e.Sound) (ht : e.TakenOver) :
    mergeStatsEntry { nameId } e nameId = { e with nameId } := by
  have ⟨hf, hr, hg⟩ := hs.scored ht.runs
  rw [grade, ← hf] at hg
  have hn : (e.totalRuns : Rat) ≠ 0 := Nat.cast_ne_zero.mpr ht.runs.ne'
  have hm : ((0 : Nat) * (0 : Rat) + e.totalRuns * e.meanCpuTime) / e.totalRuns = e.meanCpuTime := by
    rw [mul_zero, zero_add, mul_div_cancel_left₀ _ hn]
  have hm₂ (d : Rat) : 0 + e.m2CpuTime + d * d * (0 : Nat) * e.totalRuns / e.totalRuns = e.m2CpuTime := by
    rw [Nat.cast_zero, mul_zero, zero_mul, zero_div, zero_add, add_zero]
  have hft : (if e.firstTs > 0 then e.firstTs else 0) = e.firstTs := by
    have := ht.firstTs
    split <;> omega
  have hst : (if |e.streak| > |(0 : Int)| then e.streak else 0) = e.streak := by
    split
    case isTrue     => rfl
    case isFalse hz => simpa [eq_comm] using hz
  simp only [mergeStatsEntry, Nat.zero_add, ht.runs, and_self, and_true, true_or, decide_true, if_true, hm, hm₂,
    hft, hst, max_eq_right hs.lastTs, max_eq_right hs.lastGreenTs, max_eq_right hs.cusumValue.left, Nat.zero_max]
  rw [← flake, ← hf, ← hr, ← hg, ← ht.lastStatus, ← ht.cusumRefMean, ← ht.knownSeeds]

-- CPU times

theorem sum_cpuTimes (runs : List StatsUpdate) :
    (cpuTimes runs).sum = (cpuTimes runs).length * pooledMean runs := by
  rw [pooledMean]
  cases hl : cpuTimes runs with
  | nil      => simp
  | cons t l =>
    have hn : ((t :: l).length : Rat) ≠ 0 := Nat.cast_ne_zero.mpr (Nat.succ_ne_zero _)
    rw [mul_div_cancel₀ _ hn]

theorem meanCpuTime_merge (hn : 0 < src.totalRuns) :
    (mergeStatsEntry dst src nameId).meanCpuTime =
    (dst.totalRuns * dst.meanCpuTime + src.totalRuns * src.meanCpuTime) /
      (dst.totalRuns + src.totalRuns) := by
  have hn : src.totalRuns > 0 ∧ dst.totalRuns + src.totalRuns > 0 := ⟨hn, Nat.add_pos_right _ hn⟩
  simp only [mergeStatsEntry, hn, and_self, decide_true, if_true, Nat.cast_add]

-- With means that are right the merged one is right where the totals weigh as the numbers of CPU
-- times do.
theorem pooledMean_merge_iff (hn : 0 < src.totalRuns) (hd : dst.meanCpuTime = pooledMean runs) (hs : src.meanCpuTime = pooledMean runs') :
    (mergeStatsEntry dst src nameId).meanCpuTime = pooledMean (runs ++ runs') ↔
    SameShare runs runs' dst src := by
  have hsum := sum_cpuTimes runs
  have hsum' := sum_cpuTimes runs'
  rw [← hd] at hsum
  rw [← hs] at hsum'
  rw [meanCpuTime_merge hn, SameShare, pooledMean, cpuTimes_append, List.sum_append, List.length_append,
    Nat.cast_add, hsum, hsum']
  have hn : (dst.totalRuns + src.totalRuns : Rat) ≠ 0 := by positivity
  by_cases hz : (cpuTimes runs).length + (cpuTimes runs').length = 0
  case pos =>
    have ⟨hl, hl'⟩ := Nat.add_eq_zero_iff.mp hz
    have hd : dst.meanCpuTime = 0 := by simp [hd, pooledMean, hl]
    have hs : src.meanCpuTime = 0 := by simp [hs, pooledMean, hl']
    simp [hd, hs]
  case neg =>
    have hz : ((cpuTimes runs).length + (cpuTimes runs').length : Rat) ≠ 0 := by exact_mod_cast hz
    have hcross : (dst.totalRuns * dst.meanCpuTime + src.totalRuns * src.meanCpuTime : Rat) *
          ((cpuTimes runs).length + (cpuTimes runs').length) =
        ((cpuTimes runs).length * dst.meanCpuTime + (cpuTimes runs').length * src.meanCpuTime) *
          (dst.totalRuns + src.totalRuns) ↔
        (dst.meanCpuTime - src.meanCpuTime) * (dst.totalRuns * (cpuTimes runs').length -
          src.totalRuns * (cpuTimes runs).length) = 0 := by
      constructor <;> intro h <;> linarith
    rw [div_eq_div_iff hn hz, hcross, mul_eq_zero, sub_eq_zero, sub_eq_zero]
    norm_cast

-- The totals count all runs, so the mean is that of the CPU times where each run has one.

theorem cpuTimes_length (h : ∀ u ∈ runs, u.cpuTime.isSome) : (cpuTimes runs).length = runs.length := by
  induction runs with
  | nil            => rfl
  | cons u runs hi =>
    have ⟨t, ht⟩ := Option.isSome_iff_exists.mp <| h u (.head _)
    rw [cpuTimes, List.filterMap_cons_some ht, List.length_cons, List.length_cons]
    exact congrArg (· + 1) <| hi fun u hu => h u (.tail _ hu)

namespace StatsOf

theorem meanCpuTime_timed (h : StatsOf runs e) (ht : ∀ u ∈ runs, u.cpuTime.isSome) :
    e.totalRuns * e.meanCpuTime = (cpuTimes runs).sum := by
  induction h with
  | empty          => exact mul_zero _
  | @update runs e h u hi =>
    have ⟨t, hu⟩ := Option.isSome_iff_exists.mp <| ht u (by simp)
    have hi := hi fun u hm => ht u <| List.mem_append_left _ hm
    have hn : (e.totalRuns + 1 : Rat) ≠ 0 := by positivity
    rw [totalRuns_update, meanCpuTime_update, cpuTimes_append, List.sum_append, ← hi, hu, Nat.cast_add,
      Nat.cast_one, mul_add, mul_div_cancel₀ _ hn]
    simp only [cpuTimes, List.filterMap_cons_some hu, List.filterMap_nil, List.sum_singleton]
    linarith
  | reload _ hi    => exact hi ht
  | @merge _ dst _ src _ _ hn nameId hd hs =>
    have hd := hd fun u hm => ht u <| List.mem_append_left _ hm
    have hs := hs fun u hm => ht u <| List.mem_append_right _ hm
    have hz : (dst.totalRuns + src.totalRuns : Rat) ≠ 0 := by positivity
    have htotal : (mergeStatsEntry dst src nameId).totalRuns = dst.totalRuns + src.totalRuns := rfl
    rw [meanCpuTime_merge hn, htotal, Nat.cast_add, mul_div_cancel₀ _ hz, hd, hs, cpuTimes_append,
      List.sum_append]

theorem meanCpuTime_untimed (h : StatsOf runs e) (hu : ∀ u ∈ runs, u.cpuTime = none) :
    e.meanCpuTime = 0 := by
  induction h with
  | empty          => rfl
  | update h u hi  =>
    rw [meanCpuTime_update, hu u (by simp)]
    exact hi fun u hm => hu u <| List.mem_append_left _ hm
  | reload _ hi    => exact hi hu
  | merge _ _ hn _ hd hs =>
    have hd := hd fun u hm => hu u <| List.mem_append_left _ hm
    have hs := hs fun u hm => hu u <| List.mem_append_right _ hm
    rw [meanCpuTime_merge hn, hd, hs, mul_zero, mul_zero, add_zero, zero_div]

theorem meanCpuTime_eq (h : StatsOf runs e)
    (ht : (∀ u ∈ runs, u.cpuTime.isSome) ∨ ∀ u ∈ runs, u.cpuTime = none) :
    e.meanCpuTime = pooledMean runs := by
  cases ht
  case inl ht =>
    rw [pooledMean, cpuTimes_length ht, ← h.meanCpuTime_timed ht, ← h.totalRuns_eq]
    by_cases hz : e.totalRuns = 0
    case pos =>
      have hm : e.meanCpuTime = 0 := congrArg TestStatsEntry.meanCpuTime (h.sound.fresh hz)
      rw [hm, mul_zero, zero_div]
    case neg => rw [mul_div_cancel_left₀ _ (Nat.cast_ne_zero.mpr hz)]
  case inr hu =>
    have hn : cpuTimes runs = [] := List.filterMap_eq_nil_iff.mpr hu
    rw [h.meanCpuTime_untimed hu, pooledMean, hn, List.sum_nil, zero_div]

end StatsOf

structure OwnMeans (runs runs' : List StatsUpdate) (dst src : TestStatsEntry) : Prop where
  dst : dst.meanCpuTime = pooledMean runs
  src : src.meanCpuTime = pooledMean runs'

theorem countsKept (hd : dst.Sound) (hs : src.Sound) (nameId : Nat) : CountsKept dst src nameId where
  counts        := counts_merge hd hs nameId
  transitions h := Nat.lt_of_le_sub_one h <| transitions_merge hd hs nameId
  flakeScore    := by
    have hf : (mergeStatsEntry dst src nameId).flakeScore =
        if dst.totalRuns + src.totalRuns > 0 then (mergeStatsEntry dst src nameId).flake else 0 := rfl
    simp only [hf]
    split
    case isTrue  => exact flake_bounds <| transitions_merge hd hs nameId
    case isFalse => exact ⟨le_rfl, zero_le_one⟩
  lastTs        := rfl

theorem mergeable_of_right (hd : StatsOf runs dst) (hs : StatsOf runs' src)
    (h : MergedRight runs runs' dst src nameId) : Mergeable dst src where
  takenOver    := by
    have ⟨hl, hr⟩ := h.identity dst (.head _)
    have ⟨hl', hr'⟩ := h.identity src (.tail _ <| .head _)
    exact ⟨takenOver_of_identity hl hr hd.sound, takenOver_of_identity hl' hr' hs.sound⟩
  lastStatus   := fun hlt => (h.lastStatus.left hlt).symm

theorem right_of_mergeable (hd : StatsOf runs dst) (hs : StatsOf runs' src) (h : Mergeable dst src)
    (hm : (mergeStatsEntry dst src nameId).meanCpuTime = pooledMean (runs ++ runs')) :
    MergedRight runs runs' dst src nameId :=
  have ⟨ht, ht'⟩ := h.takenOver
  {
    countsKept hd.sound hs.sound nameId with
    identity    := by
      simp only [List.forall_mem_cons, List.not_mem_nil, false_implies, implies_true, and_true]
      exact ⟨⟨merge_empty_left hd.sound ht, merge_empty_right hd.sound ht.runs⟩,
        merge_empty_left hs.sound ht', merge_empty_right hs.sound ht'.runs⟩
    lastStatus  := ⟨fun hlt => (h.lastStatus hlt).symm, fun _ => rfl⟩
    meanCpuTime := hm
  }

theorem merged_right_iff (hd : StatsOf runs dst) (hs : StatsOf runs' src) (nameId : Nat) :
    CountsKept dst src nameId ∧
    (MergedRight runs runs' dst src nameId → Mergeable dst src) ∧
    (OwnMeans runs runs' dst src →
      (MergedRight runs runs' dst src nameId ↔ Mergeable dst src ∧ SameShare runs runs' dst src)) := by
  refine ⟨countsKept hd.sound hs.sound nameId, mergeable_of_right hd hs, fun hm => ⟨fun h => ?_,
    fun ⟨h, hshare⟩ => ?_⟩⟩
  case refine_1 =>
    have hmerge := mergeable_of_right hd hs h
    have hshare := pooledMean_merge_iff hmerge.takenOver.right.runs hm.dst hm.src |>.mp h.meanCpuTime
    exact ⟨hmerge, hshare⟩
  case refine_2 =>
    have hn := h.takenOver.right.runs
    exact right_of_mergeable hd hs h <| pooledMean_merge_iff hn hm.dst hm.src |>.mpr hshare

-- Runs of a quarter of a minute and of a minute.
theorem merged_right_iff_passing :
    let short : StatsUpdate := { nameId := 0, status := histStatusOk, ts := 1, cpuTime := some 15 }
    let long : StatsUpdate := { nameId := 0, status := histStatusOk, ts := 2, cpuTime := some 60 }
    MergedRight [short] [long] (({ nameId := 0 } : TestStatsEntry).update histStatusOk 1 (some 15) none)
      (({ nameId := 0 } : TestStatsEntry).update histStatusOk 2 (some 60) none) 0 := by
  intro short long
  have hd := StatsOf.update (.empty 0) short
  have hs := StatsOf.update (.empty 0) long
  have hm : OwnMeans [short] [long] _ _ := ⟨hd.meanCpuTime_eq <| .inl (by simp [short]),
    hs.meanCpuTime_eq <| .inl (by simp [long])⟩
  refine (merged_right_iff hd hs 0).right.right hm |>.mpr ⟨⟨⟨?_, ?_⟩, by decide +kernel⟩, ?_⟩
  case refine_1 => constructor <;> decide +kernel
  case refine_2 => constructor <;> decide +kernel
  case refine_3 => exact .inr (by decide +kernel)

-- A test that passed and then failed in another database is still one that passed last.
theorem passed_before_failed :
    let dst := ({ nameId := 0 } : TestStatsEntry).update histStatusOk 1 none none
    let src := ({ nameId := 0 } : TestStatsEntry).update histStatusFail 2 none none
    ∃ runs runs', StatsOf runs dst ∧ StatsOf runs' src ∧ dst.lastTs < src.lastTs ∧
    src.lastStatus = histStatusFail ∧ (mergeStatsEntry dst src 0).lastStatus = histStatusOk ∧
    ¬MergedRight runs runs' dst src 0 := by
  have hd := StatsOf.update (.empty 0) { nameId := 0, status := histStatusOk, ts := 1 }
  have hs := StatsOf.update (.empty 0) { nameId := 0, status := histStatusFail, ts := 2 }
  refine ⟨_, _, hd, hs, by decide +kernel, by decide +kernel, by decide +kernel, fun h => ?_⟩
  exact absurd (h.lastStatus.left (by decide +kernel)) (by decide +kernel)

end TestStatsEntry
