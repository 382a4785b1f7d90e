import Covsight.Lib.Sample
import Covsight.Ncdb.Theorems.StatsMerging
import Covsight.Ncdb.Theorems.StatsSaving

-- The mean and the spread of the CPU times of a test of which some runs have none.

open Sample

namespace TestStatsEntry

-- The square of `stddev_cpu_time`.
def varianceCpuTime (e : TestStatsEntry) : Rat :=
  if e.totalRuns < 2 then 0 else e.m2CpuTime / e.totalRuns

def ofRuns (nameId : Nat) (runs : List StatsUpdate) : TestStatsEntry :=
  runs.foldl (fun e u => e.update u.status u.ts u.cpuTime u.seedId) { nameId }

variable {nameId : Nat} {runs : List StatsUpdate} {u : StatsUpdate} {e : TestStatsEntry}

theorem ofRuns_concat : ofRuns nameId (runs ++ [u]) =
    (ofRuns nameId runs).update u.status u.ts u.cpuTime u.seedId :=
  List.foldl_concat ..

theorem statsOf_ofRuns (nameId : Nat) (runs : List StatsUpdate) : StatsOf runs (ofRuns nameId runs) := by
  induction runs using List.reverseRecOn with
  | nil                  => exact .empty nameId
  | append_singleton _ u hi => exact ofRuns_concat ▸ hi.update u

-- What is stored of the CPU times.
structure CpuTimesStored (runs : List StatsUpdate) (e : TestStatsEntry) : Prop where
  mean    : e.meanCpuTime = mean (cpuTimes runs)
  squares : e.m2CpuTime = squares (cpuTimes runs)

def SpreadTold (runs : List StatsUpdate) (e : TestStatsEntry) : Prop :=
  e.varianceCpuTime = squares (cpuTimes runs) / (cpuTimes runs).length

-- Each CPU time comes when all runs before have one, or is the mean of those before.
def InStep (runs : List StatsUpdate) : Prop :=
  ∀ before u after t, runs = before ++ u :: after → u.cpuTime = some t →
    (∀ u ∈ before, u.cpuTime.isSome) ∨ t = mean (cpuTimes before)

-- Every run has a CPU time, or the CPU times are all the same, and zero if the first run has none.
def Even (runs : List StatsUpdate) : Prop :=
  (∀ u ∈ runs, u.cpuTime.isSome) ∨
  ∃ c, (∀ t ∈ cpuTimes runs, t = c) ∧ (c = 0 ∨ ∀ u ∈ runs.head?, u.cpuTime.isSome)

theorem cpuTimes_length_le : (cpuTimes runs).length ≤ runs.length :=
  List.length_filterMap_le ..

theorem cpuTimes_concat_none (h : u.cpuTime = none) : cpuTimes (runs ++ [u]) = cpuTimes runs := by
  rw [cpuTimes_append, cpuTimes, cpuTimes, List.filterMap_cons_none h, List.filterMap_nil, List.append_nil]

theorem cpuTimes_concat_some {t : Rat} (h : u.cpuTime = some t) :
    cpuTimes (runs ++ [u]) = cpuTimes runs ++ [t] := by
  rw [cpuTimes_append, cpuTimes, cpuTimes, List.filterMap_cons_some h, List.filterMap_nil]

-- The step of the mean is the right one for as many runs as CPU times, and where it is none.
theorem mean_step_iff {m t : Rat} {n j : Nat} :
    m + (t - m) / (n + 1 : Nat) = m + (t - m) / (j + 1 : Nat) ↔ n = j ∨ t = m := by
  have hn : ((n + 1 : Nat) : Rat) ≠ 0 := Nat.cast_ne_zero.mpr (Nat.succ_ne_zero n)
  have hj : ((j + 1 : Nat) : Rat) ≠ 0 := Nat.cast_ne_zero.mpr (Nat.succ_ne_zero j)
  rw [add_right_inj, div_eq_div_iff hn hj, mul_eq_mul_left_iff, sub_eq_zero, Nat.cast_inj,
    Nat.succ_inj, eq_comm (a := n)]

theorem cpuTimesStored_concat_iff (h : CpuTimesStored runs (ofRuns nameId runs)) :
    CpuTimesStored (runs ++ [u]) (ofRuns nameId (runs ++ [u])) ↔
    ∀ t, u.cpuTime = some t → (∀ u ∈ runs, u.cpuTime.isSome) ∨ t = mean (cpuTimes runs) := by
  have hm : (ofRuns nameId (runs ++ [u])).meanCpuTime = _ := ofRuns_concat ▸ meanCpuTime_update
  have hs : (ofRuns nameId (runs ++ [u])).m2CpuTime = _ := ofRuns_concat ▸ m2CpuTime_update
  cases hu : u.cpuTime with
  | none   =>
    rw [hu] at hm hs
    have hc : cpuTimes (runs ++ [u]) = cpuTimes runs := cpuTimes_concat_none hu
    exact iff_of_true ⟨hm.trans <| hc ▸ h.mean, hs.trans <| hc ▸ h.squares⟩ nofun
  | some t =>
    rw [hu] at hm hs
    have hc : cpuTimes (runs ++ [u]) = cpuTimes runs ++ [t] := cpuTimes_concat_some hu
    have hn := (statsOf_ofRuns nameId runs).totalRuns_eq
    simp only [h.mean, h.squares, hn] at hm hs
    have hmean : (ofRuns nameId (runs ++ [u])).meanCpuTime = mean (cpuTimes (runs ++ [u])) ↔
        (∀ u ∈ runs, u.cpuTime.isSome) ∨ t = mean (cpuTimes runs) := by
      rw [hm, hc, mean_concat, mean_step_iff, eq_comm (a := runs.length), cpuTimes,
        List.filterMap_length_eq_length]
    constructor
    case mp =>
      intro hc _ ht
      cases ht
      exact hmean.mp hc.mean
    case mpr =>
      intro ht
      have hmean := hmean.mpr <| ht t rfl
      refine ⟨hmean, ?_⟩
      rw [hs, ← hm, hmean, hc, squares_concat]

theorem inStep_concat_iff : InStep (runs ++ [u]) ↔ InStep runs ∧
    ∀ t, u.cpuTime = some t → (∀ u ∈ runs, u.cpuTime.isSome) ∨ t = mean (cpuTimes runs) := by
  constructor
  case mp =>
    intro h
    refine ⟨fun before v after t hr ht => h before v (after ++ [u]) t ?_ ht, fun t ht => h runs u [] t rfl ht⟩
    rw [hr, List.append_assoc, List.cons_append]
  case mpr =>
    intro ⟨h, hu⟩ before v after t hr ht
    rcases List.eq_nil_or_concat after with hn | ⟨after, w, hn⟩
    case inl =>
      subst hn
      have ⟨hb, hv⟩ := List.append_inj' hr rfl
      cases hv
      exact hb ▸ hu t ht
    case inr =>
      subst hn
      rw [List.concat_eq_append, ← List.cons_append, ← List.append_assoc] at hr
      exact h before v after t (List.append_inj' hr rfl).left ht

theorem forall_prefix_concat_iff {α : Type} {p : List α → Prop} {xs : List α} {x : α} :
    (∀ ys, ys <+: xs ++ [x] → p ys) ↔ (∀ ys, ys <+: xs → p ys) ∧ p (xs ++ [x]) := by
  simp only [List.prefix_concat_iff, or_imp, forall_and, forall_eq]
  exact and_comm

theorem cpuTimesStored_iff (nameId : Nat) (runs : List StatsUpdate) :
    (∀ ran, ran <+: runs → CpuTimesStored ran (ofRuns nameId ran)) ↔ InStep runs := by
  induction runs using List.reverseRecOn with
  | nil                     =>
    refine iff_of_true (fun ran hr => ?_) (fun before u after _ hr => by simp at hr)
    rw [List.prefix_nil.mp hr]
    exact ⟨mean_nil.symm, rfl⟩
  | append_singleton runs u hi =>
    rw [forall_prefix_concat_iff, hi, inStep_concat_iff]
    refine and_congr_right fun h => ?_
    exact cpuTimesStored_concat_iff <| hi.mpr h runs (List.prefix_refl _)

-- The spread is told by the number of runs.
theorem spreadTold_iff (h : CpuTimesStored runs (ofRuns nameId runs)) :
    SpreadTold runs (ofRuns nameId runs) ↔
    (∀ u ∈ runs, u.cpuTime.isSome) ∨ ∀ t ∈ cpuTimes runs, t = mean (cpuTimes runs) := by
  have hl : (cpuTimes runs).length ≤ runs.length := cpuTimes_length_le
  have hn := (statsOf_ofRuns nameId runs).totalRuns_eq
  rw [← squares_eq_zero_iff, ← List.filterMap_length_eq_length, ← cpuTimes, SpreadTold, varianceCpuTime, hn,
    h.squares]
  by_cases hz : squares (cpuTimes runs) = 0
  case pos => simp [hz]
  case neg =>
    have hj : 2 ≤ (cpuTimes runs).length := by
      by_contra hj
      refine hz <| squares_eq_zero_iff.mpr ?_
      rcases hc : cpuTimes runs with _ | ⟨t, _ | ⟨_, _⟩⟩
      case nil       => simp
      case cons.nil  => simp [mean]
      case cons.cons => simp [hc] at hj
    have hr : (runs.length : Rat) ≠ 0 := Nat.cast_ne_zero.mpr (by omega)
    have hj : ((cpuTimes runs).length : Rat) ≠ 0 := Nat.cast_ne_zero.mpr (by omega)
    rw [if_neg (by omega), div_eq_div_iff hr hj, mul_right_inj' hz, Nat.cast_inj, or_iff_left hz]

theorem inStep_of_even (h : Even runs) : InStep runs := by
  intro before u after t hr ht
  rcases h with h | ⟨c, hc, hz⟩
  case inl => exact .inl fun v hv => h v <| hr ▸ List.mem_append_left _ hv
  case inr =>
    by_cases hb : cpuTimes before = []
    case neg =>
      have hm : ∀ t ∈ cpuTimes before, t = c := fun t ht => hc t <| by
        rw [hr, cpuTimes_append]
        exact List.mem_append_left _ ht
      have htc : t = c := hc t <| hr ▸ List.mem_filterMap.mpr ⟨u, by simp, ht⟩
      exact .inr <| htc.trans (mean_of_forall hb hm).symm
    case pos =>
      cases before with
      | nil            => exact .inl nofun
      | cons v before  =>
        have hv : v.cpuTime = none := List.filterMap_eq_nil_iff.mp hb v (.head _)
        have hc₀ : c = 0 := hz.resolve_right fun h => by simpa [hv] using h v (by simp [hr])
        have htc : t = c := hc t <| hr ▸ List.mem_filterMap.mpr ⟨u, by simp, ht⟩
        exact .inr <| by rw [htc, hc₀, hb, mean_nil]

theorem even_of_earlier {ran : List StatsUpdate} (h : Even runs) (hr : ran <+: runs) : Even ran := by
  obtain ⟨rest, rfl⟩ := hr
  rcases h with h | ⟨c, hc, hz⟩
  case inl => exact .inl fun u hu => h u <| List.mem_append_left _ hu
  case inr =>
    refine .inr ⟨c, fun t ht => hc t ?_, hz.imp_right fun hz u hu => hz u ?_⟩
    case refine_1 =>
      rw [cpuTimes_append]
      exact List.mem_append_left _ ht
    case refine_2 =>
      cases ran with
      | nil      => simp at hu
      | cons v l => exact hu

theorem told_of_even (h : Even runs) (hs : CpuTimesStored runs (ofRuns nameId runs)) :
    SpreadTold runs (ofRuns nameId runs) := by
  refine spreadTold_iff hs |>.mpr <| h.imp_right fun ⟨c, hc, _⟩ t ht => ?_
  exact (hc t ht).trans (mean_of_forall (List.ne_nil_of_mem ht) hc).symm

-- The first CPU time after runs without one is the mean of none.
theorem even_of_told (h : InStep runs) (hs : CpuTimesStored runs (ofRuns nameId runs))
    (ht : SpreadTold runs (ofRuns nameId runs)) : Even runs := by
  refine (spreadTold_iff hs |>.mp ht).imp_right fun ht => ⟨_, ht, ?_⟩
  cases runs with
  | nil         => exact .inr (by simp)
  | cons u runs =>
    cases hu : u.cpuTime with
    | some t => exact .inr (by simp [hu])
    | none   =>
      refine .inl ?_
      cases hc : cpuTimes (u :: runs) with
      | nil      => exact mean_nil
      | cons t l =>
        have ⟨before, v, after, hr, hb, hv, _⟩ := List.filterMap_eq_cons_iff.mp hc
        have hn : before ≠ [] := by
          rintro rfl
          cases hr
          exact absurd hv (by simp [hu])
        have ⟨w, hw⟩ := List.exists_mem_of_ne_nil before hn
        have hbt := (h before v after t hr hv).resolve_left fun hb' => by simpa [hb w hw] using hb' w hw
        have hbn : cpuTimes before = [] := List.filterMap_eq_nil_iff.mpr hb
        have htm := ht t (hc ▸ .head _)
        rw [← hc, ← htm, hbt, hbn, mean_nil]

theorem told_iff (nameId : Nat) (runs : List StatsUpdate) :
    (∀ ran, ran <+: runs →
      CpuTimesStored ran (ofRuns nameId ran) ∧ SpreadTold ran (ofRuns nameId ran)) ↔ Even runs := by
  constructor
  case mp =>
    intro h
    have hs := cpuTimesStored_iff nameId runs |>.mp fun ran hr => (h ran hr).left
    have ⟨hr, ht⟩ := h runs (List.prefix_refl _)
    exact even_of_told hs hr ht
  case mpr =>
    intro h ran hr
    have hs := cpuTimesStored_iff nameId runs |>.mpr (inStep_of_even h) ran hr
    exact ⟨hs, told_of_even (even_of_earlier h hr) hs⟩

end TestStatsEntry

namespace TestStatsTable

open TestStatsEntry

variable {nameId : Nat} {runs : List StatsUpdate}

def ran (runs : List StatsUpdate) : TestStatsTable :=
  runs.foldl run {}

def runsOf (nameId : Nat) (runs : List StatsUpdate) : List StatsUpdate :=
  runs.filter (·.nameId = nameId)

theorem entry_ran (runs : List StatsUpdate) (nameId : Nat) :
    (ran runs).entry nameId = ofRuns nameId (runsOf nameId runs) := by
  induction runs using List.reverseRecOn with
  | nil                     => rfl
  | append_singleton runs u hi =>
    rw [ran, List.foldl_concat, ← ran, entry_run, runsOf, List.filter_append, ← runsOf, hi]
    by_cases hu : nameId = u.nameId
    case pos => rw [if_pos hu, List.filter_cons_of_pos (by simp [hu]), List.filter_nil, ofRuns_concat]
    case neg => rw [if_neg hu, List.filter_cons_of_neg (by simpa using Ne.symm hu), List.filter_nil, List.append_nil]

theorem forall_prefix_runsOf {p : List StatsUpdate → Prop} :
    (∀ rs, rs <+: runs → p (runsOf nameId rs)) ↔ ∀ rs, rs <+: runsOf nameId runs → p rs := by
  constructor
  case mp =>
    intro h rs hr
    have ⟨l, hl, he⟩ := List.prefix_filter_iff.mp hr
    exact he ▸ h l hl
  case mpr =>
    intro h rs hr
    exact h _ <| List.IsPrefix.filter _ hr

-- After each of the runs, the mean and the spread of the CPU times of a test are as stored, and as told
-- by the standard deviation.
theorem cpuTimes_right_iff (runs : List StatsUpdate) (nameId : Nat) :
    ((∀ rs, rs <+: runs → CpuTimesStored (runsOf nameId rs) ((ran rs).entry nameId)) ↔
      InStep (runsOf nameId runs)) ∧
    ((∀ rs, rs <+: runs → CpuTimesStored (runsOf nameId rs) ((ran rs).entry nameId) ∧
        SpreadTold (runsOf nameId rs) ((ran rs).entry nameId)) ↔
      Even (runsOf nameId runs)) := by
  simp only [entry_ran]
  refine ⟨?_, ?_⟩
  case refine_1 => exact forall_prefix_runsOf.trans <| cpuTimesStored_iff nameId _
  case refine_2 => exact forall_prefix_runsOf.trans <| told_iff nameId _

-- A run without a CPU time, then one of a minute.
theorem half_a_minute :
    let runs : List StatsUpdate := [{ nameId := 0, status := histStatusOk, ts := 1 },
      { nameId := 0, status := histStatusOk, ts := 2, cpuTime := some 60 }]
    cpuTimes (runsOf 0 runs) = [60] ∧ ((ran runs).entry 0).meanCpuTime = 30 ∧
    ¬CpuTimesStored (runsOf 0 runs) ((ran runs).entry 0) := by
  refine ⟨by decide +kernel, by decide +kernel, fun h => ?_⟩
  exact absurd h.mean (by decide +kernel)

end TestStatsTable
