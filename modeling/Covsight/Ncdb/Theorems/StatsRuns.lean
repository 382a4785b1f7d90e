import Covsight.Ncdb.MergeV2History
import Covsight.Ncdb.TestStats
import Mathlib.Algebra.Order.Field.Basic
import Mathlib.Data.Rat.Cast.Order
import Mathlib.Tactic.FieldSimp
import Mathlib.Tactic.Linarith
import Mathlib.Tactic.Positivity

-- What holds of the statistics of a test however its runs came in.

namespace TestStatsEntry

-- The entries that a test can get, with the runs they stand for. Sources without a run are not merged.
inductive StatsOf : List StatsUpdate → TestStatsEntry → Prop
  | empty (nameId : Nat) : StatsOf [] { nameId }
  | update (h : StatsOf runs e) (u : StatsUpdate) :
    StatsOf (runs ++ [u]) (e.update u.status u.ts u.cpuTime u.seedId)
  | reload (h : StatsOf runs e) : StatsOf runs { e with knownSeeds := [] }
  | merge (hd : StatsOf runs dst) (hs : StatsOf runs' src) (hn : 0 < src.totalRuns) (nameId : Nat) :
    StatsOf (runs ++ runs') (mergeStatsEntry dst src nameId)

variable {e e' : TestStatsEntry} {status : Nat} {ts : Int} {cpuTime : Option Rat} {seedId : Option Nat}

-- Scores by the counts.

def flake (e : TestStatsEntry) : Rat :=
  e.transitionCount / (max (e.totalRuns - 1) 1 : Nat)

def grade (e : TestStatsEntry) : Rat :=
  e.passCount / e.totalRuns * (1 - e.flake) * if e.meanCpuTime > 0 then max 0 (1 - e.meanCpuTime / 3600) else 1

structure Sound (e : TestStatsEntry) : Prop where
  counts      : e.passCount + e.failCount + e.errorCount = e.totalRuns
  transitions : e.transitionCount ≤ e.totalRuns - 1
  lastTs      : 0 ≤ e.lastTs
  lastGreenTs : 0 ≤ e.lastGreenTs
  cusumValue  : 0 ≤ e.cusumValue ∧ e.cusumValue ≤ cusumH
  refMean     : 0 ≤ e.cusumRefMean ∧ e.cusumRefMean ≤ 1
  scored      : 0 < e.totalRuns →
    e.flakeScore = e.flake ∧ e.failRate = e.failCount / e.totalRuns ∧ e.gradeScore = e.grade
  fresh       : e.totalRuns = 0 → e = { nameId := e.nameId }

theorem sound_empty (nameId : Nat) : Sound { nameId } where
  counts      := rfl
  transitions := Nat.le_refl 0
  lastTs      := Int.le_refl 0
  lastGreenTs := Int.le_refl 0
  cusumValue  := by simp [cusumH]
  refMean     := by simp
  scored h    := absurd h (Nat.lt_irrefl 0)
  fresh _     := rfl

theorem flake_bounds (h : e.transitionCount ≤ e.totalRuns - 1) : 0 ≤ e.flake ∧ e.flake ≤ 1 := by
  have hm : (0 : Rat) < (max (e.totalRuns - 1) 1 : Nat) := by
    exact_mod_cast Nat.lt_of_lt_of_le Nat.zero_lt_one (Nat.le_max_right ..)
  have hle : (e.transitionCount : Rat) ≤ (max (e.totalRuns - 1) 1 : Nat) := by
    exact_mod_cast h.trans (Nat.le_max_left ..)
  exact ⟨div_nonneg (Nat.cast_nonneg _) hm.le, (div_le_one hm).mpr hle⟩

theorem grade_bounds (h : e.Sound) : 0 ≤ e.grade ∧ e.grade ≤ 1 := by
  have ⟨hf, hf'⟩ := flake_bounds h.transitions
  have hc := h.counts
  have hp : (e.passCount : Rat) ≤ e.totalRuns := by exact_mod_cast (by omega : e.passCount ≤ e.totalRuns)
  have hr : (e.passCount : Rat) / e.totalRuns ≤ 1 := div_le_one_of_le₀ hp (Nat.cast_nonneg _)
  have hr' : 0 ≤ (e.passCount : Rat) / e.totalRuns := by positivity
  have hs : 0 ≤ (e.passCount : Rat) / e.totalRuns * (1 - e.flake) := mul_nonneg hr' (by linarith)
  have hs' : (e.passCount : Rat) / e.totalRuns * (1 - e.flake) ≤ 1 :=
    mul_le_one₀ hr (by linarith) (by linarith)
  rw [grade]
  split
  case isTrue hm =>
    have hle : 1 - e.meanCpuTime / 3600 ≤ 1 := by linarith [div_pos hm (by norm_num : (0 : Rat) < 3600)]
    exact ⟨mul_nonneg hs (le_max_left ..), mul_le_one₀ hs' (le_max_left ..) (max_le zero_le_one hle)⟩
  case isFalse   => exact ⟨by rwa [mul_one], by rwa [mul_one]⟩

-- The scores are those by the counts, whatever came before.
theorem scored_update : let e' := e.update status ts cpuTime seedId
    e'.flakeScore = e'.flake ∧ e'.failRate = e'.failCount / e'.totalRuns ∧ e'.gradeScore = e'.grade := by
  cases cpuTime <;> cases seedId <;> exact ⟨rfl, rfl, rfl⟩

theorem integers_update (e : TestStatsEntry) (status : Nat) (ts : Int) (cpuTime : Option Rat)
    (seedId : Option Nat) : (e.update status ts cpuTime seedId).integers =
    { (e.updateCounts status ts).integers with
      totalSeedsSeen := (e.updateSeeds seedId).totalSeedsSeen } := by
  cases cpuTime <;> cases seedId <;> rfl

theorem totalRuns_update : (e.update status ts cpuTime seedId).totalRuns = e.totalRuns + 1 :=
  congrArg StatsIntegers.totalRuns <| integers_update e status ts cpuTime seedId

theorem meanCpuTime_update : (e.update status ts cpuTime seedId).meanCpuTime = match cpuTime with
    | none   => e.meanCpuTime
    | some t => e.meanCpuTime + (t - e.meanCpuTime) / (e.totalRuns + 1 : Nat) := by
  cases cpuTime <;> cases seedId <;> rfl

theorem m2CpuTime_update : (e.update status ts cpuTime seedId).m2CpuTime = match cpuTime with
    | none   => e.m2CpuTime
    | some t => e.m2CpuTime + (t - e.meanCpuTime) *
      (t - (e.meanCpuTime + (t - e.meanCpuTime) / (e.totalRuns + 1 : Nat))) := by
  cases cpuTime <;> cases seedId <;> rfl

theorem cusumValue_update (e : TestStatsEntry) (status : Nat) (ts : Int) (cpuTime : Option Rat)
    (seedId : Option Nat) : ∃ value : Rat, 0 ≤ value ∧
    (e.update status ts cpuTime seedId).cusumValue = if value > cusumH then 0 else value := by
  refine ⟨max 0 ((e.updateCounts status ts).cusumValue + (if status = histStatusFail then 1 else 0) -
    ((e.updateCounts status ts).cusumRefMean + cusumK)), le_max_left .., ?_⟩
  cases cpuTime <;> cases seedId <;> rfl

theorem cusumRefMean_update : (e.update status ts cpuTime seedId).cusumRefMean =
    (e.updateCounts status ts).cusumRefMean := by
  cases cpuTime <;> cases seedId <;> rfl

theorem Sound.update (h : e.Sound) : (e.update status ts cpuTime seedId).Sound := by
  have hi := integers_update e status ts cpuTime seedId
  have htotal := congrArg StatsIntegers.totalRuns hi
  have htrans := congrArg StatsIntegers.transitionCount hi
  have hpass := congrArg StatsIntegers.passCount hi
  have hfail := congrArg StatsIntegers.failCount hi
  have herror := congrArg StatsIntegers.errorCount hi
  have hlast := congrArg StatsIntegers.lastTs hi
  have hgreen := congrArg StatsIntegers.lastGreenTs hi
  simp only [integers, updateCounts] at htotal htrans hpass hfail herror hlast hgreen
  have hc := h.counts
  have ht := h.transitions
  refine ⟨?_, ?_, ?_, ?_, ?_, ?_, fun _ => scored_update, fun hz => ?_⟩
  case refine_1 =>
    rw [hpass, hfail, herror, htotal]
    by_cases ho : status = histStatusOk
    case pos =>
      have hf : ¬histStatusOk = histStatusFail := by decide
      rw [ho, if_pos rfl, if_neg hf, if_pos (.inl rfl)]
      omega
    case neg =>
      simp only [ho, if_false, false_or]
      split <;> omega
  case refine_2 =>
    rw [htrans, htotal]
    split <;> omega
  case refine_3 => exact hlast ▸ le_max_of_le_left h.lastTs
  case refine_4 =>
    rw [hgreen]
    split
    case isTrue  => exact le_max_of_le_left h.lastGreenTs
    case isFalse => exact h.lastGreenTs
  case refine_5 =>
    have ⟨value, hv, he⟩ := cusumValue_update e status ts cpuTime seedId
    rw [he]
    split
    case isTrue     => exact ⟨le_rfl, by simp [cusumH]⟩
    case isFalse hn => exact ⟨hv, not_lt.mp hn⟩
  case refine_6 =>
    rw [cusumRefMean_update]
    by_cases hz : e.totalRuns = 0
    case pos =>
      simp only [updateCounts, if_pos hz]
      split <;> simp
    case neg =>
      simp only [updateCounts, if_neg hz]
      exact h.refMean
  case refine_7 =>
    rw [htotal] at hz
    exact absurd hz (Nat.succ_ne_zero _)

-- What is lost when the entry is stored.
theorem Sound.reload (h : e.Sound) : { e with knownSeeds := [] }.Sound :=
  { h with
    fresh := fun hz => by rw [h.fresh hz] }

section

variable {dst src : TestStatsEntry} (hd : dst.Sound) (hs : src.Sound) (nameId : Nat)
include hd hs

theorem counts_merge : let e := mergeStatsEntry dst src nameId
    e.passCount + e.failCount + e.errorCount = e.totalRuns := by
  have hc := hd.counts
  have hc' := hs.counts
  simp only [mergeStatsEntry]
  omega

theorem transitions_merge : let e := mergeStatsEntry dst src nameId
    e.transitionCount ≤ e.totalRuns - 1 := by
  have ht := hd.transitions
  have ht' := hs.transitions
  simp only [mergeStatsEntry]
  omega

theorem Sound.merge (hn : 0 < src.totalRuns) : (mergeStatsEntry dst src nameId).Sound where
  counts      := counts_merge hd hs nameId
  transitions := transitions_merge hd hs nameId
  lastTs      := le_max_of_le_left hd.lastTs
  lastGreenTs := le_max_of_le_left hd.lastGreenTs
  cusumValue  := ⟨le_max_of_le_left hd.cusumValue.left, max_le hd.cusumValue.right hs.cusumValue.right⟩
  refMean     := hd.refMean
  scored _    := by
    have ht : dst.totalRuns + src.totalRuns > 0 := Nat.add_pos_right _ hn
    simp only [mergeStatsEntry, if_pos ht, flake, grade, and_self]
  fresh hz    := absurd (Nat.add_eq_zero_iff.mp hz).right hn.ne'

end

namespace StatsOf

variable {runs : List StatsUpdate}

theorem sound (h : StatsOf runs e) : e.Sound := by
  induction h with
  | empty nameId           => exact sound_empty nameId
  | update _ _ hi          => exact hi.update
  | reload _ hi            => exact hi.reload
  | merge _ _ hn nameId hd hs => exact hd.merge hs nameId hn

theorem totalRuns_eq (h : StatsOf runs e) : e.totalRuns = runs.length := by
  induction h with
  | empty                => rfl
  | update _ _ hi        => rw [totalRuns_update, hi, List.length_append, List.length_singleton]
  | reload _ hi          => exact hi
  | merge _ _ _ _ hd hs  => rw [List.length_append, ← hd, ← hs]; rfl

end StatsOf

end TestStatsEntry
