import Covsight.Lib.Call
import Covsight.Ncdb.Theorems.StatsRuns

-- Statistics that are stored and loaded between the runs of the tests.

namespace TestStatsTable

variable {tbl tbl' : TestStatsTable} {e : TestStatsEntry}

-- The entry of a name, also where the table does not reach it.
def entry (tbl : TestStatsTable) (i : Nat) : TestStatsEntry :=
  tbl.entries[i]?.getD { nameId := i }

theorem length_ensure (tbl : TestStatsTable) (nameId : Nat) :
    (tbl.ensure nameId).entries.length = max tbl.entries.length (nameId + 1) := by
  simp only [ensure, List.length_append, List.length_map, List.length_range']
  omega

theorem entry_ensure (tbl : TestStatsTable) (nameId i : Nat) : (tbl.ensure nameId).entry i = tbl.entry i := by
  by_cases hi : i < tbl.entries.length
  case pos => simp [entry, ensure, List.getElem?_append_left hi]
  case neg =>
    have hi := not_lt.mp hi
    rw [entry, entry, ensure, List.getElem?_append_right hi, List.getElem?_eq_none hi]
    by_cases hl : i - tbl.entries.length < nameId + 1 - tbl.entries.length
    case pos => simp [hl, Nat.add_sub_cancel' hi]
    case neg => simp [hl]

theorem length_run (tbl : TestStatsTable) (u : StatsUpdate) :
    (tbl.run u).entries.length = max tbl.entries.length (u.nameId + 1) :=
  (List.length_modify ..).trans <| length_ensure tbl u.nameId

theorem entry_run (tbl : TestStatsTable) (u : StatsUpdate) (i : Nat) : (tbl.run u).entry i =
    if i = u.nameId then (tbl.entry i).update u.status u.ts u.cpuTime u.seedId else tbl.entry i := by
  rw [← entry_ensure tbl u.nameId, entry, entry, run, update, List.getElem?_modify]
  have hl := length_ensure tbl u.nameId
  split
  case isTrue h  =>
    subst h
    have hi : u.nameId < (tbl.ensure u.nameId).entries.length := by omega
    simp [List.getElem?_eq_getElem hi]
  case isFalse h => simp [Ne.symm h]

theorem mem_entries (h : e ∈ tbl.entries) : ∃ i, tbl.entry i = e := by
  have ⟨i, hi, he⟩ := List.mem_iff_getElem.mp h
  exact ⟨i, by simp [entry, List.getElem?_eq_getElem hi, he]⟩

theorem map_integers_ext (hl : tbl.entries.length = tbl'.entries.length)
    (h : ∀ i, (tbl.entry i).integers = (tbl'.entry i).integers) :
    tbl.entries.map (·.integers) = tbl'.entries.map (·.integers) := by
  refine List.ext_getElem (by simpa using hl) fun i hi hi' => ?_
  rw [List.length_map] at hi hi'
  have h := h i
  rw [entry, entry, List.getElem?_eq_getElem hi, List.getElem?_eq_getElem hi'] at h
  simpa using h

-- What fits is stored, and all but the seeds comes back.
theorem reloaded_of_packs (hl : tbl.entries.length < 2 ^ 32)
    (hp : ∀ i, (tbl.entry i).packs ∧ (tbl.entry i).packsFloats) : ∃ tbl', tbl.reloaded = some tbl' ∧
    tbl'.entries.length = tbl.entries.length ∧
    ∀ i, tbl'.entry i = { tbl.entry i with nameId := i, knownSeeds := [] } := by
  have hpack : ∀ e ∈ tbl.entries, e.packs ∧ e.packsFloats := fun e he =>
    have ⟨i, hi⟩ := mem_entries he
    hi ▸ hp i
  have hi : tbl.entries.all (·.packs) := List.all_eq_true.mpr fun e he => (hpack e he).left
  have hf : tbl.entries.all (·.packsFloats) := List.all_eq_true.mpr fun e he => (hpack e he).right
  refine ⟨_, (if_pos hf).trans <| if_pos ⟨hl, hi⟩, by simp, fun i => ?_⟩
  by_cases hi : i < tbl.entries.length
  case pos => simp [entry, hi]
  case neg => simp [entry, not_lt.mp hi]

end TestStatsTable

namespace TestStatsEntry

variable {e e₀ : TestStatsEntry} {status : Nat} {ts : Int} {cpuTime : Option Rat} {seedId : Option Nat}

theorem integers_updateCounts (h : e.integers = e₀.integers) :
    (e.updateCounts status ts).integers = (e₀.updateCounts status ts).integers := by
  simp only [integers, StatsIntegers.mk.injEq] at h
  obtain ⟨hn, ht, hp, hf, he, hft, hlt, hg, htc, hs, hst, hss⟩ := h
  simp only [integers, updateCounts, hn, ht, hp, hf, he, hft, hlt, hg, htc, hs, hst, hss]

theorem knownSeeds_update : (e.update status ts cpuTime seedId).knownSeeds = match seedId with
    | none      => e.knownSeeds
    | some seed => e.knownSeeds.insert seed := by
  cases cpuTime <;> cases seedId <;> rfl

theorem totalSeedsSeen_update : (e.update status ts cpuTime seedId).totalSeedsSeen = match seedId with
    | none      => e.totalSeedsSeen
    | some seed => (e.knownSeeds.insert seed).length := by
  cases cpuTime <;> cases seedId <;> rfl

-- What an entry has room for.

structure Takes (e : TestStatsEntry) (u : StatsUpdate) : Prop where
  totalRuns : e.totalRuns + 1 < 2 ^ 32
  ts        : u.ts < 2 ^ 32
  firstTs   : e.totalRuns = 0 → 0 ≤ u.ts
  status    : u.status < 2 ^ 8
  streak    : if u.status = histStatusOk then e.streak + 1 < 2 ^ 15 else -2 ^ 15 < e.streak
  seedId    : ∀ seed, u.seedId = some seed → seed ∈ e.knownSeeds ∨ e.knownSeeds.length + 1 < 2 ^ 16
  cpuTime   : ∀ t, u.cpuTime = some t → let mean := e.meanCpuTime + (t - e.meanCpuTime) / (e.totalRuns + 1 : Nat)
    packsFloat mean ∧ packsFloat (e.m2CpuTime + (t - e.meanCpuTime) * (t - mean))

structure Packed (e : TestStatsEntry) : Prop where
  sound  : e.Sound
  packs  : e.packs
  floats : e.packsFloats

theorem packed_empty (nameId : Nat) : Packed { nameId } where
  sound  := sound_empty nameId
  packs  := rfl
  floats := by norm_num [packsFloats, packsFloat]

theorem packsFloat_of_le {x : Rat} (h : 0 ≤ x ∧ x ≤ cusumH) : packsFloat x := by
  have hx : |x| ≤ 4 := (abs_of_nonneg h.left).trans_le h.right
  exact decide_eq_true <| hx.trans_lt (by norm_num)

theorem packsFloat_of_le_one {x : Rat} (h : 0 ≤ x ∧ x ≤ 1) : packsFloat x :=
  packsFloat_of_le ⟨h.left, h.right.trans (by norm_num [cusumH])⟩

theorem failRate_bounds (h : e.Sound) : 0 ≤ (e.failCount / e.totalRuns : Rat) ∧ (e.failCount / e.totalRuns : Rat) ≤ 1 := by
  have hc := h.counts
  have hf : (e.failCount : Rat) ≤ e.totalRuns := by exact_mod_cast (by omega : e.failCount ≤ e.totalRuns)
  exact ⟨by positivity, div_le_one_of_le₀ hf (Nat.cast_nonneg _)⟩

variable {u : StatsUpdate}

theorem packsFloats_iff : e.packsFloats ↔ packsFloat e.flakeScore ∧ packsFloat e.failRate ∧
    packsFloat e.meanCpuTime ∧ packsFloat e.m2CpuTime ∧ packsFloat e.cusumValue ∧ packsFloat e.cusumRefMean ∧
    packsFloat e.gradeScore := by
  simp [packsFloats]

theorem packsFloats_update (h : e.Packed) (ht : e.Takes u) :
    (e.update u.status u.ts u.cpuTime u.seedId).packsFloats := by
  have hs : (e.update u.status u.ts u.cpuTime u.seedId).Sound := h.sound.update
  have hn : 0 < (e.update u.status u.ts u.cpuTime u.seedId).totalRuns := totalRuns_update ▸ Nat.succ_pos _
  have ⟨hf, hr, hg⟩ := hs.scored hn
  have ⟨_, _, hm, hm₂, _⟩ := packsFloats_iff.mp h.floats
  refine packsFloats_iff.mpr ⟨?_, ?_, ?_, ?_, ?_, ?_, ?_⟩
  case refine_1 => exact hf ▸ packsFloat_of_le_one (flake_bounds hs.transitions)
  case refine_2 => exact hr ▸ packsFloat_of_le_one (failRate_bounds hs)
  case refine_3 =>
    rw [meanCpuTime_update]
    cases hc : u.cpuTime with
    | none   => exact hm
    | some t => exact ht.cpuTime t hc |>.left
  case refine_4 =>
    rw [m2CpuTime_update]
    cases hc : u.cpuTime with
    | none   => exact hm₂
    | some t => exact ht.cpuTime t hc |>.right
  case refine_5 => exact packsFloat_of_le hs.cusumValue
  case refine_6 => exact packsFloat_of_le_one hs.refMean
  case refine_7 => exact hg ▸ packsFloat_of_le_one (grade_bounds hs)

theorem totalSeedsSeen_lt (h : e.packs) (ht : e.Takes u) (hk : e.knownSeeds.length ≤ e.totalSeedsSeen) :
    (e.update u.status u.ts u.cpuTime u.seedId).totalSeedsSeen < 2 ^ 16 := by
  simp only [packs, decide_eq_true_eq] at h
  rw [totalSeedsSeen_update]
  cases hs : u.seedId with
  | none      => exact h.right.right.right.right.right.right.right.right.right.right
  | some seed =>
    by_cases hm : seed ∈ e.knownSeeds
    case pos =>
      simp only [List.insert_of_mem hm]
      omega
    case neg =>
      have hl := ht.seedId seed hs |>.resolve_left hm
      simpa only [List.insert_of_not_mem hm, List.length_cons] using hl

theorem packs_update (h : e.Packed) (ht : e.Takes u) (hk : e.knownSeeds.length ≤ e.totalSeedsSeen) :
    (e.update u.status u.ts u.cpuTime u.seedId).packs := by
  have hi := integers_update e u.status u.ts u.cpuTime u.seedId
  simp only [integers, StatsIntegers.mk.injEq] at hi
  obtain ⟨-, ht', hp, hf, he, hft, hlt, hg, htc, hs, hst, -⟩ := hi
  have hseeds := totalSeedsSeen_lt h.packs ht hk
  have hold := h.packs
  have hc := h.sound.counts
  have htr := h.sound.transitions
  have hl := h.sound.lastTs
  have hlg := h.sound.lastGreenTs
  have hn := ht.totalRuns
  have hts := ht.ts
  have hts' := ht.firstTs
  have hst' := ht.status
  have hstr := ht.streak
  simp only [packs, decide_eq_true_eq] at hold ⊢
  rw [ht', hp, hf, he, hft, hlt, hg, htc, hs, hst]
  simp only [updateCounts]
  refine ⟨hn, ?_, ?_, ?_, ?_, ?_, ?_, ?_, ?_, hst', hseeds⟩
  case refine_5 => omega
  case refine_8 =>
    by_cases hok : u.status = histStatusOk
    case pos =>
      rw [if_pos hok] at hstr ⊢
      split <;> omega
    case neg =>
      rw [if_neg hok] at hstr ⊢
      split <;> omega
  all_goals split <;> omega

theorem Packed.update (h : e.Packed) (ht : e.Takes u) (hk : e.knownSeeds.length ≤ e.totalSeedsSeen) :
    (e.update u.status u.ts u.cpuTime u.seedId).Packed where
  sound  := h.sound.update
  packs  := packs_update h ht hk
  floats := packsFloats_update h ht

theorem Packed.reload (h : e.Packed) : { e with knownSeeds := [] }.Packed :=
  { h with sound := h.sound.reload }

end TestStatsEntry

-- What is done with statistics. A reload cuts the runs.
inductive StatsStep
  | update (u : StatsUpdate)
  | reload

-- All runs so far and the table that was stored and loaded in between.
structure StatsRun where
  log   : List StatsUpdate := []
  table : TestStatsTable := {}

namespace StatsStep

def apply : StatsStep → StatsRun → StatsRun
  | update u, s => ⟨s.log ++ [u], s.table.run u⟩
  | reload,   s => { s with table := s.table.reloaded.getD s.table }

-- The seeds of a test that the log has are still known when another one comes.
def KnowsSeeds (s : StatsRun) (u : StatsUpdate) : Prop :=
  ∀ seed, u.seedId = some seed → ∀ u' ∈ s.log, u'.nameId = u.nameId → ∀ seed', u'.seedId = some seed' →
    seed' = seed ∨ seed' ∈ (s.table.entry u.nameId).knownSeeds

def Keeps (s : StatsRun) : StatsStep → Prop
  | update u => u.nameId + 1 < 2 ^ 32 ∧ (s.table.entry u.nameId).Takes u ∧ KnowsSeeds s u
  | reload   => True

end StatsStep

namespace StatsRun

-- The table of the same runs without a cut.
def uninterrupted (s : StatsRun) : TestStatsTable :=
  s.log.foldl TestStatsTable.run {}

structure Transparent (s : StatsRun) : Prop where
  stored   : s.table.reloaded.isSome
  integers : s.table.entries.map (·.integers) = s.uninterrupted.entries.map (·.integers)

-- An entry beside the one that was never stored.
structure Tracks (log : List StatsUpdate) (nameId : Nat) (e e₀ : TestStatsEntry) : Prop where
  packed   : e.Packed
  named    : e.nameId = nameId
  integers : e.integers = e₀.integers
  known    : e.knownSeeds ⊆ e₀.knownSeeds
  nodup    : e.knownSeeds.Nodup
  nodup₀   : e₀.knownSeeds.Nodup
  seeds    : ∀ seed, seed ∈ e₀.knownSeeds ↔ ∃ u ∈ log, u.nameId = nameId ∧ u.seedId = some seed
  count    : e₀.totalSeedsSeen = e₀.knownSeeds.length

namespace Tracks

variable {log : List StatsUpdate} {nameId : Nat} {e e₀ : TestStatsEntry} {u : StatsUpdate}

theorem empty (nameId : Nat) : Tracks [] nameId { nameId } { nameId } where
  packed   := TestStatsEntry.packed_empty nameId
  named    := rfl
  integers := rfl
  known    := List.Subset.refl _
  nodup    := .nil
  nodup₀   := .nil
  seeds    := by simp
  count    := rfl

theorem length_le (h : Tracks log nameId e e₀) : e.knownSeeds.length ≤ e.totalSeedsSeen := by
  have hs : e.totalSeedsSeen = e₀.totalSeedsSeen := congrArg StatsIntegers.totalSeedsSeen h.integers
  rw [hs, h.count]
  exact (h.nodup.subperm h.known).length_le

theorem reload (h : Tracks log nameId e e₀) : Tracks log nameId { e with nameId, knownSeeds := [] } e₀ where
  packed   := by
    have hr := h.packed.reload
    rwa [h.named] at hr
  named    := rfl
  integers := h.named ▸ h.integers
  known    := List.nil_subset _
  nodup    := .nil
  nodup₀   := h.nodup₀
  seeds    := h.seeds
  count    := h.count

-- The run of another test.
theorem other (h : Tracks log nameId e e₀) (hu : nameId ≠ u.nameId) : Tracks (log ++ [u]) nameId e e₀ :=
  { h with
    seeds := fun seed => by
      rw [h.seeds]
      simp [hu.symm] }

-- As many seeds, whether the known ones were lost or not.
theorem length_insert (h : Tracks log nameId e e₀) {seed : Nat} (hk : ∀ u' ∈ log, u'.nameId = nameId →
    ∀ seed', u'.seedId = some seed' → seed' = seed ∨ seed' ∈ e.knownSeeds) :
    (e.knownSeeds.insert seed).length = (e₀.knownSeeds.insert seed).length := by
  have hp : (e.knownSeeds.insert seed).Perm (e₀.knownSeeds.insert seed) := by
    refine (List.perm_ext_iff_of_nodup h.nodup.insert h.nodup₀.insert).mpr fun seed' => ?_
    rw [List.mem_insert_iff, List.mem_insert_iff]
    refine ⟨fun hm => hm.imp_right (h.known ·), fun hm => hm.elim .inl fun hm => ?_⟩
    have ⟨u', hu, hn, hs'⟩ := h.seeds seed' |>.mp hm
    exact hk u' hu hn seed' hs'
  exact hp.length_eq

theorem integers_update (h : Tracks log nameId e e₀)
    (hs : (e.updateSeeds u.seedId).totalSeedsSeen = (e₀.updateSeeds u.seedId).totalSeedsSeen) :
    (e.update u.status u.ts u.cpuTime u.seedId).integers = (e₀.update u.status u.ts u.cpuTime u.seedId).integers := by
  rw [TestStatsEntry.integers_update, TestStatsEntry.integers_update, hs,
    TestStatsEntry.integers_updateCounts h.integers]

theorem update (h : Tracks log u.nameId e e₀) (ht : e.Takes u)
    (hk : ∀ seed, u.seedId = some seed → ∀ u' ∈ log, u'.nameId = u.nameId → ∀ seed', u'.seedId = some seed' →
      seed' = seed ∨ seed' ∈ e.knownSeeds) :
    Tracks (log ++ [u]) u.nameId (e.update u.status u.ts u.cpuTime u.seedId)
      (e₀.update u.status u.ts u.cpuTime u.seedId) := by
  have hi := TestStatsEntry.integers_update e u.status u.ts u.cpuTime u.seedId
  have hp := h.packed.update ht h.length_le
  have hn := (congrArg StatsIntegers.nameId hi).trans h.named
  have hlog (seed : Nat) : (∃ u' ∈ log ++ [u], u'.nameId = u.nameId ∧ u'.seedId = some seed) ↔
      u.seedId = some seed ∨ ∃ u' ∈ log, u'.nameId = u.nameId ∧ u'.seedId = some seed := by
    simp [or_and_right, exists_or, or_comm]
  cases hs : u.seedId with
  | none =>
    have hc : e.totalSeedsSeen = e₀.totalSeedsSeen := congrArg StatsIntegers.totalSeedsSeen h.integers
    have hi := h.integers_update (u := u) (hs ▸ hc)
    rw [hs] at hp hn hi
    refine ⟨hp, hn, hi, ?_, ?_, ?_, fun seed => ?_, ?_⟩
    all_goals simp only [TestStatsEntry.knownSeeds_update, TestStatsEntry.totalSeedsSeen_update]
    case refine_1 => exact h.known
    case refine_2 => exact h.nodup
    case refine_3 => exact h.nodup₀
    case refine_4 => simp only [hlog, h.seeds, hs, reduceCtorEq, false_or]
    case refine_5 => exact h.count
  | some seed =>
    have hi := h.integers_update (u := u) (hs ▸ h.length_insert (hk seed hs))
    rw [hs] at hp hn hi
    refine ⟨hp, hn, hi, ?_, ?_, ?_, fun seed' => ?_, ?_⟩
    all_goals simp only [TestStatsEntry.knownSeeds_update, TestStatsEntry.totalSeedsSeen_update]
    case refine_1 =>
      intro seed' hm
      rw [List.mem_insert_iff] at hm ⊢
      exact hm.imp_right (h.known ·)
    case refine_2 => exact h.nodup.insert
    case refine_3 => exact h.nodup₀.insert
    case refine_4 => rw [hlog, List.mem_insert_iff, h.seeds, hs, Option.some_inj, @eq_comm _ seed seed']

end Tracks

-- The cut runs beside those without a cut.
structure Tracked (s : StatsRun) : Prop where
  length  : s.table.entries.length = s.uninterrupted.entries.length
  fits    : s.table.entries.length < 2 ^ 32
  entries : ∀ i, Tracks s.log i (s.table.entry i) (s.uninterrupted.entry i)

variable {s : StatsRun} {u : StatsUpdate}

theorem uninterrupted_update : (StatsStep.apply (.update u) s).uninterrupted = s.uninterrupted.run u :=
  List.foldl_append ..

theorem tracked_empty : Tracked {} where
  length    := rfl
  fits      := by decide
  entries i := Tracks.empty i

namespace Tracked

theorem update (h : s.Tracked) (hk : StatsStep.Keeps s (.update u)) : (StatsStep.apply (.update u) s).Tracked where
  length    := by rw [uninterrupted_update, TestStatsTable.length_run, ← h.length, StatsStep.apply,
    TestStatsTable.length_run]
  fits      := by
    rw [StatsStep.apply, TestStatsTable.length_run]
    exact max_lt h.fits hk.left
  entries i := by
    rw [uninterrupted_update, TestStatsTable.entry_run, StatsStep.apply, TestStatsTable.entry_run]
    split
    case isTrue hi  => exact hi ▸ (h.entries u.nameId).update hk.right.left hk.right.right
    case isFalse hi => exact (h.entries i).other hi

theorem reloaded (h : s.Tracked) : ∃ tbl, s.table.reloaded = some tbl ∧
    tbl.entries.length = s.table.entries.length ∧
    ∀ i, tbl.entry i = { s.table.entry i with nameId := i, knownSeeds := [] } :=
  TestStatsTable.reloaded_of_packs h.fits fun i => ⟨(h.entries i).packed.packs, (h.entries i).packed.floats⟩

theorem reload (h : s.Tracked) : (StatsStep.apply .reload s).Tracked := by
  have ⟨tbl, ht, hl, he⟩ := h.reloaded
  have ha : StatsStep.apply .reload s = { s with table := tbl } := by rw [StatsStep.apply, ht, Option.getD_some]
  rw [ha]
  exact {
    length    := hl.trans h.length
    fits      := hl ▸ h.fits
    entries i := he i ▸ (h.entries i).reload
  }

theorem transparent (h : s.Tracked) : s.Transparent where
  stored   := by
    have ⟨_, ht, _⟩ := h.reloaded
    exact ht ▸ rfl
  integers := TestStatsTable.map_integers_ext h.length fun i => (h.entries i).integers

end Tracked

theorem tracked_apply (step : StatsStep) (h : s.Tracked) (hk : step.Keeps s) : (step.apply s).Tracked := by
  cases step
  case update => exact h.update hk
  case reload => exact h.reload

-- Where each run fits and no seed of its test was forgotten before it, cuts change nothing.
theorem statistics_transparent (h : ReachedBy StatsStep.apply StatsStep.Keeps {} s) : s.Transparent :=
  h.invariant tracked_empty (fun _ step => tracked_apply step) |>.transparent

-- A nightly test that is run with one seed.
theorem statistics_transparent_nightly :
    let passed : StatsUpdate := { nameId := 0, status := histStatusOk, ts := 10, cpuTime := some 2, seedId := some 7 }
    let failed : StatsUpdate := { nameId := 0, status := histStatusFail, ts := 20, cpuTime := some 4, seedId := some 7 }
    (StatsStep.apply (.update failed) (StatsStep.apply .reload (StatsStep.apply (.update passed) {}))).Transparent := by
  intro passed failed
  have hpassed : StatsStep.Keeps {} (.update passed) := by
    refine ⟨by decide, ⟨by decide, by decide, by decide, by decide, by decide, fun _ _ => .inr (by decide), ?_⟩,
      fun _ _ _ hu => absurd hu List.not_mem_nil⟩
    rintro _ ⟨⟩
    decide +kernel
  have hreached : ReachedBy StatsStep.apply StatsStep.Keeps {} (StatsStep.apply .reload _) :=
    .step StatsStep.reload (.step (StatsStep.update passed) .start hpassed) trivial
  have hfailed : StatsStep.Keeps (StatsStep.apply .reload (StatsStep.apply (.update passed) {})) (.update failed) := by
    refine ⟨by decide, ⟨by decide +kernel, by decide, by decide +kernel, by decide, by decide +kernel,
      fun _ _ => .inr (by decide +kernel), ?_⟩, ?_⟩
    case refine_1 =>
      rintro _ ⟨⟩
      decide +kernel
    case refine_2 =>
      rintro _ ⟨⟩ u' hu _ _ hs
      cases List.mem_singleton.mp hu
      exact .inl (Option.some_inj.mp hs.symm)
  exact statistics_transparent <| hreached.step (.update failed) hfailed

-- Of two seeds the first one is forgotten in between.
theorem seeds_forgotten :
    let first : StatsUpdate := { nameId := 0, status := histStatusOk, ts := 10, seedId := some 1 }
    let second : StatsUpdate := { nameId := 0, status := histStatusOk, ts := 20, seedId := some 2 }
    ¬(StatsStep.apply (.update second) (StatsStep.apply .reload (StatsStep.apply (.update first) {}))).Transparent :=
  fun h => absurd h.integers (by decide +kernel)

end StatsRun
