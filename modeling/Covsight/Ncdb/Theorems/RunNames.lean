import Covsight.Ncdb.Theorems.Squash

-- When the name that a run is given automatically is free.

-- The name that stands for a number of runs.
def autoName (n : Nat) : String :=
  "run-" ++ zeroPadded 4 n

theorem ofDigitChars_zeroPadded (digits n : Nat) :
    Nat.ofDigitChars 10 (zeroPadded digits n).toList 0 = n := by
  rw [zeroPadded, String.toList_append, String.toList_ofList, Nat.ofDigitChars_append,
    Nat.ofDigitChars_replicate_zero, Nat.mul_zero]
  have hd : (toString n).toList = Nat.toDigits 10 n := String.toList_ofList
  rw [hd, Nat.ofDigitChars_ten_toDigits]

theorem autoName_injective : Function.Injective autoName := by
  intro m n h
  have hp := congrArg String.toList h
  rw [autoName, autoName, String.toList_append, String.toList_append] at hp
  rw [← ofDigitChars_zeroPadded 4 m, List.append_cancel_left hp, ofDigitChars_zeroPadded]

theorem autoName_ne_baseline (n : Nat) : autoName n ≠ baselineRunId := by
  intro h
  have hh : ("run-".toList ++ (zeroPadded 4 n).toList).head? = baselineRunId.toList.head? := by
    rw [← String.toList_append, ← autoName, h]
  exact nomatch hh

namespace RunTable

variable {table : RunTable} {entry : RunEntry}

-- The number of runs other than the baseline.
def numbered (table : RunTable) : Nat :=
  (table.runIds.filter (· ≠ baselineRunId)).length

-- The names of numbers are those of as many runs as there are.
def Orderly (table : RunTable) : Prop :=
  ∀ n, autoName n ∈ table.runIds → n < table.numbered

theorem upsertIn_of_not_mem {es : List RunEntry} (h : entry.runId ∉ es.map (·.runId)) :
    upsertIn entry es = es ++ [entry] := by
  induction es
  case nil => rfl
  case cons e es hi =>
    have ⟨hne, hn⟩ := not_or.mp (List.mem_cons.not.mp h)
    rw [upsertIn, if_neg (Ne.symm hne), hi hn, List.cons_append]

theorem map_upsertIn_of_mem {es : List RunEntry} (h : entry.runId ∈ es.map (·.runId)) :
    (upsertIn entry es).map (·.runId) = es.map (·.runId) := by
  induction es
  case nil => nomatch h
  case cons e es hi =>
    rw [upsertIn]
    split
    case isTrue he => rw [List.map_cons, List.map_cons, he]
    case isFalse he =>
      have hn := (List.mem_cons.mp h).resolve_left (Ne.symm he)
      rw [List.map_cons, List.map_cons, hi hn]

theorem runIds_upsert_of_mem (h : entry.runId ∈ table.runIds) :
    (table.upsert entry).runIds = table.runIds :=
  map_upsertIn_of_mem h

theorem runIds_upsert_of_not_mem (h : entry.runId ∉ table.runIds) :
    (table.upsert entry).runIds = table.runIds ++ [entry.runId] := by
  rw [runIds, upsert, upsertIn_of_not_mem h, List.map_append]
  rfl

-- A run keeps the table orderly if its name is of no more runs than there are.
theorem Orderly.upsert (h : table.Orderly) (hn : ∀ n, entry.runId = autoName n → n ≤ table.numbered) :
    (table.upsert entry).Orderly := by
  intro n hm
  by_cases he : entry.runId ∈ table.runIds
  case pos =>
    rw [numbered, runIds_upsert_of_mem he]
    rw [runIds_upsert_of_mem he] at hm
    exact h n hm
  case neg =>
    rw [numbered, runIds_upsert_of_not_mem he, List.filter_append, List.length_append]
    rw [runIds_upsert_of_not_mem he] at hm
    cases List.mem_append.mp hm
    case inl hm => exact Nat.lt_add_right _ (h n hm)
    case inr hm =>
      have hr := List.mem_singleton.mp hm
      have hb : entry.runId ≠ baselineRunId := hr ▸ autoName_ne_baseline n
      have hle := hn n hr.symm
      rw [numbered] at hle
      simpa [hb] using Nat.lt_succ_of_le hle

theorem Orderly.auto_fresh (h : table.Orderly) : autoName table.numbered ∉ table.runIds :=
  fun hm => Nat.lt_irrefl _ (h _ hm)

end RunTable

namespace Batch

variable {accel replace : Bool} {baselineWidth : Nat} {b b' : Batch}

theorem autoRunId_eq (b : Batch) : b.autoRunId = autoName b.table.numbered :=
  rfl

-- The names that are given for the runs of a batch are of no more runs than there are by then.
def OrderlyRuns (accel replace : Bool) (baselineWidth : Nat) : Batch → List Run → Prop
  | _, []          => True
  | b, run :: runs =>
    (∀ n, run.runId = some (autoName n) → n ≤ b.table.numbered) ∧
      ∀ b', b.append accel replace baselineWidth run = .ok b' →
        OrderlyRuns accel replace baselineWidth b' runs

theorem append_orderly {run : Run} (h : b.table.Orderly)
    (hr : ∀ n, run.runId = some (autoName n) → n ≤ b.table.numbered)
    (ha : b.append accel replace baselineWidth run = .ok b') : b'.table.Orderly := by
  have ⟨counts, _, hb⟩ := append_ok ha
  subst hb
  refine h.upsert fun n hn => ?_
  change run.runId.getD b.autoRunId = autoName n at hn
  cases hid : run.runId
  case some runId =>
    rw [hid] at hn
    exact hr n (hid.trans (congrArg some hn))
  case none =>
    rw [hid] at hn
    exact Nat.le_of_eq (autoName_injective hn).symm

theorem foldlM_orderly {runs : List Run} (h : b.table.Orderly)
    (hr : OrderlyRuns accel replace baselineWidth b runs)
    (ha : runs.foldlM (append accel replace baselineWidth) b = .ok b') : b'.table.Orderly := by
  induction runs generalizing b
  case nil =>
    cases ha
    exact h
  case cons run runs hi =>
    rw [List.foldlM_cons] at ha
    have ⟨hrun, hruns⟩ := hr
    cases hb : b.append accel replace baselineWidth run <;> rw [hb] at ha
    case error => cases ha
    case ok b₁ => exact hi (append_orderly h hrun hb) (hruns b₁ hb) ha

end Batch

namespace RunMembers

variable {accel : Bool} {a a' : RunMembers}

-- The counts are as many as the archive has, and they can be written.
def Accepts (accel : Bool) (a : RunMembers) (counts : Counts) : Prop :=
  ((a.counts.getD []).length ≠ 0 → counts.length = (a.counts.getD []).length) ∧
    (accel = true → ∀ c ∈ counts, c < 2 ^ 64)

theorem accepts_zeros (accel : Bool) (a : RunMembers) :
    a.Accepts accel (List.replicate (a.counts.getD []).length 0) := by
  refine ⟨fun _ => List.length_replicate, fun _ c hc => ?_⟩
  rw [List.eq_of_mem_replicate hc]
  decide

-- A run that is appended without a name gets a new one and leaves all others as they were.
def FreshAppend (accel : Bool) (a : RunMembers) : Prop :=
  ∀ (run : Run) (counts : Counts) (replace : Bool),
    run.runId = none → run.suppliedCounts = some counts → a.Accepts accel counts →
    ∃ a' entry, a.appendRun accel run replace = .ok (a', [entry.runId]) ∧
      entry.runId ∉ a.runIds ∧ a'.runTable.entries = a.runTable.entries ++ [entry] ∧
      a'.read entry.member = some counts ∧ a'.counts = a.counts ∧
      ∀ e ∈ a.runTable.entries, a'.read e.member = a.read e.member

theorem countsSerialize_of_accepts {counts : Counts} (h : a.Accepts accel counts) :
    countsSerialize accel counts = .ok counts := by
  rw [countsSerialize, if_neg]
  rintro ⟨ha, hc⟩
  obtain ⟨c, hm, hc⟩ := List.any_eq_true.mp hc
  have hlt := h.right ha c hm
  exact Nat.not_le_of_lt hlt (of_decide_eq_true hc)

-- Whether the run can be appended without a name depends on the name alone.
theorem append_auto {run : Run} {counts : Counts} {replace : Bool} (hid : run.runId = none)
    (hs : run.suppliedCounts = some counts) (hc : a.Accepts accel counts) :
    a.appendRun accel run replace =
      if autoName a.runTable.numbered ∈ a.runIds ∧ ¬replace then
        .error (.fileExists (autoName a.runTable.numbered))
      else
        let b := ({ table := a.runTable } : Batch).write (autoName a.runTable.numbered) counts run.fields
        .ok (a.rewrite b.newMembers b.table, [autoName a.runTable.numbered]) := by
  have hw : ¬((a.counts.getD []).length ≠ 0 ∧ counts.length ≠ (a.counts.getD []).length) :=
    fun h => h.right (hc.left h.left)
  have hm : (a.runTable.get (autoName a.runTable.numbered)).isSome ↔
      autoName a.runTable.numbered ∈ a.runIds := RunTable.get_isSome_iff
  rw [appendRun, appendRuns, List.foldlM_cons]
  simp only [Batch.append, hs, if_neg hw, hid, Option.getD_none, Batch.autoRunId_eq,
    countsSerialize_of_accepts hc]
  by_cases hmem : autoName a.runTable.numbered ∈ a.runIds ∧ ¬replace
  case pos =>
    rw [if_pos hmem, if_pos ⟨hm.mpr hmem.left, hmem.right⟩]
    rfl
  case neg =>
    rw [if_neg hmem, if_neg fun h => hmem ⟨hm.mp h.left, h.right⟩]
    rfl

theorem freshAppend_iff (accel : Bool) (a : RunMembers) :
    FreshAppend accel a ↔ autoName a.runTable.numbered ∉ a.runIds := by
  constructor
  case mp =>
    intro h hm
    have hzeros := accepts_zeros accel a
    have ⟨a', entry, ha, _⟩ := h { counts := List.replicate (a.counts.getD []).length 0 } _ false rfl
      rfl hzeros
    rw [append_auto rfl rfl hzeros, if_pos ⟨hm, nofun⟩] at ha
    cases ha
  case mpr =>
    intro hn run counts replace hid hs hc
    have hget : a.runTable.get (autoName a.runTable.numbered) = none := by
      rw [← Option.not_isSome_iff_eq_none, RunTable.get_isSome_iff]
      exact hn
    rw [append_auto hid hs hc, if_neg fun h => hn h.left]
    have hread := Batch.read_view_write (a := a) (b := { table := a.runTable })
      (autoName a.runTable.numbered) counts run.fields
    have hindex : (({ table := a.runTable } : Batch).entry (autoName a.runTable.numbered) counts
        run.fields).member = .run (nextMemberIndex a.runTable []) := by
      rw [Batch.entry, Batch.memberIndex]
      simp only [hget, Option.map_none]
    refine ⟨_, ({ table := a.runTable } : Batch).entry (autoName a.runTable.numbered) counts run.fields,
      rfl, hn, RunTable.upsertIn_of_not_mem hn, (hread _).trans (if_pos rfl), rfl, fun e he => ?_⟩
    refine (hread e.member).trans ((if_neg ?_).trans ?_)
    · rw [hindex]
      exact nextMemberIndex_fresh a.runTable [] e he
    · exact congrFun (read_rewrite_empty a a.runTable) e.member

-- Archives that are reached with orderly names only: those that are given, and those that a drop or
-- a squash leaves.
inductive OrderlyReachable (accel : Bool) : RunMembers → Prop
  | written {a counts} : Written a counts → OrderlyReachable accel a
  | append {a a' runs replace ids} :
    OrderlyReachable accel a → a.appendRuns accel runs replace = .ok (a', ids) →
    Batch.OrderlyRuns accel replace (a.counts.getD []).length { table := a.runTable } runs →
    OrderlyReachable accel a'
  | drop {a a' ids rem} :
    OrderlyReachable accel a → a.dropRuns ids = .ok (a', rem) →
    RunTable.Orderly ⟨a.runTable.entries.filter (·.runId ∉ ids)⟩ → OrderlyReachable accel a'
  | squash {a a' runs keepRecent policy keepRuns ts res} :
    OrderlyReachable accel a → a.squash accel runs keepRecent policy keepRuns ts = .ok (a', res) →
    RunTable.Orderly ⟨a.keptEntries (a.admittedRuns runs keepRecent policy) keepRuns⟩ →
    OrderlyReachable accel a'

theorem OrderlyReachable.reachable (h : OrderlyReachable accel a) : Reachable accel a := by
  induction h
  case written hw        => exact .written hw
  case append ha _ hi    => exact .append hi ha
  case drop hd _ hi      => exact .drop hi hd
  case squash hs _ hi    => exact .squash hi hs

theorem orderly_withBaseline {table : RunTable} (h : table.Orderly) : (withBaseline table).Orderly := by
  rw [withBaseline]
  split
  case isTrue => exact h
  case isFalse =>
    intro n hm
    have hm := (List.mem_cons.mp hm).resolve_left (autoName_ne_baseline n)
    have hlt := h n hm
    simpa [RunTable.numbered, RunTable.runIds] using hlt

theorem OrderlyReachable.orderly (h : OrderlyReachable accel a) : a.runTable.Orderly := by
  induction h
  case written a counts hw =>
    have ht : a.runTable = ⟨[{ runId := baselineRunId, member := .counts }]⟩ := by
      simp [runTable, hw.runs, hw.counts]
    intro n hm
    rw [ht] at hm
    exact absurd (List.mem_singleton.mp hm) (autoName_ne_baseline n)
  case append a a' runs replace ids _ ha hr hi =>
    rw [appendRuns] at ha
    cases hb : runs.foldlM (Batch.append accel replace (a.counts.getD []).length)
      { table := a.runTable } <;> simp only [hb] at ha <;> cases ha
    exact Batch.foldlM_orderly hi hr hb
  case drop a a' ids rem _ hd ho hi =>
    rw [dropRuns] at hd
    split at hd <;> cases hd
    exact ho
  case squash a a' runs keepRecent policy keepRuns ts res hr hs ho hi =>
    obtain ⟨l, hl⟩ := hr.reachable.holds
    obtain ⟨_, log, ha⟩ := squash_ok hs
    have ht : a'.runTable = withBaseline ⟨a.keptEntries res.squashed keepRuns⟩ := by
      rw [← runTable_squashRuns hl.consistent, ha]
      rfl
    rw [ht, squash_squashed hs]
    exact orderly_withBaseline ho

-- Archives that runs without a name lead to.
inductive AutoAppended (accel : Bool) (a : RunMembers) : RunMembers → Prop
  | refl : AutoAppended accel a a
  | append {a₁ a₂ run counts replace ids} :
    AutoAppended accel a a₁ → run.runId = none → run.suppliedCounts = some counts →
    a₁.Accepts accel counts → a₁.appendRun accel run replace = .ok (a₂, ids) →
    AutoAppended accel a a₂

theorem AutoAppended.trans {a₁ a₂ : RunMembers} (h₁ : AutoAppended accel a a₁)
    (h₂ : AutoAppended accel a₁ a₂) : AutoAppended accel a a₂ := by
  induction h₂
  case refl                     => exact h₁
  case append hid hs hc ha hi   => exact .append hi hid hs hc ha

-- The table after a run without a name that was appended.
theorem append_auto_table {run : Run} {counts : Counts} {replace : Bool} {ids : List String}
    (hid : run.runId = none) (hs : run.suppliedCounts = some counts) (hc : a.Accepts accel counts)
    (ha : a.appendRun accel run replace = .ok (a', ids)) :
    ∃ entry : RunEntry, entry.runId = autoName a.runTable.numbered ∧
      a'.runTable = a.runTable.upsert entry := by
  rw [append_auto hid hs hc] at ha
  split at ha <;> cases ha
  exact ⟨_, rfl, rfl⟩

theorem AutoAppended.orderly (h : AutoAppended accel a a') (ho : a.runTable.Orderly) :
    a'.runTable.Orderly := by
  induction h
  case refl => exact ho
  case append hid hs hc ha hi =>
    have ⟨entry, he, ht⟩ := append_auto_table hid hs hc ha
    rw [ht]
    exact hi.upsert fun n hn => Nat.le_of_eq (autoName_injective (he.symm.trans hn)).symm

-- Where a name is taken that the runs have yet to reach, as many of them end at it.
theorem not_fresh_of_taken (accel : Bool) {n : Nat} (hn : autoName n ∈ a.runIds) (hle : a.runTable.numbered ≤ n) :
    ∃ a', AutoAppended accel a a' ∧ ¬FreshAppend accel a' := by
  obtain ⟨k, rfl⟩ := Nat.exists_eq_add_of_le hle
  induction k generalizing a
  case zero => exact ⟨a, .refl, fun h => (freshAppend_iff accel a).mp h hn⟩
  case succ k hi =>
    by_cases hf : autoName a.runTable.numbered ∈ a.runIds
    case pos => exact ⟨a, .refl, fun h => (freshAppend_iff accel a).mp h hf⟩
    case neg =>
      have hzeros := accepts_zeros accel a
      obtain ⟨a₁, entry, ha, _, ht, _⟩ := (freshAppend_iff accel a).mpr hf
        { counts := List.replicate (a.counts.getD []).length 0 } _ false rfl rfl hzeros
      obtain ⟨entry', he, ht'⟩ := append_auto_table rfl rfl hzeros ha
      have hids : a₁.runIds = a.runIds ++ [autoName a.runTable.numbered] := by
        rw [runIds, ht', RunTable.runIds_upsert_of_not_mem (he ▸ hf), he]
        rfl
      have hnumbered : a₁.runTable.numbered = a.runTable.numbered + 1 := by
        change (a₁.runIds.filter _).length = (a.runIds.filter _).length + 1
        rw [hids, List.filter_append, List.length_append]
        simp [autoName_ne_baseline]
      obtain ⟨a', ha', hn'⟩ := hi (a := a₁)
        (by rw [hids, hnumbered, Nat.add_right_comm]; exact List.mem_append_left _ hn) (Nat.le_add_right ..)
      exact ⟨a', .trans (.append .refl rfl rfl hzeros ha) ha', hn'⟩

-- Runs without a name are fresh in every archive that is reached with orderly names; and these are
-- the archives from which any number of them can be appended.
theorem naming_fresh (accel : Bool) :
    (∀ a, OrderlyReachable accel a → FreshAppend accel a) ∧
    ∀ a, (∀ a', AutoAppended accel a a' → FreshAppend accel a') ↔ a.runTable.Orderly := by
  refine ⟨fun a h => (freshAppend_iff accel a).mpr h.orderly.auto_fresh, fun a => ⟨fun h n hm => ?_, ?_⟩⟩
  case refine_1 =>
    by_contra hlt
    have ⟨a', ha, hn⟩ := not_fresh_of_taken accel hm (Nat.le_of_not_lt hlt)
    exact hn (h a' ha)
  case refine_2 =>
    intro ho a' ha
    exact (freshAppend_iff accel a').mpr (ha.orderly ho).auto_fresh

-- Three runs without a name, of which the first one is dropped: the next one takes the name of the
-- third one, and replaces it where runs are replaced.
theorem naming_not_fresh :
    ∃ a₀ a₁ a₂ : RunMembers, Reachable false a₀ ∧
      a₀.appendRuns false [{ counts := some [1] }, { counts := some [2] }, { counts := some [4] }] false =
        .ok (a₁, ["run-0000", "run-0001", "run-0002"]) ∧
      a₁.dropRuns ["run-0000"] = .ok (a₂, [baselineRunId, "run-0001", "run-0002"]) ∧
      a₂.appendRun false { counts := some [8] } false = .error (.fileExists "run-0002") ∧
      (∃ a₃, a₂.appendRun false { counts := some [8] } true = .ok (a₃, ["run-0002"]) ∧
        a₂.resolveCounts (some ["run-0002"]) = .ok [4] ∧
        a₃.resolveCounts (some ["run-0002"]) = .ok [8]) ∧
      ¬FreshAppend false a₂ := by
  have hw : Written { counts := some [0] } [0] := ⟨rfl, rfl, rfl⟩
  refine ⟨_, _, _, .written hw, rfl, rfl, rfl, ⟨_, rfl, rfl, rfl⟩, fun h => ?_⟩
  exact (freshAppend_iff ..).mp h (by decide)

end RunMembers
