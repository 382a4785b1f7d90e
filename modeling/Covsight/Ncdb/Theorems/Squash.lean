import Covsight.Ncdb.Multirun
import Covsight.Ncdb.Theorems.Multirun

namespace RunTable

theorem removeIn_eq_filter {es : List RunEntry} (hn : (es.map (·.runId)).Nodup) (runId : String) :
    removeIn runId es = es.filter (·.runId ≠ runId) := by
  induction es
  case nil => rfl
  case cons e es hi =>
    have ⟨he, hn⟩ := nodup_map_cons hn
    rw [removeIn]
    split
    case isTrue h =>
      have hf : es.filter (·.runId ≠ runId) = es :=
        List.filter_eq_self.mpr fun e' hm => by simpa [h] using he e' hm
      rw [List.filter_cons_of_neg (by simp [h]), hf]
    case isFalse h => rw [List.filter_cons_of_pos (by simp [h]), hi hn]

-- Removing runs one after the other keeps exactly the others.
theorem foldl_remove {table : RunTable} (hn : table.runIds.Nodup) (runIds : List String) :
    (runIds.foldl remove table).entries = table.entries.filter (·.runId ∉ runIds) := by
  induction runIds generalizing table
  case nil => simp
  case cons runId runIds hi =>
    have hr : (table.remove runId).entries = table.entries.filter (·.runId ≠ runId) :=
      removeIn_eq_filter hn runId
    have hn' : (table.remove runId).runIds.Nodup := by
      rw [RunTable.runIds, hr]
      exact hn.sublist <| List.filter_sublist.map _
    rw [List.foldl_cons, hi hn', hr, List.filter_filter]
    simp [Bool.and_comm]

end RunTable

namespace RunMembers

variable {accel keepRuns : Bool} {a a' : RunMembers} {l : Ledger} {toSquash : List String}

-- The runs a plan selects are runs of the table other than the baseline, in its order.
theorem squashPlan_sublist (a : RunMembers) (keepRecent : Int) (runs : Option (List String)) :
    (a.squashPlan keepRecent runs).fst.Sublist (a.runIds.filter (· ≠ baselineRunId)) := by
  have hc : ∀ cs : List String, cs.Sublist (a.runIds.filter (· ≠ baselineRunId)) →
      (if keepRecent ≤ 0 then (cs, []) else if keepRecent ≥ cs.length then ([], cs) else
        (cs.take (cs.length - keepRecent.toNat), cs.drop (cs.length - keepRecent.toNat))).fst.Sublist
        (a.runIds.filter (· ≠ baselineRunId)) := by
    intro cs hs
    split
    case isTrue => exact hs
    case isFalse =>
      split
      case isTrue  => exact List.nil_sublist _
      case isFalse => exact (List.take_sublist ..).trans hs
  cases runs
  case none => exact hc _ (.refl _)
  case some => exact hc _ List.filter_sublist

theorem squash_ok {runs : Option (List String)} {keepRecent : Int} {policy ts : Nat}
    {res : SquashResult}
    (h : a.squash accel runs keepRecent policy keepRuns ts = .ok (a', res)) :
    res.squashed.Sublist (a.runIds.filter (· ≠ baselineRunId)) ∧
    ∃ log, a' = { a.squashRuns res.squashed keepRuns with squashLog := some log } := by
  rw [squash] at h
  split at h
  case isTrue => cases h
  case isFalse =>
    simp only at h
    split at h
    case isTrue => cases h
    case isFalse =>
      have hs := squashPlan_sublist a keepRecent runs
      generalize ht : (a.squashPlan keepRecent runs).fst.filter _ = toSquash at h
      have hs : toSquash.Sublist _ := ht ▸ List.filter_sublist.trans hs
      cases hm : countsSerialize accel (a.foldedCounts toSquash) <;> rw [hm] at h
      case error => cases h
      case ok merged =>
        cases hl : appendLog a.squashLog toSquash policy ts <;> simp only [hl] at h <;> cases h
        exact ⟨hs, _, rfl⟩

-- The runs that a squash folds into the baseline.
def admittedRuns (a : RunMembers) (runs : Option (List String)) (keepRecent : Int) (policy : Nat) :
    List String :=
  (a.squashPlan keepRecent runs).fst.filter fun runId => policyAdmits (a.runTable.get runId) policy

theorem squash_squashed {runs : Option (List String)} {keepRecent : Int} {policy ts : Nat}
    {res : SquashResult}
    (h : a.squash accel runs keepRecent policy keepRuns ts = .ok (a', res)) :
    res.squashed = a.admittedRuns runs keepRecent policy := by
  rw [squash] at h
  split at h
  case isTrue => cases h
  case isFalse =>
    simp only at h
    split at h
    case isTrue => cases h
    case isFalse =>
      rw [admittedRuns]
      generalize (a.squashPlan keepRecent runs).fst.filter _ = toSquash at h
      cases hm : countsSerialize accel (a.foldedCounts toSquash) <;> rw [hm] at h
      case error => cases h
      case ok merged =>
        cases hl : appendLog a.squashLog toSquash policy ts <;> simp only [hl] at h <;> cases h
        rfl

section Fold

-- The table a squash starts from when it adds the baseline, or keeps the runs.
def keptEntries (a : RunMembers) (toSquash : List String) (keepRuns : Bool) : List RunEntry :=
  if keepRuns then a.runTable.entries else a.runTable.entries.filter (·.runId ∉ toSquash)

theorem keptEntries_sublist (a : RunMembers) (toSquash : List String) (keepRuns : Bool) :
    (a.keptEntries toSquash keepRuns).Sublist a.runTable.entries := by
  rw [keptEntries]
  split
  case isTrue  => exact .refl _
  case isFalse => exact List.filter_sublist

variable (h : Consistent a.runTable.entries a.read)
include h

theorem runTable_squashRuns (toSquash : List String) (keepRuns : Bool) :
    (a.squashRuns toSquash keepRuns).runTable = withBaseline ⟨a.keptEntries toSquash keepRuns⟩ := by
  cases keepRuns
  case true  => rfl
  case false => exact congrArg (withBaseline ⟨·⟩) <| RunTable.foldl_remove h.ids toSquash

-- The members of the kept runs are left alone.
theorem read_squashRuns {e : RunEntry} (he : e ∈ a.keptEntries toSquash keepRuns)
    (hm : e.member ≠ .counts) : (a.squashRuns toSquash keepRuns).read e.member = a.read e.member := by
  have ho : ∀ a' : RunMembers, a'.runCounts = a.runCounts → a'.read e.member = a.read e.member := by
    intro a' hr
    cases hc : e.member
    case counts => contradiction
    case run i  => simp [read, hr]
  cases keepRuns
  case true =>
    rw [squashRuns]
    simp only [if_true, read_rewrite_empty]
    exact ho _ rfl
  case false =>
    rw [squashRuns, dropSquashed]
    simp only [Bool.false_eq_true, if_false, read_rewrite_empty]
    refine (read_popMembers fun e' he' hc => ?_).trans (ho _ rfl)
    obtain ⟨runId, hs, hg⟩ := List.mem_filterMap.mp he'
    obtain ⟨he', hi⟩ := RunTable.get_eq_some hg
    obtain ⟨he, hn⟩ := List.mem_filter.mp he
    rw [List.inj_on_of_nodup_map h.members he' he hc] at hi
    simp [hi, hs] at hn

theorem withBaseline_consistent {es : List RunEntry} {read' : CountsMember → Option Counts}
    (hs : es.Sublist a.runTable.entries)
    (hr : ∀ e ∈ es, e.member ≠ .counts → read' e.member = a.read e.member)
    (hc : (read' .counts).isSome) : Consistent (withBaseline ⟨es⟩).entries read' := by
  have hk : Consistent es read' := by
    refine (h.sublist hs).reread fun e he => ?_
    by_cases hm : e.member = .counts
    case pos => exact hm ▸ hc
    case neg => exact hr e he hm ▸ h.present e (hs.subset he)
  rw [withBaseline]
  split
  case isTrue => exact hk
  case isFalse hb =>
    have hb : baselineRunId ∉ es.map (·.runId) := by rwa [RunTable.get_isSome_iff] at hb
    constructor
    case ids => exact List.nodup_cons.mpr ⟨hb, hk.ids⟩
    case members =>
      refine List.nodup_cons.mpr ⟨fun hm => ?_, hk.members⟩
      have ⟨e, he, hm⟩ := List.mem_map.mp hm
      exact hb <| List.mem_map.mpr ⟨e, he, hk.baseline e he hm⟩
    case present =>
      intro e he
      cases he
      case head    => exact hc
      case tail he => exact hk.present e he
    case baseline =>
      intro e he hm
      cases he
      case head    => rfl
      case tail he => exact hk.baseline e he hm

end Fold

theorem squashRuns_holds (h : a.Holds l) (toSquash : List String) (keepRuns : Bool) :
    ∃ l', (a.squashRuns toSquash keepRuns).Holds l' := by
  have ht := runTable_squashRuns h.consistent toSquash keepRuns
  have hc : (a.squashRuns toSquash keepRuns).counts = some (a.foldedCounts toSquash) := by
    cases keepRuns <;> rfl
  refine ⟨_, holds_of_consistent ?_ ?_ (hc ▸ rfl)⟩ <;> rw [ht]
  · exact withBaseline_consistent h.consistent (keptEntries_sublist ..)
      (fun e => read_squashRuns h.consistent) (by rw [read, hc]; rfl)
  · rw [withBaseline]
    split
    case isFalse => rintro ⟨⟩
    case isTrue hb =>
      intro he
      rw [RunTable.get_isSome_iff, RunTable.runIds, he] at hb
      cases hb

-- The count arrays of some entries.
def rowsOf (read : CountsMember → Option Counts) (es : List RunEntry) : List Counts :=
  es.map fun e => (read e.member).getD []

@[simp]
theorem rowsOf_cons (read : CountsMember → Option Counts) (e : RunEntry) (es : List RunEntry) :
    rowsOf read (e :: es) = (read e.member).getD [] :: rowsOf read es :=
  rfl

theorem rowsOf_perm (read : CountsMember → Option Counts) {es es' : List RunEntry}
    (h : es.Perm es') : (rowsOf read es).Perm (rowsOf read es') :=
  h.map _

theorem Holds.values_eq (h : a.Holds l) : l.values = rowsOf a.read a.runTable.entries := by
  rw [Dict.values, h.entries, ledgerEntries, List.map_map]
  rfl

-- The table lists `counts.bin` under the reserved id.
def ListsBaseline (a : RunMembers) : Prop :=
  ∃ e ∈ a.runTable.entries, e.runId = baselineRunId ∧ e.member = .counts

section Conservation

variable (h : a.Holds l) (hs : toSquash.Sublist (a.runIds.filter (· ≠ baselineRunId)))
include h hs

-- The arrays of the runs to squash are those of their entries.
theorem arraysOf_perm :
    (a.arraysOf toSquash).Perm
      (rowsOf a.read <| a.runTable.entries.filter (·.runId ∈ toSquash)) := by
  have hn : toSquash.Nodup := (h.consistent.ids.filter _).sublist hs
  have hp : toSquash.Perm <| (a.runTable.entries.filter (·.runId ∈ toSquash)).map (·.runId) := by
    have hf := h.consistent.ids.sublist <| (List.filter_sublist (p := (·.runId ∈ toSquash))).map _
    refine (List.perm_ext_iff_of_nodup hn hf).mpr fun runId => ?_
    have hm : runId ∈ toSquash → runId ∈ a.runIds := fun hi => (List.mem_filter.mp <| hs.subset hi).1
    simp only [List.mem_map, List.mem_filter, decide_eq_true_eq]
    constructor
    case mp =>
      intro hi
      have ⟨e, he, hr⟩ := List.mem_map.mp (hm hi)
      exact ⟨e, ⟨he, hr ▸ hi⟩, hr⟩
    case mpr => exact fun ⟨e, he, hr⟩ => hr ▸ he.2
  refine (hp.filterMap _).trans (.of_eq ?_)
  rw [List.filterMap_map, rowsOf, ← List.filterMap_eq_map']
  refine List.filterMap_congr fun e he => ?_
  have he := (List.mem_filter.mp he).1
  have ⟨c, hc⟩ := Option.isSome_iff_exists.mp <| h.consistent.present e he
  simp [RunTable.get_of_mem h.consistent.ids he, hc]

-- None of the runs to squash is the baseline.
theorem ownArraysOf_eq : a.ownArraysOf toSquash = a.arraysOf toSquash := by
  refine List.filterMap_congr fun runId hi => ?_
  cases hg : a.runTable.get runId
  case none   => rfl
  case some e =>
    have ⟨he, hr⟩ := RunTable.get_eq_some hg
    have hb := (List.mem_filter.mp <| hs.subset hi).2
    have hm : e.member ≠ .counts := by
      intro hm
      simp [← hr, h.consistent.baseline e he hm] at hb
    simp [hm]

theorem foldedCounts_eq {counts : Counts} (hc : a.counts = some counts) :
    a.foldedCounts toSquash = combine a.ops (counts :: a.arraysOf toSquash) := by
  rw [foldedCounts, ownArraysOf_eq h hs, hc]
  have hn := List.cons_ne_nil counts (a.arraysOf toSquash)
  exact combine.eq_mergeCounts_padCounts a.ops hn

-- What the squashed archive reads back for all runs: the squashed ones once and the kept ones.
theorem resolveCounts_squashRuns (hb : a.ListsBaseline) (keepRuns : Bool) :
    (a.squashRuns toSquash keepRuns).resolveCounts none
      = .ok (combine a.ops
          (a.arraysOf toSquash ++ rowsOf a.read (a.keptEntries toSquash keepRuns))) := by
  have ⟨e, he, hi, hm⟩ := hb
  have ⟨counts, hc⟩ := Option.isSome_iff_exists.mp h.counts
  have ⟨l', hl⟩ := squashRuns_holds h toSquash keepRuns
  have hk : e ∈ a.keptEntries toSquash keepRuns := by
    have hn : e.runId ∉ toSquash := by
      intro hn
      simpa [hi] using (List.mem_filter.mp <| hs.subset hn).2
    rw [keptEntries]
    split
    case isTrue  => exact he
    case isFalse => exact List.mem_filter.mpr ⟨he, by simpa using hn⟩
  have ht : (a.squashRuns toSquash keepRuns).runTable.entries = a.keptEntries toSquash keepRuns := by
    have hg : (RunTable.get ⟨a.keptEntries toSquash keepRuns⟩ baselineRunId).isSome :=
      RunTable.get_isSome_iff.mpr <| List.mem_map.mpr ⟨e, hk, hi⟩
    rw [runTable_squashRuns h.consistent, withBaseline, if_pos hg]
  have ho : (a.squashRuns toSquash keepRuns).ops = a.ops := by cases keepRuns <;> rfl
  have hf : (a.squashRuns toSquash keepRuns).read e.member = some (a.foldedCounts toSquash) := by
    rw [hm]
    cases keepRuns <;> rfl
  have hce : a.read e.member = some counts := by rw [hm]; exact hc
  -- The baseline's row is the folded one, every other row is the one it was.
  have hp := List.perm_cons_erase hk
  have hr : rowsOf (a.squashRuns toSquash keepRuns).read ((a.keptEntries toSquash keepRuns).erase e)
      = rowsOf a.read ((a.keptEntries toSquash keepRuns).erase e) := by
    refine List.map_congr_left fun e' he' => ?_
    have hn := (h.consistent.sublist <| keptEntries_sublist a toSquash keepRuns).members
    have hn := List.nodup_cons.mp <| (hp.map (·.member)).nodup_iff.mp hn
    have hm' : e'.member ≠ .counts := fun hm' => hn.1 <| List.mem_map.mpr ⟨e', he', hm'.trans hm.symm⟩
    rw [read_squashRuns h.consistent (List.mem_of_mem_erase he') hm']
  rw [hl.resolveCounts_all, hl.values_eq, ht, ho]
  refine congrArg Except.ok ?_
  calc
    _ = combine a.ops (a.foldedCounts toSquash ::
          rowsOf a.read ((a.keptEntries toSquash keepRuns).erase e)) := by
        rw [← hr, combine.perm a.ops (rowsOf_perm _ hp), rowsOf_cons, hf, Option.getD_some]
    _ = combine a.ops (a.arraysOf toSquash ++ counts ::
          rowsOf a.read ((a.keptEntries toSquash keepRuns).erase e)) := by
        rw [foldedCounts_eq h hs hc, combine.cons_combine]
        exact combine.perm a.ops List.perm_middle.symm
    _ = _ := by
        refine combine.perm a.ops <| .append_left _ ?_
        have hq := rowsOf_perm a.read hp
        rw [rowsOf_cons, hce, Option.getD_some] at hq
        exact hq.symm

end Conservation

-- Archives that appends, drops and squashes lead to from a written one.
inductive Reachable (accel : Bool) : RunMembers → Prop
  | written {a counts} : Written a counts → Reachable accel a
  | append {a a' runs replace ids} :
    Reachable accel a → a.appendRuns accel runs replace = .ok (a', ids) → Reachable accel a'
  | drop {a a' ids rem} :
    Reachable accel a → a.dropRuns ids = .ok (a', rem) → Reachable accel a'
  | squash {a a' runs keepRecent policy keepRuns ts res} :
    Reachable accel a → a.squash accel runs keepRecent policy keepRuns ts = .ok (a', res) →
    Reachable accel a'

theorem Reachable.holds (h : Reachable accel a) : ∃ l, a.Holds l := by
  induction h
  case written hw => exact ⟨_, hw.holds⟩
  case append ha hi =>
    have ⟨_, hi⟩ := hi
    exact ⟨_, (appendRuns_ok hi ha).right⟩
  case drop hd hi =>
    have ⟨_, hi⟩ := hi
    exact ⟨_, dropRuns_ok hi hd⟩
  case squash keepRuns _ res _ hs hi =>
    have ⟨_, hi⟩ := hi
    have ⟨_, _, ha⟩ := squash_ok hs
    have ⟨_, hl⟩ := squashRuns_holds hi res.squashed keepRuns
    exact ha ▸ ⟨_, ⟨hl.consistent, hl.nonempty, hl.counts, hl.entries⟩⟩

-- A squash without loss leaves what all runs read back as it was; where it keeps the runs it folds
-- in, they are read once more on top.
theorem Reachable.squash_conserves {runs : Option (List String)} {keepRecent : Int} {ts : Nat}
    {res : SquashResult} (h : Reachable accel a) (hb : a.ListsBaseline)
    (hs : a.squash accel runs keepRecent policyAll keepRuns ts = .ok (a', res)) :
    ∃ before, a.resolveCounts none = .ok before ∧
      a'.resolveCounts none
        = .ok (if keepRuns then combine a.ops (before :: a.arraysOf res.squashed) else before) := by
  have ⟨l, hl⟩ := h.holds
  have ⟨hsub, log, ha⟩ := squash_ok hs
  refine ⟨_, hl.resolveCounts_all, ?_⟩
  have hr := resolveCounts_squashRuns hl hsub hb keepRuns
  rw [ha]
  refine hr.trans <| congrArg Except.ok ?_
  rw [hl.values_eq]
  cases keepRuns
  case true =>
    rw [if_pos rfl, combine.cons_combine]
    exact combine.perm a.ops List.perm_append_comm
  case false =>
    rw [if_neg nofun]
    refine combine.perm a.ops ?_
    have hf := List.filter_append_perm (·.runId ∈ res.squashed) a.runTable.entries
    refine ((arraysOf_perm hl hsub).append_right _).trans ?_
    simp only [rowsOf, keptEntries, ← List.map_append, Bool.false_eq_true, if_false, decide_not]
    exact hf.map _

-- One run over a baseline, squashed.
theorem Reachable.squash_conserves_single :
    let a : RunMembers := {
      counts    := some [1]
      runs      := some ⟨[⟨baselineRunId, .counts, none, {}⟩, ⟨"r1", .run 0, some 1, {}⟩]⟩
      runCounts := Dict.empty.set 0 [2]
    }
    ∃ (a' : RunMembers) (res : SquashResult),
      a.squash false none 0 policyAll false 7 = .ok (a', res) ∧
      a.resolveCounts none = .ok [3] ∧ a'.resolveCounts none = .ok [3] := by
  have hw : Written { counts := some [1] } [1] := ⟨rfl, rfl, rfl⟩
  have ha : RunMembers.appendRuns false { counts := some [1] }
    [{ runId := some "r1", counts := some [2] }] false = .ok (_, ["r1"]) := rfl
  have ⟨_, h₁, h₂⟩ := squash_conserves (append (written hw) ha) ⟨_, .head _, rfl, rfl⟩
    (show RunMembers.squash false _ none 0 policyAll false 7 = _ from rfl)
  cases h₁
  exact ⟨_, _, rfl, rfl, h₂⟩

-- Squashing the same run and keeping it counts it twice: 1 + 2 becomes (1 + 2) + 2.
theorem Reachable.squash_keep_runs_doubles :
    ∃ (a a' : RunMembers) (res : SquashResult),
      Reachable false a ∧ a.squash false none 0 policyAll true 7 = .ok (a', res) ∧
      a.resolveCounts none = .ok [3] ∧ a'.resolveCounts none = .ok [5] := by
  have hw : Written { counts := some [1] } [1] := ⟨rfl, rfl, rfl⟩
  have ha : RunMembers.appendRuns false { counts := some [1] }
    [{ runId := some "r1", counts := some [2] }] false = .ok (_, ["r1"]) := rfl
  exact ⟨_, _, _, append (written hw) ha, rfl, rfl, rfl⟩

end RunMembers
