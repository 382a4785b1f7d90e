import Covsight.Ncdb.Multirun

theorem firstUnused_mem {used : List Nat} {fuel index : Nat}
    (h : firstUnused used fuel index ∈ used) : ∀ i ≤ fuel, index + i ∈ used := by
  induction fuel generalizing index <;> intro i hi
  case zero => simpa [firstUnused, Nat.le_zero.mp hi] using h
  case succ fuel ih =>
    rw [firstUnused] at h
    split at h
    case isFalse hn => contradiction
    case isTrue hm =>
      cases i
      case zero   => exact hm
      case succ i => exact Nat.add_right_comm index 1 i ▸ ih h i (Nat.le_of_succ_le_succ hi)

-- The indices tried are distinct, so one of them is not among as many used ones.
theorem firstUnused_not_mem (used : List Nat) : firstUnused used used.length 0 ∉ used := by
  intro h
  have hs : List.range (used.length + 1) ⊆ used := by
    intro i hi
    have hm := firstUnused_mem h i <| Nat.le_of_lt_succ <| List.mem_range.mp hi
    rwa [Nat.zero_add] at hm
  have hl := (List.subperm_of_subset List.nodup_range hs).length_le
  rw [List.length_range] at hl
  omega

theorem nextMemberIndex_fresh (table : RunTable) (taken : List Nat) :
    ∀ e ∈ table.entries, e.member ≠ .run (nextMemberIndex table taken) := by
  intro e he hm
  have hu : nextMemberIndex table taken ∈ table.usedIndices :=
    List.mem_filterMap.mpr ⟨e, he, by rw [hm]⟩
  exact firstUnused_not_mem _ <| List.mem_append_right taken hu

namespace RunTable

variable {table : RunTable} {runId : String} {e : RunEntry}

theorem get_eq_some (h : table.get runId = some e) : e ∈ table.entries ∧ e.runId = runId :=
  ⟨List.mem_of_find?_eq_some h, by simpa using List.find?_some h⟩

theorem get_isSome_iff : (table.get runId).isSome ↔ runId ∈ table.runIds := by
  simp [get, runIds]

theorem get_of_mem (hn : table.runIds.Nodup) (h : e ∈ table.entries) :
    table.get e.runId = some e := by
  have ⟨e', he'⟩ := Option.isSome_iff_exists.mp <| get_isSome_iff.mpr <| List.mem_map_of_mem h
  have ⟨hm, hi⟩ := get_eq_some he'
  rw [he', List.inj_on_of_nodup_map hn hm h hi]

end RunTable

-- The invariant of a run table over the members it names: run ids and members are pairwise
-- distinct, every member is present and `counts.bin` stands under no other id than its own.
structure Consistent (es : List RunEntry) (read : CountsMember → Option Counts) : Prop where
  ids      : (es.map (·.runId)).Nodup
  members  : (es.map (·.member)).Nodup
  present  : ∀ e ∈ es, (read e.member).isSome
  baseline : ∀ e ∈ es, e.member = .counts → e.runId = baselineRunId

-- The run ids of a table with the counts each of them stands for.
def ledgerEntries (es : List RunEntry) (read : CountsMember → Option Counts) :
    List (String × Counts) :=
  es.map fun e => (e.runId, (read e.member).getD [])

@[simp]
theorem ledgerEntries_cons (e : RunEntry) (es : List RunEntry)
    (read : CountsMember → Option Counts) :
    ledgerEntries (e :: es) read = (e.runId, (read e.member).getD []) :: ledgerEntries es read :=
  rfl

theorem ledgerEntries_congr {es : List RunEntry} {read read' : CountsMember → Option Counts}
    (h : ∀ e ∈ es, read' e.member = read e.member) :
    ledgerEntries es read' = ledgerEntries es read :=
  List.map_congr_left fun e he => by rw [h e he]

theorem ledgerEntries_map_fst (es : List RunEntry) (read : CountsMember → Option Counts) :
    (ledgerEntries es read).map Prod.fst = es.map (·.runId) := by
  simp [ledgerEntries, Function.comp_def]

theorem nodup_map_cons {α β : Type*} {f : α → β} {a : α} {as : List α}
    (h : ((a :: as).map f).Nodup) : (∀ b ∈ as, f b ≠ f a) ∧ (as.map f).Nodup := by
  have ⟨ha, h⟩ := List.nodup_cons.mp h
  exact ⟨fun b hb hf => ha <| hf ▸ List.mem_map_of_mem hb, h⟩

namespace Consistent

variable {es : List RunEntry} {read read' : CountsMember → Option Counts}

theorem reread (h : Consistent es read) (hr : ∀ e ∈ es, (read' e.member).isSome) :
    Consistent es read' where
  ids      := h.ids
  members  := h.members
  present  := hr
  baseline := h.baseline

theorem congr (h : Consistent es read) (hr : ∀ e ∈ es, read' e.member = read e.member) :
    Consistent es read' :=
  h.reread fun e m => hr e m ▸ h.present e m

theorem sublist {es' : List RunEntry} (h : Consistent es read) (hs : es'.Sublist es) :
    Consistent es' read where
  ids         := h.ids.sublist (hs.map _)
  members     := h.members.sublist (hs.map _)
  present e m := h.present e (hs.subset m)
  baseline e m := h.baseline e (hs.subset m)

section Upsert

open RunTable (upsertIn)

variable {new : RunEntry} {counts : Counts}

theorem mem_upsertIn {e : RunEntry} (h : e ∈ upsertIn new es) : e = new ∨ e ∈ es := by
  induction es
  case nil => exact .inl <| List.mem_singleton.mp h
  case cons e' es hi =>
    rw [upsertIn] at h
    split at h <;> cases h
    case isTrue.head       => exact .inl rfl
    case isTrue.tail h     => exact .inr <| .tail _ h
    case isFalse.head      => exact .inr <| .head _
    case isFalse.tail hn h => exact (hi h).imp_right <| .tail _

-- The entry a run is written under is the only one that may already use its member.
variable (hm : ∀ e ∈ es, e.member = new.member → e.runId = new.runId)
variable (hr : ∀ m, read' m = if m = new.member then some counts else read m)

include hm hr

theorem ledgerEntries_upsertIn (hn : (es.map (·.runId)).Nodup) :
    ledgerEntries (upsertIn new es) read' = Dict.setIn new.runId counts (ledgerEntries es read) := by
  induction es
  case nil => simp [upsertIn, ledgerEntries, Dict.setIn, hr]
  case cons e es hi =>
    obtain ⟨he, hn⟩ := nodup_map_cons hn
    rw [upsertIn, ledgerEntries_cons, Dict.setIn]
    by_cases h : e.runId = new.runId
    case pos =>
      have ht : ∀ e' ∈ es, e'.member ≠ new.member :=
        fun e' hm' hc => he e' hm' <| (hm e' (.tail _ hm') hc).trans h.symm
      have hl := ledgerEntries_congr fun e' hm' => (hr _).trans <| if_neg <| ht e' hm'
      rw [if_pos h, if_pos h, ledgerEntries_cons, hl, hr, if_pos rfl, Option.getD_some]
    case neg =>
      have hc : e.member ≠ new.member := (h <| hm e (.head _) ·)
      rw [if_neg h, if_neg h, ledgerEntries_cons, hr, if_neg hc,
        hi (fun e' hm' => hm e' (.tail _ hm')) hn]

omit hr in
theorem members_upsertIn (hi : (es.map (·.runId)).Nodup) (hn : (es.map (·.member)).Nodup) :
    ((upsertIn new es).map (·.member)).Nodup := by
  induction es
  case nil => simp [upsertIn]
  case cons e es ih =>
    have ⟨he, hi⟩ := nodup_map_cons hi
    have ⟨hem, hn⟩ := nodup_map_cons hn
    rw [upsertIn]
    split
    case isTrue h =>
      refine List.nodup_cons.mpr ⟨fun hc => ?_, hn⟩
      have ⟨e', hm', hc⟩ := List.mem_map.mp hc
      exact he e' hm' <| (hm e' (.tail _ hm') hc).trans h.symm
    case isFalse h =>
      refine List.nodup_cons.mpr ⟨fun hc => ?_, ih (fun e' hm' => hm e' (.tail _ hm')) hi hn⟩
      have ⟨e', hm', hc⟩ := List.mem_map.mp hc
      cases mem_upsertIn hm'
      case inl h' => exact h <| hm e (.head _) (h' ▸ hc.symm)
      case inr h' => exact hem e' h' hc

theorem upsertIn (h : Consistent es read) (hb : new.member ≠ .counts) :
    Consistent (upsertIn new es) read' where
  ids := by
    rw [← ledgerEntries_map_fst _ read', ledgerEntries_upsertIn hm hr h.ids]
    have hn : ((ledgerEntries es read).map Prod.fst).Nodup := ledgerEntries_map_fst .. ▸ h.ids
    exact (Dict.mk _ hn |>.set new.runId counts).nodup
  members := members_upsertIn hm h.ids h.members
  present e he := by
    rw [hr]
    split
    case isTrue    => rfl
    case isFalse h' =>
      cases mem_upsertIn he
      case inl he => exact absurd (congrArg _ he) h'
      case inr he => exact h.present e he
  baseline e he hc := by
    cases mem_upsertIn he
    case inl he => exact absurd (he ▸ hc) hb
    case inr he => exact h.baseline e he hc

end Upsert

end Consistent

-- What a run table is for: the counts of each run, in the order the runs were first appended.
abbrev Ledger := Dict String Counts

namespace RunMembers

-- The archive holds exactly the runs of the ledger.
structure Holds (a : RunMembers) (l : Ledger) : Prop where
  consistent : Consistent a.runTable.entries a.read
  nonempty   : a.runTable.entries ≠ []
  counts     : a.counts.isSome
  entries    : l.entries = ledgerEntries a.runTable.entries a.read

variable {a a' : RunMembers} {l : Ledger} {runId : String}

@[simp]
theorem runTable_rewrite (a : RunMembers) (new : Dict Nat Counts) (table : RunTable) :
    (a.rewrite new table).runTable = table :=
  rfl

theorem read_rewrite_run (a : RunMembers) (new : Dict Nat Counts) (table : RunTable) (i : Nat) :
    (a.rewrite new table).read (.run i) = (new.get? i).or (a.read <| .run i) :=
  Dict.get?_update ..

@[simp]
theorem read_rewrite_empty (a : RunMembers) (table : RunTable) :
    (a.rewrite ∅ table).read = a.read := by
  funext m
  cases m
  case counts => rfl
  case run i  => exact Dict.get?_update ..

-- Resolving runs of the table combines their arrays, whatever their number and widths.
theorem resolveCounts_known {runs : Option (List String)} (hn : a.runTable.entries ≠ [])
    (hk : ∀ runId ∈ runs.getD a.runIds, runId ∈ a.runIds) :
    a.resolveCounts runs = .ok (combine a.ops <| a.arraysOf <| runs.getD a.runIds) := by
  have hm : (runs.getD a.runIds).filter (· ∉ a.runIds) = [] := by simpa using hk
  simp only [resolveCounts, List.isEmpty_iff, hn, hm, not_true_eq_false, if_false]
  match ha : a.arraysOf (runs.getD a.runIds) with
  | []          => rfl
  | [_]         => rw [combine.singleton]
  | r :: r' :: rows =>
    have hc := combine.eq_mergeCounts_padCounts a.ops (List.cons_ne_nil r (r' :: rows))
    exact congrArg Except.ok hc

theorem holds_of_consistent (h : Consistent a.runTable.entries a.read)
    (hn : a.runTable.entries ≠ []) (hc : a.counts.isSome) :
    a.Holds ⟨ledgerEntries a.runTable.entries a.read, ledgerEntries_map_fst .. ▸ h.ids⟩ :=
  ⟨h, hn, hc, rfl⟩

namespace Holds

theorem keys (h : a.Holds l) : l.keys = a.runIds := by
  rw [Dict.keys, h.entries, ledgerEntries_map_fst]
  rfl

theorem get?_eq_some_iff (h : a.Holds l) {counts : Counts} :
    l.get? runId = some counts
      ↔ ∃ e, a.runTable.get runId = some e ∧ a.read e.member = some counts := by
  rw [Dict.get?_eq_some_iff, h.entries, ledgerEntries, List.mem_map]
  constructor
  case mp =>
    intro ⟨e, he, hc⟩
    have ⟨hi, hc⟩ := Prod.mk.inj hc
    have ⟨c, hp⟩ := Option.isSome_iff_exists.mp <| h.consistent.present e he
    refine ⟨e, hi ▸ RunTable.get_of_mem h.consistent.ids he, ?_⟩
    rw [← hc, hp, Option.getD_some]
  case mpr =>
    intro ⟨e, he, hc⟩
    have ⟨hm, hi⟩ := RunTable.get_eq_some he
    exact ⟨e, hm, by rw [hi, hc, Option.getD_some]⟩

-- Resolving all runs combines the counts of the ledger.
theorem arraysOf (h : a.Holds l) : a.arraysOf a.runIds = l.values := by
  rw [RunMembers.arraysOf, runIds, RunTable.runIds, List.filterMap_map, Dict.values, h.entries,
    ledgerEntries, List.map_map, ← List.filterMap_eq_map']
  refine List.filterMap_congr fun e he => ?_
  have ⟨c, hp⟩ := Option.isSome_iff_exists.mp <| h.consistent.present e he
  simp [RunTable.get_of_mem h.consistent.ids he, hp]

theorem resolveCounts_single (h : a.Holds l) {counts : Counts}
    (hg : l.get? runId = some counts) : a.resolveCounts (some [runId]) = .ok counts := by
  have ⟨e, he, hc⟩ := h.get?_eq_some_iff.mp hg
  have hi : runId ∈ a.runIds := RunTable.get_isSome_iff.mp <| Option.isSome_of_eq_some he
  have ha : a.arraysOf [runId] = [counts] := by simp [RunMembers.arraysOf, he, hc]
  rw [resolveCounts_known h.nonempty (by simpa using hi), Option.getD_some, ha, combine.singleton]

theorem resolveCounts_all (h : a.Holds l) :
    a.resolveCounts none = .ok (combine a.ops l.values) := by
  rw [resolveCounts_known h.nonempty (by simp), Option.getD_none, h.arraysOf]

end Holds

-- An archive as the writer leaves it: one count array and no run table.
structure Written (a : RunMembers) (counts : Counts) : Prop where
  counts    : a.counts = some counts
  runs      : a.runs = none
  runCounts : a.runCounts = ∅

theorem Written.holds {counts : Counts} (h : a.Written counts) :
    a.Holds (Dict.empty.set baselineRunId counts) := by
  have ht : a.runTable = ⟨[{ runId := baselineRunId, member := .counts }]⟩ := by
    simp [runTable, h.runs, h.counts]
  have hc : a.read .counts = some counts := h.counts
  constructor
  case consistent => rw [ht]; constructor <;> simp [hc]
  case nonempty   => simp [ht]
  case counts     => simp [h.counts]
  case entries    => simp [ht, ledgerEntries, hc, Dict.set, Dict.empty, Dict.setIn]

end RunMembers

theorem countsSerialize_ok {accel : Bool} {c c' : Counts} (h : countsSerialize accel c = .ok c') :
    c' = c := by
  rw [countsSerialize] at h
  split at h <;> cases h
  rfl

namespace Batch

variable {accel replace : Bool} {baselineWidth : Nat} {a : RunMembers} {b b' : Batch} {l : Ledger}

-- The archive as it would be rewritten after the runs of the batch so far.
def view (a : RunMembers) (b : Batch) : RunMembers :=
  a.rewrite b.newMembers b.table

variable (runId : String) (counts : Counts) (fields : RunFields)

theorem entry_own (h : Consistent b.table.entries (view a b).read) :
    ∀ e ∈ b.table.entries, e.member = (b.entry runId counts fields).member →
      e.runId = (b.entry runId counts fields).runId := by
  intro e he hm
  simp only [entry, memberIndex] at hm ⊢
  split at hm
  case h_2 => exact absurd hm <| nextMemberIndex_fresh _ _ e he
  case h_1 index ho =>
    have ⟨e', hg, ho⟩ := Option.map_eq_some_iff.mp ho
    have ⟨he', hi⟩ := RunTable.get_eq_some hg
    rw [← hi, List.inj_on_of_nodup_map h.members he he' (hm.trans ho.symm)]

theorem read_view_write (m : CountsMember) :
    (view a (b.write runId counts fields)).read m
      = if m = (b.entry runId counts fields).member then some counts else (view a b).read m := by
  cases m
  case counts => rfl
  case run i =>
    have hs : (b.newMembers.set (b.memberIndex runId).fst counts).get? i = _ := Dict.get?_set ..
    simp only [view, RunMembers.read_rewrite_run, write, entry, hs, CountsMember.run.injEq]
    by_cases h : (b.memberIndex runId).fst = i
    case pos => simp [h]
    case neg => simp [h, Ne.symm h]

-- Writing a run to a batch is writing it to the ledger.
theorem write_holds (h : (view a b).Holds l) :
    (view a (b.write runId counts fields)).Holds (l.set runId counts) := by
  have ho := entry_own runId counts fields h.consistent
  have hr := read_view_write (a := a) (b := b) runId counts fields
  constructor
  case consistent => exact h.consistent.upsertIn ho hr nofun
  case counts     => exact h.counts
  case nonempty =>
    change RunTable.upsertIn _ b.table.entries ≠ []
    cases b.table.entries <;> simp only [RunTable.upsertIn]
    case nil  => nofun
    case cons => split <;> nofun
  case entries =>
    have hl := Consistent.ledgerEntries_upsertIn ho hr h.consistent.ids
    exact (h.entries ▸ hl).symm

theorem append_ok {run : Run} (h : b.append accel replace baselineWidth run = .ok b') :
    ∃ counts, run.suppliedCounts = some counts ∧
      b' = b.write (run.runId.getD b.autoRunId) counts run.fields := by
  rw [append] at h
  split at h
  case h_1 => cases h
  case h_2 counts hs =>
    refine ⟨counts, hs, ?_⟩
    split at h
    case isTrue => cases h
    case isFalse =>
      simp only at h
      split at h
      case isTrue => cases h
      case isFalse =>
        cases hc : countsSerialize accel counts <;> rw [hc] at h <;> cases h
        rw [countsSerialize_ok hc]

-- What a batch of runs writes to the ledger under the ids it was given.
def ledgerWrites (ids : List String) (runs : List Run) : List (String × Counts) :=
  List.zipWith (fun runId run => (runId, run.suppliedCounts.getD [])) ids runs

theorem ledgerWrites_map_fst {ids : List String} {runs : List Run}
    (h : ids.length = runs.length) : (ledgerWrites ids runs).map Prod.fst = ids := by
  rw [ledgerWrites, List.map_zipWith]
  have hz := List.map_fst_zip (Nat.le_of_eq h)
  rwa [List.zip_eq_zipWith, List.map_zipWith] at hz

theorem foldlM_holds {runs : List Run} (h : (view a b).Holds l)
    (ha : runs.foldlM (append accel replace baselineWidth) b = .ok b') :
    ∃ ids, b'.written = b.written ++ ids ∧ ids.length = runs.length ∧
      (view a b').Holds (l.setAll <| ledgerWrites ids runs) := by
  induction runs generalizing b l
  case nil =>
    cases ha
    exact ⟨[], by simp, rfl, h⟩
  case cons run runs hi =>
    rw [List.foldlM_cons] at ha
    cases hb : append accel replace baselineWidth b run <;> rw [hb] at ha
    case error => cases ha
    case ok b₁ =>
      have ⟨counts, hs, hb⟩ := append_ok hb
      have h₁ := write_holds (run.runId.getD b.autoRunId) counts run.fields h
      have ⟨ids, hw, hl, h₂⟩ := hi (hb ▸ h₁) ha
      refine ⟨run.runId.getD b.autoRunId :: ids, ?_, by simp [hl], ?_⟩
      · rw [hw, hb]; simp [write]
      · simpa [ledgerWrites, hs] using h₂

end Batch

-- What happened to the runs of an archive, by run id.
inductive RunEvent
  | wrote (runId : String) (counts : Counts)
  | dropped (runIds : List String)

def Ledger.apply (l : Ledger) : RunEvent → Ledger
  | .wrote runId counts => l.set runId counts
  | .dropped runIds     => l.filterKeys (· ∉ runIds)

theorem Ledger.foldl_wrote (l : Ledger) (ws : List (String × Counts)) :
    (ws.map fun w => RunEvent.wrote w.fst w.snd).foldl Ledger.apply l = l.setAll ws := by
  induction ws generalizing l
  case nil          => rfl
  case cons w ws hi => exact hi _

-- The ledger of an archive that was written with some counts.
def Ledger.replay (counts : Counts) (events : List RunEvent) : Ledger :=
  events.foldl Ledger.apply <| Dict.empty.set baselineRunId counts

namespace RunMembers

variable {accel replace : Bool} {a a₀ a' : RunMembers} {l : Ledger}

theorem appendRuns_ok {runs : List Run} {ids : List String} (h : a.Holds l)
    (ha : a.appendRuns accel runs replace = .ok (a', ids)) :
    ids.length = runs.length ∧ a'.Holds (l.setAll <| Batch.ledgerWrites ids runs) := by
  rw [appendRuns] at ha
  cases hb : runs.foldlM (Batch.append accel replace (a.counts.getD []).length)
    { table := a.runTable } <;> simp only [hb] at ha <;> cases ha
  case ok.refl b =>
    have hv : (Batch.view a { table := a.runTable }).Holds l := by
      constructor
      case consistent => exact h.consistent.congr fun e _ => by simp [Batch.view]
      case nonempty   => exact h.nonempty
      case counts     => exact h.counts
      case entries    => simpa [Batch.view] using h.entries
    have ⟨ids, hw, hl, hv⟩ := Batch.foldlM_holds hv hb
    rw [List.nil_append] at hw
    exact ⟨hw ▸ hl, hw ▸ hv⟩

-- A member that none of the entries names stays.
theorem read_popMembers {es : List RunEntry} {m : CountsMember} (h : ∀ e ∈ es, e.member ≠ m) :
    (a.popMembers es).read m = a.read m := by
  cases m
  case counts => rfl
  case run i =>
    simp only [popMembers, read]
    generalize a.runCounts = d
    induction es generalizing d
    case nil => rfl
    case cons e es hi =>
      have he := h e (.head _)
      rw [List.foldl_cons, hi fun e' he' => h e' (.tail _ he')]
      split
      case h_1       => rfl
      case h_2 j hj  => exact Dict.get?_pop_of_ne (by simpa [hj, eq_comm] using he) d

-- Entries that are kept keep their members when the others are removed.
theorem read_popMembers_filter (h : Consistent a.runTable.entries a.read) (p : RunEntry → Bool) :
    ∀ e ∈ a.runTable.entries.filter (!p ·),
      (a.popMembers <| a.runTable.entries.filter p).read e.member = a.read e.member := by
  intro e he
  have ⟨he, hp⟩ := List.mem_filter.mp he
  refine read_popMembers fun e' he' hm => ?_
  have ⟨he', hp'⟩ := List.mem_filter.mp he'
  rw [List.inj_on_of_nodup_map h.members he' he hm] at hp'
  simp [hp'] at hp

theorem dropRuns_ok {ids rem : List String} (h : a.Holds l)
    (hd : a.dropRuns ids = .ok (a', rem)) : a'.Holds (l.filterKeys (· ∉ ids)) := by
  rw [dropRuns] at hd
  split at hd <;> cases hd
  case isFalse hn =>
    have hp := read_popMembers_filter h.consistent (·.runId ∈ ids)
    simp only [← decide_not] at hp
    constructor
    case consistent =>
      rw [read_rewrite_empty]
      exact (h.consistent.sublist List.filter_sublist).congr hp
    case nonempty   => simpa using hn
    case counts     => exact h.counts
    case entries =>
      rw [runTable_rewrite, read_rewrite_empty, ledgerEntries_congr hp, Dict.entries_filterKeys,
        h.entries, ledgerEntries, List.filter_map]
      rfl

-- A finite sequence of successful appends and drops, with the events it leaves; an operation that
-- fails leaves the archive as it was.
inductive History (accel : Bool) (a₀ : RunMembers) : List RunEvent → RunMembers → Prop
  | written : History accel a₀ [] a₀
  | append {es a a' runs replace ids} :
    History accel a₀ es a → a.appendRuns accel runs replace = .ok (a', ids) →
    History accel a₀ (es ++ (Batch.ledgerWrites ids runs).map fun w => .wrote w.fst w.snd) a'
  | drop {es a a' ids rem} :
    History accel a₀ es a → a.dropRuns ids = .ok (a', rem) →
    History accel a₀ (es ++ [.dropped ids]) a'

theorem History.holds {counts : Counts} {es : List RunEvent} (hw : a₀.Written counts)
    (h : History accel a₀ es a) : a.Holds (Ledger.replay counts es) := by
  induction h
  case written => exact hw.holds
  case append ha hi =>
    rw [Ledger.replay, List.foldl_append, Ledger.foldl_wrote]
    exact (appendRuns_ok hi ha).right
  case drop hd hi =>
    rw [Ledger.replay, List.foldl_append]
    exact dropRuns_ok hi hd

end RunMembers
