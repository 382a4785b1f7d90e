import Covsight.Ncdb.Archive
import Covsight.Ncdb.Theorems.MergeCounts
import Covsight.Ncdb.Theorems.MergePaths
import Covsight.Ncdb.Theorems.ScopeTreeRoundTrip
import Covsight.Ncdb.Theorems.Squash

-- When the statistics of a manifest are those of the database that the archive is read as.

open NcdbReader (Read read read_ok)
open ScopeRecord (binCountAll)
open ScopeTreeReader (takeCounts)

-- What the operations on runs do to the runs that an archive holds.

-- The name that a run gets.
def autoRunIdFor (ids : List String) : String :=
  "run-" ++ zeroPadded 4 (ids.filter (· ≠ baselineRunId)).length

-- Appended runs are added to the ones that are held, or replace those of their names.
def Ledger.appendRuns (l : Ledger) : List Run → Ledger
  | []          => l
  | run :: runs =>
    appendRuns (l.set (run.runId.getD (autoRunIdFor l.keys)) (run.suppliedCounts.getD [])) runs

namespace RunMembers

variable {accel replace : Bool} {a a' : RunMembers} {l : Ledger} {toSquash : List String}

theorem foldlM_append_holds {baselineWidth : Nat} {runs : List Run} {b b' : Batch}
    (h : (Batch.view a b).Holds l)
    (hb : runs.foldlM (Batch.append accel replace baselineWidth) b = .ok b') :
    (Batch.view a b').Holds (l.appendRuns runs) := by
  induction runs generalizing b l
  case nil =>
    cases hb
    exact h
  case cons run runs hi =>
    rw [List.foldlM_cons] at hb
    cases h₁ : Batch.append accel replace baselineWidth b run <;> rw [h₁] at hb
    case error => cases hb
    case ok b₁ =>
      have ⟨counts, hs, hw⟩ := Batch.append_ok h₁
      have hid : b.autoRunId = autoRunIdFor l.keys := by
        rw [h.keys]
        rfl
      have hset := Batch.write_holds (run.runId.getD b.autoRunId) counts run.fields h
      rw [Ledger.appendRuns, hs, ← hid]
      exact hi (hw ▸ hset) hb

theorem appendRuns_holds {runs : List Run} {ids : List String} (h : a.Holds l)
    (ha : a.appendRuns accel runs replace = .ok (a', ids)) : a'.Holds (l.appendRuns runs) := by
  rw [appendRuns] at ha
  cases hb : runs.foldlM (Batch.append accel replace (a.counts.getD []).length)
    { table := a.runTable } <;> simp only [hb] at ha <;> cases ha
  case ok.refl b =>
    refine foldlM_append_holds ?_ hb
    constructor
    case consistent => exact h.consistent.congr fun e _ => by simp [Batch.view]
    case nonempty   => exact h.nonempty
    case counts     => exact h.counts
    case entries    => simpa [Batch.view] using h.entries

-- The arrays that a squashed archive holds: the baseline, if its place in the table is not taken by
-- another run, and the runs that are kept.
def rowsAfterSquash (a : RunMembers) (toSquash : List String) (keepRuns : Bool) : List Counts :=
  let kept := a.keptEntries toSquash keepRuns
  let own := rowsOf a.read (kept.filter (·.member ≠ .counts))
  if kept.any fun e => e.runId = baselineRunId ∧ e.member ≠ .counts then
    own
  else
    combine a.ops (a.counts.toList ++ a.arraysOf toSquash) :: own

theorem rowsOf_squashRuns {es : List RunEntry} {keepRuns : Bool} (h : Consistent a.runTable.entries a.read)
    (he : ∀ e ∈ es, e ∈ a.keptEntries toSquash keepRuns ∧ e.member ≠ .counts) :
    rowsOf (a.squashRuns toSquash keepRuns).read es = rowsOf a.read es :=
  List.map_congr_left fun e hm => by rw [read_squashRuns h (he e hm).1 (he e hm).2]

-- The baseline is read from where it stands in the table.
theorem rows_withBaseline {kept : List RunEntry} {read read' : CountsMember → Option Counts}
    {folded : Counts} (hk : Consistent kept read) (hf : read' .counts = some folded) :
    (rowsOf read' (withBaseline ⟨kept⟩).entries).Perm
      (if kept.any fun e => e.runId = baselineRunId ∧ e.member ≠ .counts then
        rowsOf read' (kept.filter (·.member ≠ .counts))
      else
        folded :: rowsOf read' (kept.filter (·.member ≠ .counts))) := by
  have hall (h : ∀ e ∈ kept, e.member ≠ .counts) : kept.filter (·.member ≠ .counts) = kept :=
    List.filter_eq_self.mpr fun e he => decide_eq_true (h e he)
  rw [withBaseline]
  split
  case isFalse hb =>
    have hb : baselineRunId ∉ kept.map (·.runId) := by rwa [RunTable.get_isSome_iff] at hb
    have hne : ∀ e ∈ kept, e.runId ≠ baselineRunId :=
      fun e he hi => hb (List.mem_map.mpr ⟨e, he, hi⟩)
    rw [hall fun e he hm => hne e he (hk.baseline e he hm), if_neg]
    · rw [rowsOf_cons, hf, Option.getD_some]
    · rw [List.any_eq_true]
      rintro ⟨e, he, hi⟩
      exact hne e he (of_decide_eq_true hi).1
  case isTrue hb =>
    obtain ⟨e, he, hi⟩ := List.mem_map.mp (RunTable.get_isSome_iff.mp hb)
    have hown : ∀ e' ∈ kept, e'.runId = baselineRunId → e' = e :=
      fun e' he' hi' => List.inj_on_of_nodup_map hk.ids he' he (hi'.trans hi.symm)
    by_cases hm : e.member = .counts
    case neg =>
      have hn : ∀ e' ∈ kept, e'.member ≠ .counts :=
        fun e' he' hm' => hm (hown e' he' (hk.baseline e' he' hm') ▸ hm')
      rw [if_pos (List.any_eq_true.mpr ⟨e, he, decide_eq_true ⟨hi, hm⟩⟩), hall hn]
    case pos =>
      have hp := List.perm_cons_erase he
      have hn : ∀ e' ∈ kept.erase e, e'.member ≠ .counts := fun e' he' hm' => by
        have hn := List.nodup_cons.mp ((hp.map (·.member)).nodup_iff.mp hk.members)
        exact hn.1 (List.mem_map.mpr ⟨e', he', hm'.trans hm.symm⟩)
      have hfilter : (kept.filter (·.member ≠ .counts)).Perm (kept.erase e) := by
        refine (hp.filter _).trans (.of_eq ?_)
        rw [List.filter_cons_of_neg (by simp [hm])]
        exact List.filter_eq_self.mpr fun e' he' => decide_eq_true (hn e' he')
      rw [if_neg]
      · refine (rowsOf_perm read' hp).trans ?_
        rw [rowsOf_cons, hm, hf, Option.getD_some]
        exact (rowsOf_perm read' hfilter.symm).cons _
      · rw [List.any_eq_true]
        rintro ⟨e', he', hi'⟩
        obtain ⟨hi', hm'⟩ := of_decide_eq_true hi'
        exact hm' (hown e' he' hi' ▸ hm)

theorem rows_squashRuns (h : a.Holds l)
    (hs : toSquash.Sublist (a.runIds.filter (· ≠ baselineRunId))) (keepRuns : Bool) :
    (rowsOf (a.squashRuns toSquash keepRuns).read (a.squashRuns toSquash keepRuns).runTable.entries).Perm
      (a.rowsAfterSquash toSquash keepRuns) := by
  have ⟨counts, hc⟩ := Option.isSome_iff_exists.mp h.counts
  have hf : (a.squashRuns toSquash keepRuns).read .counts
      = some (combine a.ops (a.counts.toList ++ a.arraysOf toSquash)) := by
    have hf := foldedCounts_eq h hs hc
    rw [hc, Option.toList_some, List.singleton_append, ← hf]
    cases keepRuns <;> rfl
  have hk := h.consistent.sublist (keptEntries_sublist a toSquash keepRuns)
  have hown : ∀ e ∈ (a.keptEntries toSquash keepRuns).filter (·.member ≠ .counts),
      e ∈ a.keptEntries toSquash keepRuns ∧ e.member ≠ .counts :=
    fun e he => ⟨(List.mem_filter.mp he).1, of_decide_eq_true (List.mem_filter.mp he).2⟩
  rw [runTable_squashRuns h.consistent, rowsAfterSquash, ← rowsOf_squashRuns h.consistent hown]
  exact rows_withBaseline hk hf

theorem squash_holds {runs : Option (List String)} {keepRecent : Int} {policy ts : Nat}
    {keepRuns : Bool} {res : SquashResult} (h : a.Holds l)
    (hs : a.squash accel runs keepRecent policy keepRuns ts = .ok (a', res)) :
    a'.ops = a.ops ∧ ∃ l', a'.Holds l' ∧
      l'.values.Perm (a.rowsAfterSquash (a.admittedRuns runs keepRecent policy) keepRuns) := by
  have ⟨hsub, log, ha⟩ := squash_ok hs
  have ⟨l', hl⟩ := squashRuns_holds h res.squashed keepRuns
  rw [← squash_squashed hs, ha]
  refine ⟨by cases keepRuns <;> rfl, l', ⟨hl.consistent, hl.nonempty, hl.counts, hl.entries⟩, ?_⟩
  rw [hl.values_eq]
  exact rows_squashRuns h hsub keepRuns

-- What a squash removes it has folded into a baseline that the table lists.
theorem combine_rowsAfterSquash (h : a.Holds l) (hb : a.ListsBaseline)
    (hs : toSquash.Sublist (a.runIds.filter (· ≠ baselineRunId))) :
    combine a.ops (a.rowsAfterSquash toSquash false) = combine a.ops l.values := by
  have hr := resolveCounts_squashRuns h hs hb false
  have ⟨l', hl⟩ := squashRuns_holds h toSquash false
  rw [hl.resolveCounts_all, hl.values_eq] at hr
  rw [← combine.perm a.ops (rows_squashRuns h hs false)]
  refine (Except.ok.inj hr).trans (combine.perm a.ops ?_)
  have hf : a.keptEntries toSquash false
      = a.runTable.entries.filter fun e => !decide (e.runId ∈ toSquash) := by
    simp [keptEntries]
  rw [h.values_eq, hf]
  refine ((arraysOf_perm h hs).append_right _).trans ?_
  rw [rowsOf, rowsOf, ← List.map_append]
  exact rowsOf_perm a.read (List.filter_append_perm ..)

theorem appendRuns_ops {runs : List Run} {ids : List String}
    (h : a.appendRuns accel runs replace = .ok (a', ids)) : a'.ops = a.ops ∧ a'.counts = a.counts := by
  rw [appendRuns] at h
  cases hb : runs.foldlM (Batch.append accel replace (a.counts.getD []).length)
    { table := a.runTable } <;> simp only [hb] at h <;> cases h
  exact ⟨rfl, rfl⟩

theorem dropRuns_ops {toDrop ids : List String} (h : a.dropRuns toDrop = .ok (a', ids)) :
    a'.ops = a.ops ∧ a'.counts = a.counts := by
  rw [dropRuns] at h
  split at h <;> cases h
  exact ⟨rfl, rfl⟩

end RunMembers

namespace ScopeTreeWriter

theorem writeItems_counts (w : ScopeTreeWriter) (items : List CoverIndex) :
    (w.writeItems items).2.counts.length = w.counts.length + items.length ∧
    (w.writeItems items).1.length = items.length := by
  induction items generalizing w
  case nil => exact ⟨rfl, rfl⟩
  case cons item items hi =>
    have ⟨hc, hr⟩ := hi ((w.addString item.name).2.addCounts [item.data.data])
    rw [writeItems]
    refine ⟨hc.trans ?_, congrArg Nat.succ hr⟩
    simp [addCounts, addString]
    omega

mutual

-- A record takes as many counts as its scope has put in.
theorem writeScope_counts : (s : Scope) → {w w' : ScopeTreeWriter} → {record : ScopeRecord} →
    w.writeScope s = some (record, w') → w'.counts.length = w.counts.length + record.binCount
  | .mk d is ss, w, w', record, h => by
    rw [writeScope] at h
    split at h
    case isTrue =>
      cases h
      simp [addCounts, ScopeRecord.binCount]
    case isFalse =>
      have ⟨⟨header, w₁⟩, hh, h⟩ := Option.bind_eq_some_iff.mp h
      have ⟨⟨records, w₂⟩, hs, h⟩ := Option.bind_eq_some_iff.mp h
      cases h
      have ⟨hc, hr⟩ := w₁.writeItems_counts is
      have ⟨_, _, _, _, _, _, hheader, _⟩ := ScopeTreeReader.writeHeader_ok hh
      have htype : header.coverType = is.head?.map (·.data.type) := by rw [hheader]; rfl
      rw [writeScopes_counts ss hs, hc, ScopeTreeReader.counts_writeHeader hh, ScopeRecord.binCount,
        htype, hr]
      cases is
      case nil       => simp
      case cons i is => simp; omega

theorem writeScopes_counts : (ss : List Scope) → {w w' : ScopeTreeWriter} →
    {records : List ScopeRecord} → w.writeScopes ss = some (records, w') →
    w'.counts.length = w.counts.length + binCountAll records
  | [],      _, _, _, h => by cases h; rfl
  | s :: ss, w, w', records, h => by
    have ⟨⟨record, w₁⟩, hs, h⟩ := Option.bind_eq_some_iff.mp h
    have ⟨⟨rest, w₂⟩, hss, h⟩ := Option.bind_eq_some_iff.mp h
    cases h
    rw [writeScopes_counts ss hss, writeScope_counts s hs, binCountAll, Nat.add_assoc]

end

end ScopeTreeWriter

-- The numbers of a manifest that a reader can compute again.
structure Stats where
  coveritemCount : Nat
  testCount      : Nat
  totalHits      : Nat
  coveredBins    : Nat
  deriving DecidableEq

def Manifest.stats (m : Manifest) : Stats where
  coveritemCount := m.coveritemCount
  testCount      := m.testCount
  totalHits      := m.totalHits
  coveredBins    := m.coveredBins

def MemUCIS.stats (db : MemUCIS) : Stats where
  coveritemCount := db.coverItems.length
  testCount      := db.historyNodes.countP (·.kind = some .test)
  totalHits      := (countsOf db).sum
  coveredBins    := (countsOf db).countP (· > 0)

namespace Archive

variable {accel : Bool} {a a' : Archive} {l : Ledger} {db : LoadedUCIS}

-- What the items of an archive show of some runs.
def shown (a : Archive) (rows : List Counts) : Counts :=
  takeCounts (binCountAll a.scopeTree) (combine a.ops rows)

def SameStats (a : Archive) (rows rows' : List Counts) : Prop :=
  (a.shown rows').sum = (a.shown rows).sum ∧
  (a.shown rows').countP (· > 0) = (a.shown rows).countP (· > 0)

-- The numbers of the manifest are those of the members.
structure Accounted (a : Archive) (l : Ledger) : Prop where
  holds          : a.toRunMembers.Holds l
  coveritemCount : a.manifest.coveritemCount = binCountAll a.scopeTree
  testCount      : a.manifest.testCount = a.history.countP (·.kind.getD .test = .test)
  totalHits      : a.manifest.totalHits = (a.shown l.values).sum
  coveredBins    : a.manifest.coveredBins = (a.shown l.values).countP (· > 0)

theorem countP_readHistory (a : Archive) :
    (NcdbReader.readHistory a).countP (·.kind = some .test)
      = a.history.countP (·.kind.getD .test = .test) := by
  have hk : ∀ nodes : List HistoryNode, nodes.countP (·.kind = some .test)
      = (nodes.map (·.kind)).countP (· = some .test) := by
    intro nodes
    rw [List.countP_map]
    rfl
  rw [hk, NcdbReader.readHistory_kinds, NcdbReader.createdNodes, List.map_map, List.countP_map]
  refine List.countP_congr fun hn _ => ?_
  simp [HistoryNode.reread]

theorem Accounted.read (h : a.Accounted l) (hr : NcdbReader.read a none = .ok db) :
    db.toMemUCIS.stats = a.manifest.stats := by
  have ⟨rd⟩ := read_ok hr
  have hres := h.holds.resolveCounts_all
  rw [rd.resolved] at hres
  have hp : (countsOf db.toMemUCIS).Perm (a.shown l.values) := by
    rw [shown, ← Except.ok.inj hres]
    exact rd.countsOf_perm
  rw [MemUCIS.stats, Manifest.stats, rd.coverItems_length, rd.historyNodes_eq, countP_readHistory,
    hp.sum_nat, hp.countP_eq, h.coveritemCount, h.testCount, h.totalHits, h.coveredBins]

theorem takeCounts_length_self (counts : Counts) : takeCounts counts.length counts = counts := by
  ext bin
  case hl => exact ScopeTreeReader.takeCounts_length ..
  case h =>
    rw [takeCounts, Counts.getD_map_range]
    split
    case isTrue    => rfl
    case isFalse h => exact (Counts.getD_of_length_le (Nat.le_of_not_lt h)).symm

-- An archive with one count for each item and no runs but the baseline.
theorem Accounted.single {counts : Counts} (hw : a.toRunMembers.Written counts)
    (hl : counts.length = binCountAll a.scopeTree) (hi : a.manifest.coveritemCount = counts.length)
    (ht : a.manifest.testCount = a.history.countP (·.kind.getD .test = .test))
    (hh : a.manifest.totalHits = counts.sum)
    (hc : a.manifest.coveredBins = counts.countP (· > 0)) :
    a.Accounted (Dict.empty.set baselineRunId counts) := by
  have hs : a.shown (Dict.empty.set baselineRunId counts).values = counts := by
    have hv : (Dict.empty.set baselineRunId counts : Ledger).values = [counts] := rfl
    rw [shown, hv, combine.singleton, ← hl, takeCounts_length_self]
  constructor
  case holds          => exact hw.holds
  case coveritemCount => exact hi.trans hl
  case testCount      => exact ht
  case totalHits      => rw [hs, hh]
  case coveredBins    => rw [hs, hc]

theorem testCount_store (nodes : List HistoryNode) :
    testCount (nodes.map HistoryNode.store)
      = (nodes.map HistoryNode.store).countP (·.kind.getD .test = .test) := by
  rw [testCount, List.countP_map, List.countP_map]
  refine List.countP_congr fun hn _ => ?_
  simp only [Function.comp_apply, HistoryNode.store, Option.getD_some, Option.some.injEq]
  exact decide_eq_true_iff.trans decide_eq_true_iff.symm

-- An operation on the runs leaves everything else as it is.
theorem Accounted.withRuns (h : a.Accounted l) {m : RunMembers} {l' : Ledger} (hl : m.Holds l')
    (ho : m.ops = a.ops) (hs : a.SameStats l.values l'.values) :
    Accounted { a with toRunMembers := m } l' where
  holds          := hl
  coveritemCount := h.coveritemCount
  testCount      := h.testCount
  totalHits      := by
    refine h.totalHits.trans (hs.1.symm.trans ?_)
    rw [shown, shown, ← ho]
  coveredBins    := by
    refine h.coveredBins.trans (hs.2.symm.trans ?_)
    rw [shown, shown, ← ho]

theorem testCount_storedNodes (nodes : List HistoryNode) :
    testCount (storedNodes nodes) = testCount ((storedNodes nodes).map HistoryNode.store) := by
  rw [testCount, testCount, List.countP_map]
  refine List.countP_congr fun hn hm => ?_
  have hk := (NcdbMerger.mem_storedNodes.mp hm).2
  cases hk <;> simp [HistoryNode.store, *]

theorem accounted_write {accel : Bool} {db : LoadedUCIS} {v2 : Option V2Members}
    (h : NcdbWriter.write accel db v2 = .ok a) : ∃ l, a.Accounted l := by
  have ⟨w⟩ := NcdbWriter.write_ok h
  have hl := ScopeTreeWriter.writeScopes_counts db.scopes w.tree
  rw [List.length_nil, Nat.zero_add, ← w.scopeTree_eq] at hl
  refine ⟨_, Accounted.single ⟨w.runs.1, w.runs.2.1, w.runs.2.2⟩ hl ?_ ?_ ?_ ?_⟩
  case refine_2 =>
    rw [w.history, ← testCount_store, ← testCount_storedNodes, w.manifest]
    rfl
  all_goals
    rw [w.manifest]
    rfl

-- Whether the baseline of an archive has one count for each item.
def Aligned (a : Archive) : Prop :=
  a.baseline.length = binCountAll a.scopeTree

theorem accounted_mergeSameSchema {accel : Bool} {node : HistoryNode} {first : Archive}
    {rest : List Archive} (hf : first.Aligned)
    (h : NcdbMerger.mergeSameSchema accel node first rest = .ok a) : ∃ l, a.Accounted l := by
  have ⟨m⟩ := NcdbMerger.mergeSameSchema_ok h
  have ⟨hw, hc⟩ := NcdbMerger.combineCounts_ok m.combined
  have hl : m.counts.length = first.baseline.length :=
    NcdbMerger.mergeSourceCounts_length (by simp) hw hc
  have hw : a.toRunMembers.Written m.counts := by
    rw [m.out_runs]
    exact ⟨rfl, rfl, rfl⟩
  refine ⟨_, Accounted.single hw (hl.trans ?_) ?_ ?_ ?_ ?_⟩
  case refine_1 => rw [hf, m.schema.scopeTree]
  case refine_3 =>
    rw [m.manifest, m.history, NcdbMerger.mergedHistory, ← testCount_store]
    rfl
  all_goals
    rw [m.manifest]
    rfl

theorem accounted_merge {accel allow : Bool} {target : String} {names : List String} {date : Int}
    {sources : List Archive}
    (hf : ∀ first rest, sources = first :: rest → NcdbMerger.sameSchema first rest → first.Aligned)
    (h : NcdbMerger.merge accel target names date allow sources = .ok a) : ∃ l, a.Accounted l := by
  cases sources
  case nil => cases h
  case cons first rest =>
    rw [NcdbMerger.merge] at h
    split at h
    case isTrue hs => exact accounted_mergeSameSchema (hf first rest rfl hs) h
    case isFalse =>
      split at h
      case isFalse => cases h
      case isTrue =>
        obtain ⟨dbs, _, h⟩ := bind_ok h
        obtain ⟨db, _, h⟩ := bind_ok h
        exact accounted_write h

-- The archives that are reached by steps that keep the numbers. A merge takes counts only from a
-- source with one count for each item; the runs that an archive holds after an append, a drop or a
-- squash add up to the hits and the covered items of the runs it held before.
inductive Reached : Archive → Prop
  | write {accel db v2 a} : NcdbWriter.write accel db v2 = .ok a → Reached a
  | merge {accel target names date allow sources a} :
    (∀ s ∈ sources, Reached s) →
    (∀ first rest, sources = first :: rest → NcdbMerger.sameSchema first rest → first.Aligned) →
    NcdbMerger.merge accel target names date allow sources = .ok a → Reached a
  | append {accel replace a runs a' ids} :
    Reached a → (∀ l, a.Holds l → a.SameStats l.values (l.appendRuns runs).values) →
    a.appendRuns accel runs replace = .ok (a', ids) → Reached a'
  | drop {a toDrop a' ids} :
    Reached a → (∀ l, a.Holds l → a.SameStats l.values (l.filterKeys (· ∉ toDrop)).values) →
    a.dropRuns toDrop = .ok (a', ids) → Reached a'
  | squash {accel a runs keepRecent policy keepRuns ts a' res} :
    Reached a →
    (∀ l, a.Holds l → a.SameStats l.values
      (a.rowsAfterSquash (a.admittedRuns runs keepRecent policy) keepRuns)) →
    a.squash accel runs keepRecent policy keepRuns ts = .ok (a', res) → Reached a'

theorem map_ok {α : Type} {m : Except RunError (RunMembers × α)} {x : α}
    (h : (m.map fun (m, x) => ({ a with toRunMembers := m }, x)) = .ok (a', x)) :
    ∃ r, m = .ok (r, x) ∧ a' = { a with toRunMembers := r } := by
  cases m <;> cases h
  exact ⟨_, rfl, rfl⟩

theorem Reached.accounted (h : Reached a) : ∃ l, a.Accounted l := by
  induction h
  case write h          => exact accounted_write h
  case merge hf h _     => exact accounted_merge hf h
  case append hs h hi   =>
    have ⟨l, hi⟩ := hi
    have ⟨_, hm, he⟩ := map_ok h
    rw [he]
    exact ⟨_, hi.withRuns (RunMembers.appendRuns_holds hi.holds hm)
      (RunMembers.appendRuns_ops hm).1 (hs _ hi.holds)⟩
  case drop hs h hi     =>
    have ⟨l, hi⟩ := hi
    have ⟨_, hm, he⟩ := map_ok h
    rw [he]
    exact ⟨_, hi.withRuns (RunMembers.dropRuns_ok hi.holds hm) (RunMembers.dropRuns_ops hm).1
      (hs _ hi.holds)⟩
  case squash hs h hi   =>
    have ⟨l, hi⟩ := hi
    have ⟨_, hm, he⟩ := map_ok h
    have ⟨ho, l', hl, hp⟩ := RunMembers.squash_holds hi.holds hm
    rw [he]
    refine ⟨l', hi.withRuns hl ho ?_⟩
    have hs := hs _ hi.holds
    rw [SameStats, shown, shown, combine.perm _ hp]
    exact hs

-- A squash that removes the runs it folds keeps the numbers if the table lists the baseline.
theorem sameStats_squash {runs : Option (List String)} {keepRecent : Int} {policy : Nat}
    (h : a.Holds l) (hb : a.ListsBaseline) :
    a.SameStats l.values (a.rowsAfterSquash (a.admittedRuns runs keepRecent policy) false) := by
  have hs : (a.admittedRuns runs keepRecent policy).Sublist
      (a.runIds.filter (· ≠ baselineRunId)) :=
    List.filter_sublist.trans (a.squashPlan_sublist keepRecent runs)
  rw [SameStats, shown, shown, RunMembers.combine_rowsAfterSquash h hb hs]
  exact ⟨rfl, rfl⟩

-- In every such archive the manifest has the numbers of the database that it is read as.
theorem Reached.stats (h : Reached a) (hr : NcdbReader.read a none = .ok db) :
    db.toMemUCIS.stats = a.manifest.stats := by
  have ⟨_, h⟩ := h.accounted
  exact h.read hr

-- A block with a statement that is hit once, and a run that is appended to it.

def hitBlock : LoadedUCIS where
  scopes := [.mk { name := "top", type := .block }
    [{ name := "s0", data := { type := .stmtBin, flags := defaultFlags .stmtBin, data := 1 } }] []]

def runOf (count : Nat) : Run where
  runId  := some "nightly"
  counts := some [count]

-- A run that hits nothing leaves the numbers as they are.
theorem Reached.stats_idleRun : ∃ a a' db, NcdbWriter.write false hitBlock = .ok a ∧
    a.appendRuns false [runOf 0] false = .ok (a', ["nightly"]) ∧
    NcdbReader.read a' none = .ok db ∧ db.toMemUCIS.stats = a'.manifest.stats := by
  have ⟨a, hw⟩ : ∃ a, NcdbWriter.write false hitBlock = .ok a := ⟨_, rfl⟩
  have ⟨a', ha⟩ : ∃ a', a.appendRuns false [runOf 0] false = .ok (a', ["nightly"]) := by
    cases hw
    exact ⟨_, rfl⟩
  have ⟨db, hr⟩ : ∃ db, NcdbReader.read a' none = .ok db := by
    cases hw
    cases ha
    exact ⟨_, rfl⟩
  have hs : ∀ l, a.Holds l → a.SameStats l.values (l.appendRuns [runOf 0]).values := by
    intro l hl
    have he : l = Dict.empty.set baselineRunId [1] := by
      cases hw
      exact Dict.ext hl.entries
    cases hw
    rw [he]
    exact ⟨rfl, rfl⟩
  exact ⟨a, a', db, hw, ha, hr, Reached.stats (.append (.write hw) hs ha) hr⟩

-- The hits of a run are read, but the manifest stays as it was.
theorem appendRuns_stale : ∃ a a' db, NcdbWriter.write false hitBlock = .ok a ∧
    a.appendRuns false [runOf 5] false = .ok (a', ["nightly"]) ∧
    NcdbReader.read a' none = .ok db ∧
    db.toMemUCIS.stats = ⟨1, 0, 6, 1⟩ ∧ a'.manifest.stats = ⟨1, 0, 1, 1⟩ :=
  ⟨_, _, _, rfl, rfl, rfl, rfl, rfl⟩

end Archive
