import Covsight.Ncdb.TestplanClosure
import Covsight.Ncdb.NcdbUCIS
import Mathlib.Algebra.Order.BigOperators.Group.List
import Mathlib.Algebra.Order.Group.Nat
import Mathlib.Data.List.Induction

-- When the closure of a test plan is sound.

variable (isDecimal : Char → Bool)

section Matching

-- The test that a pattern names with or without its seed.
def directMatch (has : String → Bool) (pattern : String) : Option String :=
  if has pattern then
    some pattern
  else if stripSeed isDecimal pattern ≠ pattern ∧ has (stripSeed isDecimal pattern) then
    some (stripSeed isDecimal pattern)
  else
    none

-- All tests that a pattern matches.
def matchesOf (has : String → Bool) (names : List String) (pattern : String) : List String :=
  match directMatch isDecimal has pattern with
  | some name => [name]
  | none      => if isPrefixPattern pattern then names.filter (startsWithPattern pattern) else []

-- The counts are those of the matched tests, each as often as it was matched.
structure Matches.Counted (t : Tallies) (m : Matches) : Prop where
  passes : m.passes = (m.matched.map t.passes).sum
  fails  : m.fails = (m.matched.map t.fails).sum

theorem Matches.Counted.empty (t : Tallies) : Matches.Counted t {} :=
  ⟨rfl, rfl⟩

theorem Matches.Counted.add {t : Tallies} {m : Matches} (h : m.Counted t) (name : String) :
    (m.add t name).Counted t := by
  constructor <;> simp [Matches.add, h.passes, h.fails]

-- Names that are added if they are new.
theorem foldl_new_spec (t : Tallies) (p : String → Bool) (names : List String) (m : Matches) :
    let m' := names.foldl (fun m name => if p name ∧ name ∉ m.matched then m.add t name else m) m
    (∀ x, x ∈ m'.matched ↔ x ∈ m.matched ∨ x ∈ names.filter p) ∧
      (m'.matched.Nodup ↔ m.matched.Nodup) ∧ (m.Counted t → m'.Counted t) := by
  induction names generalizing m
  case nil => simp
  case cons name names hi =>
    rw [List.foldl_cons]
    by_cases hn : p name ∧ name ∉ m.matched
    case pos =>
      have ⟨hm, hd, hc⟩ := hi (m.add t name)
      rw [if_pos hn]
      refine ⟨fun x => ?_, hd.trans ?_, fun h => hc (h.add name)⟩
      · rw [hm, Matches.add, List.mem_append, List.mem_singleton, List.filter_cons_of_pos hn.left,
          List.mem_cons, or_assoc]
      · rw [Matches.add, List.nodup_append]
        simp only [List.nodup_cons, List.not_mem_nil, not_false_eq_true, List.nodup_nil, and_self,
          List.mem_singleton, true_and]
        exact ⟨fun h => h.left, fun h => ⟨h, fun a ha b hb he => hn.right (hb ▸ he ▸ ha)⟩⟩
    case neg =>
      have ⟨hm, hd, hc⟩ := hi m
      rw [if_neg hn]
      refine ⟨fun x => ?_, hd, hc⟩
      rw [hm]
      by_cases hp : p name
      case neg => rw [List.filter_cons_of_neg hp]
      case pos =>
        have hmem : name ∈ m.matched := by
          by_contra hc
          exact hn ⟨hp, hc⟩
        rw [List.filter_cons_of_pos hp, List.mem_cons]
        refine ⟨Or.imp_right .inr, fun h => ?_⟩
        cases h
        case inl h => exact .inl h
        case inr h => exact h.elim (fun h => .inl (h ▸ hmem)) .inr

theorem matchPattern_spec (t : Tallies) (m : Matches) (pattern : String) :
    let m' := matchPattern isDecimal t m pattern
    (∀ x, x ∈ m'.matched ↔ x ∈ m.matched ∨ x ∈ matchesOf isDecimal t.has t.names pattern) ∧
      (m'.matched.Nodup ↔ m.matched.Nodup ∧
        ∀ x ∈ directMatch isDecimal t.has pattern, x ∉ m.matched) ∧
      (m.Counted t → m'.Counted t) := by
  have hadd (name : String) : (∀ x, x ∈ (m.add t name).matched ↔ x ∈ m.matched ∨ x ∈ [name]) ∧
      ((m.add t name).matched.Nodup ↔ m.matched.Nodup ∧ ∀ x ∈ some name, x ∉ m.matched) ∧
      (m.Counted t → (m.add t name).Counted t) := by
    refine ⟨fun x => by rw [Matches.add, List.mem_append], ?_, fun h => h.add name⟩
    rw [Matches.add, List.nodup_append]
    simp only [List.nodup_cons, List.not_mem_nil, not_false_eq_true, List.nodup_nil, and_self,
      List.mem_singleton, true_and, Option.mem_some_iff, forall_eq']
    exact and_congr_right' ⟨fun h hm => h name hm name rfl rfl, fun h a ha b hb he => h (hb ▸ he ▸ ha)⟩
  rw [matchPattern, matchesOf, directMatch]
  by_cases h₁ : t.has pattern
  case pos =>
    simp only [if_pos h₁]
    exact hadd pattern
  case neg =>
    by_cases h₂ : stripSeed isDecimal pattern ≠ pattern ∧ t.has (stripSeed isDecimal pattern)
    case pos =>
      simp only [if_neg h₁, if_pos h₂]
      exact hadd _
    case neg =>
      simp only [if_neg h₁, if_neg h₂]
      by_cases h₃ : isPrefixPattern pattern
      case pos =>
        have ⟨hm, hd, hc⟩ := foldl_new_spec t (startsWithPattern pattern) t.names m
        simp only [if_pos h₃]
        exact ⟨hm, by simpa using hd, hc⟩
      case neg =>
        simp only [if_neg h₃]
        simp

-- What a list of patterns matches. A test is matched twice by a pattern that names it after another
-- one that matches it.
theorem foldl_matchPattern_spec (t : Tallies) (tests : List String) (m : Matches) :
    let m' := tests.foldl (matchPattern isDecimal t) m
    (∀ x, x ∈ m'.matched ↔ x ∈ m.matched ∨ ∃ e ∈ tests, x ∈ matchesOf isDecimal t.has t.names e) ∧
      (m'.matched.Nodup ↔ m.matched.Nodup ∧
        tests.Pairwise (fun e e' => ∀ x ∈ directMatch isDecimal t.has e',
          x ∉ matchesOf isDecimal t.has t.names e) ∧
        ∀ e ∈ tests, ∀ x ∈ directMatch isDecimal t.has e, x ∉ m.matched) ∧
      (m.Counted t → m'.Counted t) := by
  induction tests generalizing m
  case nil => simp
  case cons e tests hi =>
    have ⟨hm, hd, hc⟩ := matchPattern_spec isDecimal t m e
    have ⟨him, hid, hic⟩ := hi (matchPattern isDecimal t m e)
    rw [List.foldl_cons]
    refine ⟨fun x => ?_, hid.trans ?_, fun h => hic (hc h)⟩
    · rw [him, hm, or_assoc]
      simp
    · rw [hd, List.pairwise_cons]
      simp only [hm, not_or, List.forall_mem_cons]
      constructor
      case mp =>
        intro ⟨⟨hn, he⟩, hp, ht⟩
        exact ⟨hn, ⟨fun e' he' x hx => (ht e' he' x hx).right, hp⟩, he,
          fun e' he' x hx => (ht e' he' x hx).left⟩
      case mpr =>
        intro ⟨hn, ⟨hp', hp⟩, he, ht⟩
        exact ⟨⟨hn, he⟩, hp, fun e' he' x hx => ⟨ht e' he' x hx, hp' e' he' x hx⟩⟩

end Matching

-- A run as both sources record it: the name of its test and how it ended.
structure RunOutcome where
  name   : String
  status : Nat
  deriving DecidableEq

section Sources

variable (runs : List RunOutcome)

def recordedTest (name : String) : Bool :=
  runs.any (·.name = name)

def passing (name : String) : Nat :=
  runs.countP fun r => r.name = name ∧ r.status = histStatusOk

def failing (name : String) : Nat :=
  runs.countP fun r => r.name = name ∧ r.status = histStatusFail

def notPassing (name : String) : Nat :=
  runs.countP fun r => r.name = name ∧ r.status ≠ histStatusOk

-- Statistics of the runs, with the names in any order.
structure StatsRecord (registry : StringIds) (stats : TestStatsTable) : Prop where
  names   : registry.strings.Nodup
  length  : stats.entries.length = registry.strings.length
  has     : ∀ name, name ∈ registry.strings ↔ recordedTest runs name
  entries : ∀ (nameId : Nat) name, registry.strings[nameId]? = some name →
    ∃ e, stats.entries[nameId]? = some e ∧ e.passCount = passing runs name ∧
      e.failCount = failing runs name

-- History nodes of the runs, in any order.
def NodesRecord (nodes : List HistoryNode) : Prop :=
  ((historyNodesOf nodes .test).map fun n => (n.logicalName, decide (n.testStatus = .ok))).Perm
    (runs.map fun r => (r.name, decide (r.status = histStatusOk)))

def RunSource.Records : RunSource → Prop
  | v2History registry stats => StatsRecord runs registry stats
  | historyNodes nodes       => NodesRecord runs nodes

-- What the tallies of a source tell of the runs. Only the history nodes tell of runs that ended
-- neither way.
structure Tallies.Reads (fails : String → Nat) (t : Tallies) : Prop where
  has    : t.has = recordedTest runs
  passes : t.passes = passing runs
  fails  : t.fails = fails

variable {runs}

theorem mem_names_iff (t : Tallies) (name : String) : name ∈ t.names ↔ t.has name := by
  rw [Tallies.names, List.mem_append, List.mem_filter, Tallies.has]
  simp only [decide_eq_true_eq, Dict.mem_def]
  tauto

theorem foldl_addStats {stats : TestStatsTable} {f g : String → Nat} (names : List String) (k : Nat)
    (h : ∀ (i : Nat) name, names[i]? = some name →
      ∃ e, stats.entries[k + i]? = some e ∧ e.passCount = f name ∧ e.failCount = g name)
    (t : Tallies) (name : String) :
    let t' := (names.zipIdx k).foldl (Tallies.addStats stats) t
    t'.testPass.get? name = (if name ∈ names then some (f name) else t.testPass.get? name) ∧
      t'.testFail.get? name = if name ∈ names then some (g name) else t.testFail.get? name := by
  induction names generalizing k t
  case nil => simp
  case cons x names hi =>
    have ⟨e, he, hp, hf⟩ := h 0 x rfl
    rw [Nat.add_zero] at he
    have ha : Tallies.addStats stats t (x, k) =
        { testPass := t.testPass.set x (f x), testFail := t.testFail.set x (g x) } := by
      rw [Tallies.addStats]
      simp only [he, hp, hf]
    have hi := hi (k + 1) (fun i name hn => by
      have hn := h (i + 1) name hn
      rwa [← Nat.add_assoc, Nat.add_right_comm] at hn) (Tallies.addStats stats t (x, k))
    rw [List.zipIdx_cons, List.foldl_cons]
    refine ⟨hi.left.trans ?_, hi.right.trans ?_⟩
    all_goals
      rw [ha]
      simp only [Dict.get?_set, List.mem_cons]
      by_cases hm : name ∈ names
      case pos => simp [hm]
      case neg =>
        by_cases hx : x = name
        case pos => simp [hx]
        case neg => simp [hm, hx, Ne.symm hx]

-- A test without runs has no outcomes.
theorem counts_eq_zero {name : String} (h : ¬recordedTest runs name) :
    passing runs name = 0 ∧ failing runs name = 0 := by
  rw [recordedTest, List.any_eq_true] at h
  constructor
  all_goals
    refine List.countP_eq_zero.mpr fun r hr hc => h ⟨r, hr, decide_eq_true ?_⟩
    exact (of_decide_eq_true hc).left

theorem StatsRecord.reads {registry : StringIds} {stats : TestStatsTable}
    (h : StatsRecord runs registry stats) :
    (RunSource.v2History registry stats).tallies.Reads runs (failing runs) := by
  have hf := foldl_addStats registry.strings 0 (fun i name hn => by
    rw [Nat.zero_add]
    exact h.entries i name hn) {}
  have hpass (name : String) : (RunSource.v2History registry stats).tallies.testPass.get? name =
      if name ∈ registry.strings then some (passing runs name) else none := (hf name).left
  have hfail (name : String) : (RunSource.v2History registry stats).tallies.testFail.get? name =
      if name ∈ registry.strings then some (failing runs name) else none := (hf name).right
  have hzero {name : String} (hn : name ∉ registry.strings) :=
    counts_eq_zero fun hr => hn ((h.has name).mpr hr)
  constructor
  case has =>
    funext name
    have hb : (RunSource.v2History registry stats).tallies.has name ↔ recordedTest runs name := by
      rw [← h.has, Tallies.has, decide_eq_true_eq, ← Dict.get?_isSome_iff, ← Dict.get?_isSome_iff,
        hpass, hfail]
      by_cases hn : name ∈ registry.strings <;> simp [hn]
    exact Bool.eq_iff_iff.mpr hb
  case passes =>
    funext name
    rw [Tallies.passes, hpass]
    split
    case isTrue     => rfl
    case isFalse hn => exact (hzero hn).left.symm
  case fails =>
    funext name
    rw [Tallies.fails, hfail]
    split
    case isTrue     => rfl
    case isFalse hn => exact (hzero hn).right.symm

theorem foldl_addNode (nodes : List HistoryNode) (t : Tallies) (name : String) :
    let t' := nodes.foldl Tallies.addNode t
    t'.passes name = t.passes name + nodes.countP (fun n => n.logicalName = name ∧ n.testStatus = .ok) ∧
      t'.fails name = t.fails name + nodes.countP (fun n => n.logicalName = name ∧ n.testStatus ≠ .ok) ∧
      t'.has name = (t.has name || nodes.any (·.logicalName = name)) := by
  induction nodes generalizing t
  case nil => simp
  case cons n nodes hi =>
    have ⟨hp, hf, hh⟩ := hi (t.addNode n)
    rw [List.foldl_cons]
    refine ⟨hp.trans ?_, hf.trans ?_, hh.trans ?_⟩
    all_goals
      rw [Tallies.addNode]
      by_cases hs : n.testStatus = .ok
      all_goals
        by_cases hn : n.logicalName = name
        case pos => simp [hs, hn, Tallies.passes, Tallies.fails, Tallies.has, Nat.add_comm,
          Nat.add_assoc, Nat.add_left_comm]
        case neg => simp [hs, hn, Ne.symm hn, Tallies.passes, Tallies.fails, Tallies.has,
          Dict.get?_set]

theorem NodesRecord.reads {nodes : List HistoryNode} (h : NodesRecord runs nodes) :
    (RunSource.historyNodes nodes).tallies.Reads runs (notPassing runs) := by
  have hf := foldl_addNode (historyNodesOf nodes .test) {}
  have hcount (p : String × Bool → Bool) := h.countP_eq p
  simp only [List.countP_map, Function.comp_def] at hcount
  constructor
  case has =>
    funext name
    have hany : (historyNodesOf nodes .test).any (·.logicalName = name) = runs.any (·.name = name) := by
      have h := h.any_eq (f := fun x => decide (x.1 = name))
      simpa only [List.any_map, Function.comp_def] using h
    refine (hf name).2.2.trans ?_
    rw [hany, recordedTest]
    simp [Tallies.has]
  case passes =>
    funext name
    refine (hf name).1.trans ?_
    have hc := hcount fun x => x.1 = name ∧ x.2
    simp only [decide_eq_true_eq] at hc
    rw [hc, passing]
    exact Nat.zero_add _
  case fails =>
    funext name
    refine (hf name).2.1.trans ?_
    have hc := hcount fun x => x.1 = name ∧ x.2 = false
    simp only [decide_eq_false_iff_not] at hc
    rw [hc, notPassing]
    exact Nat.zero_add _

section Recording

variable {registry : StringIds} {stats : TestStatsTable}

theorem TestStatsEntry.update_passCount (e : TestStatsEntry) (status : Nat) (ts : Int)
    (cpuTime : Option Rat) (seedId : Option Nat) :
    (e.update status ts cpuTime seedId).passCount =
      e.passCount + if status = histStatusOk then 1 else 0 := by
  cases cpuTime <;> cases seedId <;>
    simp only [update, updateCounts, updateCpuTime, updateCusum, updateSeeds] <;> split <;> rfl

theorem TestStatsEntry.update_failCount (e : TestStatsEntry) (status : Nat) (ts : Int)
    (cpuTime : Option Rat) (seedId : Option Nat) :
    (e.update status ts cpuTime seedId).failCount =
      e.failCount + if status = histStatusFail then 1 else 0 := by
  cases cpuTime <;> cases seedId <;>
    simp only [update, updateCounts, updateCpuTime, updateCusum, updateSeeds] <;> split <;> rfl

theorem TestStatsTable.update_known {nameId : Nat} (h : nameId < stats.entries.length)
    (status : Nat) (ts : Int) (cpuTime : Option Rat) (seedId : Option Nat) :
    (stats.update nameId status ts cpuTime seedId).entries =
      stats.entries.modify nameId (·.update status ts cpuTime seedId) := by
  rw [update, ensure, Nat.sub_eq_zero_of_le h]
  simp

theorem TestStatsTable.update_next (status : Nat) (ts : Int) (cpuTime : Option Rat)
    (seedId : Option Nat) :
    (stats.update stats.entries.length status ts cpuTime seedId).entries =
      stats.entries ++
        [({ nameId := stats.entries.length } : TestStatsEntry).update status ts cpuTime seedId] := by
  rw [update, ensure, Nat.add_sub_cancel_left, List.modify_eq_take_cons_drop (by simp)]
  simp

theorem recordedTest_concat (run : RunOutcome) (name : String) :
    recordedTest (runs ++ [run]) name ↔ recordedTest runs name ∨ name = run.name := by
  simp [recordedTest, eq_comm (a := name)]

theorem passing_concat (run : RunOutcome) (name : String) :
    passing (runs ++ [run]) name =
      passing runs name + if run.name = name ∧ run.status = histStatusOk then 1 else 0 := by
  rw [passing, List.countP_append, List.countP_singleton]
  simp [passing]

theorem failing_concat (run : RunOutcome) (name : String) :
    failing (runs ++ [run]) name =
      failing runs name + if run.name = name ∧ run.status = histStatusFail then 1 else 0 := by
  rw [failing, List.countP_append, List.countP_singleton]
  simp [failing]

-- What `add_test_run` keeps of a run's name and status.
theorem StatsRecord.update (h : StatsRecord runs registry stats) (run : RunOutcome) (ts : Int)
    (cpuTime : Option Rat) (seedId : Option Nat) :
    StatsRecord (runs ++ [run]) (registry.lookupId run.name).snd
      (stats.update (registry.lookupId run.name).fst run.status ts cpuTime seedId) := by
  rw [StringIds.lookupId]
  split
  case h_1 i hi =>
    rw [StringIds.idOf_eq_some_iff h.names] at hi
    obtain ⟨hl, _⟩ := List.getElem?_eq_some_iff.mp hi
    have hu := TestStatsTable.update_known (h.length ▸ hl) run.status ts cpuTime seedId
    have hm : run.name ∈ registry.strings := List.mem_of_getElem? hi
    constructor
    case names  => exact h.names
    case length => rw [hu, List.length_modify, h.length]
    case has =>
      intro name
      rw [recordedTest_concat, ← h.has]
      exact ⟨.inl, fun hn => hn.elim id (fun he => he ▸ hm)⟩
    case entries =>
      intro j name hj
      obtain ⟨e, he, hp, hf⟩ := h.entries j name hj
      rw [hu, List.getElem?_modify, he, passing_concat, failing_concat]
      by_cases hij : i = j
      case pos =>
        have hname : run.name = name := by
          rw [← hij, hi] at hj
          exact Option.some_inj.mp hj
        refine ⟨_, by simp only [if_pos hij]; rfl, ?_, ?_⟩
        · rw [TestStatsEntry.update_passCount, hp]
          simp [hname]
        · rw [TestStatsEntry.update_failCount, hf]
          simp [hname]
      case neg =>
        have hname : run.name ≠ name := fun hname =>
          hij <| (List.getElem?_inj hl h.names).mp <| by rw [hi, hj, hname]
        exact ⟨e, by simp only [if_neg hij]; rfl, by simp [hname, hp], by simp [hname, hf]⟩
  case h_2 hi =>
    rw [StringIds.idOf_eq_none_iff] at hi
    have hu := @TestStatsTable.update_next stats run.status ts cpuTime seedId
    rw [h.length] at hu
    have hz := counts_eq_zero fun hr => hi ((h.has _).mpr hr)
    constructor
    case names  => simpa using h.names.concat hi
    case length => simp [hu, h.length]
    case has =>
      intro name
      rw [recordedTest_concat, ← h.has]
      simp
    case entries =>
      intro j name hj
      rw [hu]
      by_cases hlt : j < registry.strings.length
      case pos =>
        rw [List.getElem?_append_left hlt] at hj
        rw [List.getElem?_append_left (h.length ▸ hlt), passing_concat, failing_concat]
        obtain ⟨e, he, hp, hf⟩ := h.entries j name hj
        have hname : run.name ≠ name := fun hname => hi (hname ▸ List.mem_of_getElem? hj)
        exact ⟨e, he, by simp [hname, hp], by simp [hname, hf]⟩
      case neg =>
        have hl : j = registry.strings.length := by
          obtain ⟨hj, _⟩ := List.getElem?_eq_some_iff.mp hj
          rw [List.length_append, List.length_singleton] at hj
          omega
        have hname : run.name = name := by simpa [hl] using hj
        rw [hl, ← h.length, List.getElem?_concat_length, ← hname, passing_concat, failing_concat]
        refine ⟨_, rfl, ?_, ?_⟩
        · rw [TestStatsEntry.update_passCount, hz.left]
          simp
        · rw [TestStatsEntry.update_failCount, hz.right]
          simp

end Recording

theorem StatsRecord.empty : StatsRecord [] {} {} := by
  constructor <;> simp [recordedTest]

-- A run among the history nodes.
def RunOutcome.historyNode (r : RunOutcome) : HistoryNode where
  logicalName := r.name
  kind        := some .test
  testStatus  := if r.status = histStatusOk then .ok else .error

-- Any runs can be recorded in the statistics and in history nodes.
theorem exists_v2History (runs : List RunOutcome) :
    ∃ registry stats, (RunSource.v2History registry stats).Records runs := by
  induction runs using List.reverseRecOn
  case nil => exact ⟨_, _, StatsRecord.empty⟩
  case append_singleton runs run hi =>
    have ⟨_, _, h⟩ := hi
    exact ⟨_, _, StatsRecord.update h run 0 none none⟩

theorem exists_historyNodes (runs : List RunOutcome) :
    ∃ nodes, (RunSource.historyNodes nodes).Records runs := by
  have hk : historyNodesOf (runs.map RunOutcome.historyNode) .test =
      runs.map RunOutcome.historyNode := List.filter_eq_self.mpr (by simp [RunOutcome.historyNode])
  refine ⟨runs.map RunOutcome.historyNode, .of_eq ?_⟩
  rw [hk, List.map_map]
  refine List.map_congr_left fun r _ => ?_
  by_cases hs : r.status = histStatusOk <;> simp [RunOutcome.historyNode, hs]

end Sources

section Closure

variable (runs : List RunOutcome)

-- The tests that an entry of a test list stands for.
def matchesTest (entry name : String) : Prop :=
  directMatch isDecimal (recordedTest runs) entry = some name ∨
    directMatch isDecimal (recordedTest runs) entry = none ∧
      isPrefixPattern entry ∧ startsWithPattern entry name ∧ recordedTest runs name

def matchesAny (entry : String) : Prop :=
  ∃ name, matchesTest isDecimal runs entry name

-- The tests that a test point stands for.
def Testpoint.matchedTest (tp : Testpoint) (name : String) : Prop :=
  ∃ entry ∈ tp.tests, matchesTest isDecimal runs entry name

def Testpoint.isMapped (tp : Testpoint) : Prop :=
  tp.na = false ∧ tp.tests ≠ []

structure Testpoint.Passed (tp : Testpoint) : Prop where
  mapped  : tp.isMapped
  matched : ∀ entry ∈ tp.tests, matchesAny isDecimal runs entry
  passed  : ∀ name, tp.matchedTest isDecimal runs name →
    ∀ r ∈ runs, r.name = name → r.status = histStatusOk

-- The test points on which the closure goes right: no two entries meet in a test, except that both
-- are prefixes; no run of a matched test ended neither way; and an entry without a match either
-- stands among others without one or is made up for by a run that did not pass.
structure Testpoint.Clean (tp : Testpoint) : Prop where
  apart     : tp.tests.Pairwise fun e e' => ∀ name, matchesTest isDecimal runs e name →
    matchesTest isDecimal runs e' name → directMatch isDecimal (recordedTest runs) e = none ∧
      directMatch isDecimal (recordedTest runs) e' = none
  bothWays  : ∀ name, tp.matchedTest isDecimal runs name →
    ∀ r ∈ runs, r.name = name → r.status = histStatusOk ∨ r.status = histStatusFail
  unmatched : (∀ entry ∈ tp.tests, matchesAny isDecimal runs entry) ∨
    (∀ entry ∈ tp.tests, ¬matchesAny isDecimal runs entry) ∨
    ∃ name, tp.matchedTest isDecimal runs name ∧
      ∃ r ∈ runs, r.name = name ∧ r.status ≠ histStatusOk

structure TestpointResult.Same (r r' : TestpointResult) : Prop where
  status  : r.status = r'.status
  matched : r.matchedTests.Perm r'.matchedTests
  passes  : r.passCount = r'.passCount
  fails   : r.failCount = r'.failCount

-- The same test point with its tests in another order.
def Testpoint.Reordered (tp tp' : Testpoint) : Prop :=
  tp' = { tp with tests := tp'.tests } ∧ tp'.tests.Perm tp.tests

structure ClosureSound (plan : ParsedTestplan) : Prop where
  closed   : ∀ source : RunSource, source.Records runs →
    ∀ r ∈ computeClosure isDecimal plan source,
      r.status = .closed ↔ r.testpoint.Passed isDecimal runs
  distinct : ∀ source : RunSource, source.Records runs →
    ∀ r ∈ computeClosure isDecimal plan source, r.matchedTests.Nodup
  counts   : ∀ source : RunSource, source.Records runs →
    ∀ r ∈ computeClosure isDecimal plan source,
      r.passCount = (r.matchedTests.dedup.map source.tallies.passes).sum ∧
      r.failCount = (r.matchedTests.dedup.map source.tallies.fails).sum
  agree    : ∀ source source' : RunSource, source.Records runs → source'.Records runs →
    ∀ plan' : ParsedTestplan,
      List.Forall₂ Testpoint.Reordered plan.iterTestpoints plan'.iterTestpoints →
      List.Forall₂ TestpointResult.Same (computeClosure isDecimal plan source)
        (computeClosure isDecimal plan' source')

variable {isDecimal} {runs}

theorem RunSource.Records.reads {source : RunSource} (h : source.Records runs) :
    ∃ fails, (fails = failing runs ∨ fails = notPassing runs) ∧ source.tallies.Reads runs fails := by
  cases source
  case v2History    => exact ⟨_, .inl rfl, StatsRecord.reads h⟩
  case historyNodes => exact ⟨_, .inr rfl, NodesRecord.reads h⟩

variable {t t' : Tallies} {fails fails' : String → Nat} {tp tp' : Testpoint}

theorem Tallies.Reads.mem_matchesOf (h : t.Reads runs fails) {entry name : String} :
    name ∈ matchesOf isDecimal t.has t.names entry ↔ matchesTest isDecimal runs entry name := by
  rw [matchesOf, matchesTest, ← h.has]
  cases directMatch isDecimal t.has entry
  case some =>
    simp only [List.mem_singleton, Option.some.injEq, reduceCtorEq, false_and, or_false]
    exact eq_comm
  case none =>
    by_cases hp : isPrefixPattern entry
    case neg => simp [hp]
    case pos => simp [hp, mem_names_iff, and_comm]

-- What is reported of a test point that has tests.
structure TestpointResult.Describes (tp : Testpoint) (fails : String → Nat) (r : TestpointResult) : Prop where
  matched  : ∀ name, name ∈ r.matchedTests ↔ tp.matchedTest isDecimal runs name
  distinct : r.matchedTests.Nodup ↔ tp.tests.Pairwise fun e e' =>
    ∀ name, directMatch isDecimal (recordedTest runs) e' = some name →
      ¬matchesTest isDecimal runs e name
  passes   : r.passCount = (r.matchedTests.map (passing runs)).sum
  fails    : r.failCount = (r.matchedTests.map fails).sum
  status   : r.status =
    if r.matchedTests.isEmpty then .notRun
    else if r.failCount = 0 then .closed
    else if r.passCount = 0 then .failing
    else .partly

theorem Tallies.Reads.describes (isDecimal : Char → Bool) (h : t.Reads runs fails) (hm : tp.isMapped) :
    @TestpointResult.Describes isDecimal runs tp fails (closureOf isDecimal t tp) := by
  have ⟨hmem, hd, hc⟩ := foldl_matchPattern_spec isDecimal t tp.tests {}
  have ⟨hp, hf⟩ := hc (.empty t)
  rw [h.passes] at hp
  rw [h.fails] at hf
  simp only [h.mem_matchesOf, List.not_mem_nil, false_or] at hmem hd
  rw [h.has] at hd
  rw [closureOf, if_neg (by simp [hm.left]), if_neg (by simp [hm.right])]
  exact {
    matched  := hmem
    distinct := by simpa using hd
    passes   := hp
    fails    := hf
    status   := rfl
  }

theorem failing_le_notPassing (runs : List RunOutcome) (name : String) :
    failing runs name ≤ notPassing runs name := by
  refine List.countP_mono_left fun r _ hr => ?_
  simp only [decide_eq_true_eq] at hr ⊢
  exact ⟨hr.left, by rw [hr.right]; decide⟩

theorem failing_eq_notPassing_iff {name : String} : failing runs name = notPassing runs name ↔
    ∀ r ∈ runs, r.name = name → r.status = histStatusOk ∨ r.status = histStatusFail := by
  induction runs
  case nil => simp [failing, notPassing]
  case cons r runs hi =>
    have hle := failing_le_notPassing runs name
    have hf : failing (r :: runs) name =
        failing runs name + if r.name = name ∧ r.status = histStatusFail then 1 else 0 := by
      simp [failing, List.countP_cons]
    have hp : notPassing (r :: runs) name =
        notPassing runs name + if r.name = name ∧ r.status ≠ histStatusOk then 1 else 0 := by
      simp [notPassing, List.countP_cons]
    rw [List.forall_mem_cons, ← hi, hf, hp]
    by_cases hn : r.name = name
    case neg => simp [hn]
    case pos =>
      simp only [hn, true_and, true_implies, histStatusOk, histStatusFail]
      by_cases h₀ : r.status = 0
      case pos => simp [h₀]
      case neg =>
        rw [if_pos h₀]
        split <;> omega

theorem notPassing_eq_zero_iff {name : String} : notPassing runs name = 0 ↔
    ∀ r ∈ runs, r.name = name → r.status = histStatusOk := by
  rw [notPassing, List.countP_eq_zero]
  simp only [decide_eq_true_eq, not_and, not_not]

-- Sums of which one is below the other at each place are equal only if they are at each place.
theorem sum_map_eq_iff {f g : String → Nat} {names : List String} (h : ∀ name, f name ≤ g name) :
    (names.map f).sum = (names.map g).sum ↔ ∀ name ∈ names, f name = g name := by
  induction names
  case nil => simp
  case cons name names hi =>
    have hle : (names.map f).sum ≤ (names.map g).sum := List.sum_le_sum fun name _ => h name
    have hn := h name
    rw [List.forall_mem_cons, ← hi, List.map_cons, List.map_cons, List.sum_cons, List.sum_cons]
    omega

-- What a test point is reported as does not tell a clean test point's sources apart.
theorem Tallies.Reads.same (hc : tp.Clean isDecimal runs) (hm : tp.isMapped)
    (hr : tp.Reordered tp') (h : t.Reads runs fails) (h' : t'.Reads runs fails')
    (hf : fails = failing runs ∨ fails = notPassing runs)
    (hf' : fails' = failing runs ∨ fails' = notPassing runs) :
    (closureOf isDecimal t tp).matchedTests.Nodup ∧
      (closureOf isDecimal t tp).Same (closureOf isDecimal t' tp') := by
  have ⟨he, hp⟩ := hr
  have hm' : tp'.isMapped := by
    rw [he]
    refine ⟨hm.left, fun hnil => hm.right ?_⟩
    exact (hnil ▸ hp).nil_eq.symm
  have hd  := h.describes isDecimal hm
  have hd' := h'.describes isDecimal hm'
  have hapart {e e' name : String} (ha : ∀ name, matchesTest isDecimal runs e name →
      matchesTest isDecimal runs e' name → directMatch isDecimal (recordedTest runs) e = none ∧
      directMatch isDecimal (recordedTest runs) e' = none)
      (hn : directMatch isDecimal (recordedTest runs) e' = some name) :
      ¬matchesTest isDecimal runs e name := by
    intro hmatch
    have h := (ha name hmatch (.inl hn)).right
    rw [hn] at h
    cases h
  have hnd : (closureOf isDecimal t tp).matchedTests.Nodup :=
    hd.distinct.mpr <| hc.apart.imp fun ha name hn => hapart ha hn
  have hnd' : (closureOf isDecimal t' tp').matchedTests.Nodup := by
    refine hd'.distinct.mpr <| List.Pairwise.imp (fun ha name hn => hapart ha hn) ?_
    refine (hp.pairwise_iff ?_).mpr hc.apart
    exact fun {e e'} ha name h₁ h₂ => (ha name h₂ h₁).symm
  have hperm : (closureOf isDecimal t tp).matchedTests.Perm
      (closureOf isDecimal t' tp').matchedTests := by
    refine (List.perm_ext_iff_of_nodup hnd hnd').mpr fun name => ?_
    rw [hd.matched, hd'.matched]
    exact exists_congr fun e => and_congr_left' hp.mem_iff.symm
  have hpass := (hperm.map (passing runs)).sum_eq
  have hfails (name : String) (hn : name ∈ (closureOf isDecimal t tp).matchedTests) :
      fails name = notPassing runs name ∧ fails' name = notPassing runs name := by
    have hboth := failing_eq_notPassing_iff.mpr <| hc.bothWays name <| (hd.matched name).mp hn
    exact ⟨hf.elim (· ▸ hboth) (· ▸ rfl), hf'.elim (· ▸ hboth) (· ▸ rfl)⟩
  have hfail : ((closureOf isDecimal t tp).matchedTests.map fails).sum =
      ((closureOf isDecimal t' tp').matchedTests.map fails').sum := by
    rw [← (hperm.map fails').sum_eq]
    exact congrArg _ <| List.map_congr_left fun name hn =>
      (hfails name hn).left.trans (hfails name hn).right.symm
  refine ⟨hnd, ?status, hperm, ?_, ?_⟩
  case status =>
    rw [hd.status, hd'.status, hd.passes, hd'.passes, hd.fails, hd'.fails, hpass, hfail,
      hperm.isEmpty_eq]
  · rw [hd.passes, hd'.passes, hpass]
  · rw [hd.fails, hd'.fails, hfail]

-- A mapped test point is reported as closed where it has matches of which none failed.
theorem Tallies.Reads.closed_iff (h : t.Reads runs fails) (hm : tp.isMapped) :
    (closureOf isDecimal t tp).status = .closed ↔
      (∃ name, tp.matchedTest isDecimal runs name) ∧
        ∀ name, tp.matchedTest isDecimal runs name → fails name = 0 := by
  have hd := h.describes isDecimal hm
  have hne : (∃ name, tp.matchedTest isDecimal runs name) ↔
      (closureOf isDecimal t tp).matchedTests.isEmpty = false := by
    rw [List.isEmpty_eq_false_iff_exists_mem]
    exact exists_congr fun name => (hd.matched name).symm
  have hz : (∀ name, tp.matchedTest isDecimal runs name → fails name = 0) ↔
      (closureOf isDecimal t tp).failCount = 0 := by
    rw [hd.fails, List.sum_eq_zero_iff]
    simp [hd.matched]
  rw [hne, hz, hd.status]
  split
  case isTrue h => simp [h]
  case isFalse h =>
    by_cases hf : (closureOf isDecimal t tp).failCount = 0
    case pos => simp [h, hf]
    case neg =>
      rw [if_neg hf]
      split <;> simp [hf]

theorem Testpoint.Clean.closed_iff (hc : tp.Clean isDecimal runs) (hm : tp.isMapped)
    (h : t.Reads runs fails) (hf : fails = failing runs ∨ fails = notPassing runs) :
    (closureOf isDecimal t tp).status = .closed ↔ tp.Passed isDecimal runs := by
  have hz (name : String) (hn : tp.matchedTest isDecimal runs name) :
      fails name = 0 ↔ ∀ r ∈ runs, r.name = name → r.status = histStatusOk := by
    have hboth := failing_eq_notPassing_iff.mpr <| hc.bothWays name hn
    rw [← notPassing_eq_zero_iff]
    cases hf
    case inl hf => rw [hf, hboth]
    case inr hf => rw [hf]
  rw [h.closed_iff hm]
  constructor
  case mp =>
    intro ⟨⟨name, hn⟩, hall⟩
    have hpassed (name : String) (hn : tp.matchedTest isDecimal runs name) := (hz name hn).mp (hall name hn)
    refine ⟨hm, ?_, hpassed⟩
    obtain hmatch | hnone | ⟨x, hx, r, hr, he, hs⟩ := hc.unmatched
    · exact hmatch
    · have ⟨e, he, hn⟩ := hn
      exact absurd ⟨name, hn⟩ (hnone e he)
    · exact absurd (hpassed x hx r hr he) hs
  case mpr =>
    intro hp
    have ⟨e, he⟩ := List.exists_mem_of_ne_nil _ hm.right
    have ⟨name, hn⟩ := hp.matched e he
    exact ⟨⟨name, e, he, hn⟩, fun name hn => (hz name hn).mpr (hp.passed name hn)⟩

theorem closureOf_testpoint (isDecimal : Char → Bool) (t : Tallies) (tp : Testpoint) :
    (closureOf isDecimal t tp).testpoint = tp := by
  rw [closureOf]
  split
  case isTrue  => rfl
  case isFalse => split <;> rfl

-- A test point that is not mapped has no matches.
theorem closureOf_unmapped (isDecimal : Char → Bool) (t : Tallies) (h : ¬tp.isMapped) :
    (closureOf isDecimal t tp).matchedTests = [] ∧ (closureOf isDecimal t tp).passCount = 0 ∧
      (closureOf isDecimal t tp).failCount = 0 ∧
      (closureOf isDecimal t tp).status = if tp.na then .na else .unimplemented := by
  rw [closureOf]
  by_cases hna : tp.na
  case pos => simp [hna]
  case neg =>
    have ht : tp.tests = [] := by
      by_contra ht
      exact h ⟨by simpa using hna, ht⟩
    simp [hna, ht]

variable {plan : ParsedTestplan}

theorem ClosureSound.same (h : ClosureSound isDecimal runs plan) {source source' : RunSource}
    (hs : source.Records runs) (hs' : source'.Records runs) {f : Testpoint → Testpoint}
    (hr : ∀ tp : Testpoint, tp.Reordered (f tp)) (htp : tp ∈ plan.iterTestpoints) :
    (closureOf isDecimal source.tallies tp).Same
      (closureOf isDecimal source'.tallies (f tp)) := by
  have hp : ({ testpoints := plan.iterTestpoints.map f } : ParsedTestplan).iterTestpoints =
      plan.iterTestpoints.map f := by simp [ParsedTestplan.iterTestpoints, iterGoalTestpoints]
  have hsame := h.agree source source' hs hs' { testpoints := plan.iterTestpoints.map f }
    (by simp [hp, hr])
  rw [computeClosure, computeClosure, hp] at hsame
  simp only [List.forall₂_map_left_iff, List.forall₂_map_right_iff, List.forall₂_same] at hsame
  exact hsame tp htp

theorem ClosureSound.clean (h : ClosureSound isDecimal runs plan) (htp : tp ∈ plan.iterTestpoints)
    (hm : tp.isMapped) : tp.Clean isDecimal runs := by
  have ⟨registry, stats, hstats⟩ := exists_v2History runs
  have ⟨nodes, hnodes⟩ := exists_historyNodes runs
  have hreads  := StatsRecord.reads hstats
  have hreads' := NodesRecord.reads hnodes
  have hd  := hreads.describes isDecimal hm
  have hd' := hreads'.describes isDecimal hm
  have hmem (source : RunSource) :
      closureOf isDecimal source.tallies tp ∈ computeClosure isDecimal plan source :=
    List.mem_map_of_mem htp
  constructor
  case apart =>
    have hrev : ({ tp with tests := tp.tests.reverse } : Testpoint).isMapped := by
      simpa [Testpoint.isMapped] using hm
    have hsame := h.same hstats hstats (f := fun tp => { tp with tests := tp.tests.reverse })
      (fun tp => ⟨rfl, List.reverse_perm _⟩) htp
    have hdistinct := h.distinct _ hstats _ (hmem _)
    have hfwd := hd.distinct.mp hdistinct
    have hback := (hreads.describes isDecimal hrev).distinct.mp <|
      hsame.matched.nodup_iff.mp hdistinct
    rw [List.pairwise_reverse] at hback
    refine hfwd.imp₂ (fun e e' h₁ h₂ name hn hn' => ⟨?_, ?_⟩) hback
    · obtain hdirect | ⟨hnone, _⟩ := hn
      · exact absurd hn' (h₂ name hdirect)
      · exact hnone
    · obtain hdirect | ⟨hnone, _⟩ := hn'
      · exact absurd hn (h₁ name hdirect)
      · exact hnone
  case bothWays =>
    intro name hn
    have hsame := h.same hstats hnodes (f := id) (fun tp => ⟨rfl, .refl _⟩) htp
    have hsum := hsame.fails
    have hperm := hsame.matched
    simp only [id] at hsum hperm
    rw [hd.fails, hd'.fails, ← (hperm.map _).sum_eq, sum_map_eq_iff (failing_le_notPassing runs)] at hsum
    exact failing_eq_notPassing_iff.mp <| hsum name <| (hd.matched name).mpr hn
  case unmatched =>
    by_contra hc
    simp only [not_or, not_forall, not_not, not_exists, not_and] at hc
    have ⟨⟨e, he, hnone⟩, ⟨e', he', name, hn⟩, hpassed⟩ := hc
    have hclosed := (hreads'.closed_iff hm).mpr ⟨⟨name, e', he', hn⟩, fun name hn =>
      notPassing_eq_zero_iff.mpr (hpassed name hn)⟩
    have hpassed := (h.closed _ hnodes _ (hmem _)).mp hclosed
    rw [closureOf_testpoint] at hpassed
    exact hnone <| hpassed.matched e he

theorem ClosureSound.of_clean
    (h : ∀ tp ∈ plan.iterTestpoints, tp.isMapped → tp.Clean isDecimal runs) :
    ClosureSound isDecimal runs plan := by
  have hresult {source : RunSource} {r : TestpointResult}
      (hr : r ∈ computeClosure isDecimal plan source) :
      ∃ tp ∈ plan.iterTestpoints, closureOf isDecimal source.tallies tp = r := List.mem_map.mp hr
  have hnodup {source : RunSource} {tp : Testpoint} (hs : source.Records runs)
      (htp : tp ∈ plan.iterTestpoints) :
      (closureOf isDecimal source.tallies tp).matchedTests.Nodup := by
    by_cases hm : tp.isMapped
    case neg => simp [(closureOf_unmapped isDecimal source.tallies hm).left]
    case pos =>
      have ⟨_, hf, hreads⟩ := hs.reads
      exact (hreads.same (h tp htp hm) hm ⟨rfl, .refl _⟩ hreads hf hf).left
  constructor
  case closed =>
    intro source hs r hr
    have ⟨tp, htp, hr⟩ := hresult hr
    rw [← hr, closureOf_testpoint]
    by_cases hm : tp.isMapped
    case pos =>
      have ⟨_, hf, hreads⟩ := hs.reads
      exact (h tp htp hm).closed_iff hm hreads hf
    case neg =>
      rw [(closureOf_unmapped isDecimal source.tallies hm).2.2.2]
      exact iff_of_false (by split <;> simp) fun hp => hm hp.mapped
  case distinct =>
    intro source hs r hr
    have ⟨tp, htp, hr⟩ := hresult hr
    exact hr ▸ hnodup hs htp
  case counts =>
    intro source hs r hr
    have ⟨tp, htp, hr⟩ := hresult hr
    rw [← hr, (hnodup hs htp).dedup]
    by_cases hm : tp.isMapped
    case neg =>
      have ⟨hmatched, hp, hf, _⟩ := closureOf_unmapped isDecimal source.tallies hm
      simp [hmatched, hp, hf]
    case pos =>
      have ⟨_, _, hreads⟩ := hs.reads
      have hd := hreads.describes isDecimal hm
      rw [hreads.passes, hreads.fails]
      exact ⟨hd.passes, hd.fails⟩
  case agree =>
    intro source source' hs hs' plan' hplan
    rw [computeClosure, computeClosure, List.forall₂_map_left_iff, List.forall₂_map_right_iff]
    have ⟨hl, hzip⟩ := List.forall₂_iff_zip.mp hplan
    refine List.forall₂_iff_zip.mpr ⟨hl, fun {tp tp'} hmem => ?_⟩
    have hr := hzip hmem
    have htp := (List.of_mem_zip hmem).left
    by_cases hm : tp.isMapped
    case pos =>
      have ⟨_, hf, hreads⟩   := hs.reads
      have ⟨_, hf', hreads'⟩ := hs'.reads
      exact (hreads.same (h tp htp hm) hm hr hreads' hf hf').right
    case neg =>
      have hna : tp'.na = tp.na := by rw [hr.left]
      have hm' : ¬tp'.isMapped := fun hm' =>
        hm ⟨hna ▸ hm'.left, fun hnil => hm'.right (List.Perm.eq_nil (hnil ▸ hr.right))⟩
      have ⟨hmatched, hp, hf, hst⟩     := closureOf_unmapped isDecimal source.tallies hm
      have ⟨hmatched', hp', hf', hst'⟩ := closureOf_unmapped isDecimal source'.tallies hm'
      exact ⟨by rw [hst, hst', hna], by rw [hmatched, hmatched'], by rw [hp, hp'], by rw [hf, hf']⟩

variable (isDecimal) (runs) (plan)

end Closure
