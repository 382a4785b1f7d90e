import Covsight.Ncdb.TestplanClosure
import Covsight.Ncdb.Theorems.TestplanClosure

-- The gates of the stages

def standardStages : List String :=
  ["V1", "V2", "V2S", "V3"]

namespace ParsedTestplan

variable {isDecimal : Char → Bool} {plan : ParsedTestplan} {source : RunSource} {stage stage' : String}

-- A result that is not closed, of a test point that the gate of a stage asks for.
def offends (stage : String) (r : TestpointResult) : Bool :=
  stageOrder r.testpoint.stage ≤ stageOrder stage ∧ r.status ≠ .closed ∧ r.status ≠ .na

-- The gate passes just when nothing offends, tells what does, and with it all lower gates pass.
structure GateExact (isDecimal : Char → Bool) (plan : ParsedTestplan) (source : RunSource) (stage : String) : Prop where
  passed   : (stageGateStatus (computeClosure isDecimal plan source) stage plan).passed ↔
    ∀ r ∈ computeClosure isDecimal plan source, ¬offends stage r
  blocking : (stageGateStatus (computeClosure isDecimal plan source) stage plan).blocking
    = (computeClosure isDecimal plan source).filter (offends stage)
  lower    : ∀ stage' ∈ standardStages, stageOrder stage' ≤ stageOrder stage →
    (stageGateStatus (computeClosure isDecimal plan source) stage plan).passed →
    (stageGateStatus (computeClosure isDecimal plan source) stage' plan).passed

theorem mem_stages_iff : stage ∈ plan.stages ↔ ∃ tp ∈ plan.iterTestpoints, tp.stage = stage := by
  rw [stages, List.mem_insertionSort, mem_internAll_iff, List.mem_map]

theorem mem_computeClosure_iff {r : TestpointResult} : r ∈ computeClosure isDecimal plan source ↔
    ∃ tp ∈ plan.iterTestpoints, closureOf isDecimal source.tallies tp = r :=
  List.mem_map

-- Every result is of a test point of the plan, so only its stage counts.
theorem blocking_eq : (stageGateStatus (computeClosure isDecimal plan source) stage plan).blocking
    = (computeClosure isDecimal plan source).filter fun r =>
      stageOrder r.testpoint.stage ≤ stageOrder stage && !r.status.isDone := by
  apply List.filter_congr
  intro r hr
  have ⟨tp, htp, he⟩ := mem_computeClosure_iff.mp hr
  have hs : r.testpoint.stage ∈ plan.stages := mem_stages_iff.mpr ⟨tp, htp, by rw [← he, closureOf_testpoint]⟩
  simp [hs]

theorem passed_iff : (stageGateStatus (computeClosure isDecimal plan source) stage plan).passed ↔
    (stageGateStatus (computeClosure isDecimal plan source) stage plan).blocking = [] :=
  List.isEmpty_iff

theorem lower_gate (h : stageOrder stage' ≤ stageOrder stage)
    (hp : (stageGateStatus (computeClosure isDecimal plan source) stage plan).passed) :
    (stageGateStatus (computeClosure isDecimal plan source) stage' plan).passed := by
  rw [passed_iff, blocking_eq, List.filter_eq_nil_iff] at hp ⊢
  intro r hr hb
  simp only [Bool.and_eq_true, decide_eq_true_iff] at hb
  apply hp r hr
  simp [hb.1.trans h, hb.2]

theorem status_unimplemented_iff {t : Tallies} {tp : Testpoint} :
    (closureOf isDecimal t tp).status = .unimplemented ↔ tp.na = false ∧ tp.tests = [] := by
  rw [closureOf]
  split
  case isTrue hna   => simp [hna]
  case isFalse hna  =>
    split
    case isTrue he  => simp [hna, List.isEmpty_iff.mp he]
    case isFalse he =>
      have hne : tp.tests ≠ [] := fun hn => he (by rw [hn]; rfl)
      simp only [hne, and_false, iff_false]
      split
      · simp
      · split
        · simp
        · split <;> simp

-- The gate is exact unless it passes over a test point without tests.
theorem gateExact_iff : GateExact isDecimal plan source stage ↔
    ∀ tp ∈ plan.iterTestpoints, stageOrder tp.stage ≤ stageOrder stage → tp.na ∨ tp.tests ≠ [] := by
  constructor
  case mp =>
    intro h tp htp hs
    by_contra hc
    have hu : (closureOf isDecimal source.tallies tp).status = .unimplemented :=
      status_unimplemented_iff.mpr (by simpa using hc)
    have hr : closureOf isDecimal source.tallies tp ∈ computeClosure isDecimal plan source :=
      List.mem_map_of_mem htp
    have hb : closureOf isDecimal source.tallies tp ∈ (computeClosure isDecimal plan source).filter (offends stage) :=
      List.mem_filter.mpr ⟨hr, by simp [offends, closureOf_testpoint, hs, hu]⟩
    rw [← h.blocking, blocking_eq, List.mem_filter] at hb
    simp [hu, TPStatus.isDone] at hb
  case mpr =>
    intro h
    have hb : (stageGateStatus (computeClosure isDecimal plan source) stage plan).blocking
        = (computeClosure isDecimal plan source).filter (offends stage) := by
      rw [blocking_eq]
      apply List.filter_congr
      intro r hr
      have ⟨tp, htp, he⟩ := mem_computeClosure_iff.mp hr
      have ht : r.testpoint = tp := by rw [← he, closureOf_testpoint]
      by_cases hs : stageOrder tp.stage ≤ stageOrder stage
      case neg => simp [offends, ht, hs]
      case pos =>
        have hu : r.status ≠ .unimplemented := by
          rw [← he, Ne, status_unimplemented_iff, not_and_or, Bool.not_eq_false]
          exact h tp htp hs
        cases hst : r.status <;> simp [offends, ht, hs, hst, TPStatus.isDone] at hu ⊢
    refine ⟨?_, hb, fun stage' _ hle hp => lower_gate hle hp⟩
    rw [passed_iff, hb, List.filter_eq_nil_iff]

end ParsedTestplan

-- A test point without tests is open work that the gate of its stage passes over.
theorem unimplemented_passes : ¬ParsedTestplan.GateExact Char.isDigit
    { testpoints := [{ name := "reset", stage := "V1" }] } (.historyNodes []) "V1" := by
  intro h
  have hc : computeClosure Char.isDigit { testpoints := [{ name := "reset", stage := "V1" }] } (.historyNodes [])
      = [{ testpoint := { name := "reset", stage := "V1" }, status := .unimplemented, matchedTests := [] }] := by
    simp [computeClosure, ParsedTestplan.iterTestpoints, iterGoalTestpoints, closureOf]
  have hp := h.passed.mp <| ParsedTestplan.passed_iff.mpr <| by
    rw [ParsedTestplan.blocking_eq, hc]
    rfl
  rw [hc] at hp
  exact absurd (hp _ (.head _)) (by decide)

-- The test point of a test, and the test points whose closure lists it

section Mappings

variable {isDecimal : Char → Bool} {has : String → Bool} {t : Tallies} {tp : Testpoint} {n e : String}

-- A name of a test point that leads the closure to a recorded test: the test itself, or a name that was not
-- recorded and is the test with a seed, or such a wildcard that the test starts with.
def LeadsTo (isDecimal : Char → Bool) (has : String → Bool) (n e : String) : Prop :=
  e = n ∨ has e = false ∧
    (stripSeed isDecimal e = n ∨
      has (stripSeed isDecimal e) = false ∧ isPrefixPattern e ∧ startsWithPattern e n)

def Testpoint.Reaches (isDecimal : Char → Bool) (has : String → Bool) (tp : Testpoint) (n : String) : Prop :=
  tp.na = false ∧ ∃ e ∈ tp.tests, LeadsTo isDecimal has n e

theorem mem_matchesOf_iff (hn : t.has n) : n ∈ matchesOf isDecimal t.has t.names e ↔ LeadsTo isDecimal t.has n e := by
  rw [matchesOf, directMatch, LeadsTo]
  by_cases he : t.has e
  case pos =>
    simp only [he, if_true, List.mem_singleton, Bool.true_eq_false, false_and, or_false]
    exact eq_comm
  case neg =>
    have hne : e ≠ n := fun h => he (h ▸ hn)
    by_cases hs : t.has (stripSeed isDecimal e)
    case pos =>
      have hse : stripSeed isDecimal e ≠ e := fun h => he (h ▸ hs)
      simp only [he, hs, hse, hne, Bool.false_eq_true, if_false, ne_eq, not_false_eq_true, and_self, if_true,
        List.mem_singleton, Bool.true_eq_false, false_and, or_false, false_or, true_and]
      exact eq_comm
    case neg =>
      have hsn : stripSeed isDecimal e ≠ n := fun h => hs (h ▸ hn)
      by_cases hp : isPrefixPattern e
      case pos => simp [he, hs, hp, hne, hsn, mem_names_iff, hn]
      case neg => simp [he, hs, hp, hne, hsn]

theorem mem_matchedTests_iff (hn : t.has n) :
    n ∈ (closureOf isDecimal t tp).matchedTests ↔ tp.Reaches isDecimal t.has n := by
  rw [closureOf, Testpoint.Reaches]
  by_cases hna : tp.na
  case pos => simp [hna]
  case neg =>
    obtain ⟨hm, _⟩ := foldl_matchPattern_spec isDecimal t tp.tests {}
    by_cases he : tp.tests.isEmpty
    case pos => simp [hna, List.isEmpty_iff.mp he]
    case neg =>
      simp only [hna, he, Bool.false_eq_true, if_false, hm, List.not_mem_nil, false_or, mem_matchesOf_iff hn, true_and]

end Mappings

namespace ParsedTestplan

variable {isDecimal : Char → Bool} {plan : ParsedTestplan} {source : RunSource} {n : String}

-- The first wildcard that a test starts with, and the last test point that lists it.
def wildcardFor (plan : ParsedTestplan) (n : String) : Option (String × Testpoint) :=
  plan.tpByTest.entries.find? fun (pattern, _) => isPrefixPattern pattern && startsWithPattern pattern n

-- When a test plan owns a test as its closure does.
structure MapsAlike (isDecimal : Char → Bool) (plan : ParsedTestplan) (has : String → Bool) (n : String) : Prop where
  named    : ∀ tp, plan.tpByTest.get? n = some tp → tp.na = false
  seeded   : plan.tpByTest.get? n = none → ∀ tp, plan.tpByTest.get? (stripSeed isDecimal n) = some tp →
    tp.Reaches isDecimal has n
  wildcard : plan.tpByTest.get? n = none → plan.tpByTest.get? (stripSeed isDecimal n) = none →
    ∀ p, plan.wildcardFor n = some p → p.snd.Reaches isDecimal has n
  none     : plan.tpByTest.get? n = none → plan.tpByTest.get? (stripSeed isDecimal n) = none →
    plan.wildcardFor n = none → ∀ tp ∈ plan.iterTestpoints, tp.na = false → ∀ e ∈ tp.tests,
      has e = false → stripSeed isDecimal e ≠ n

theorem mem_of_tpByTest {tp : Testpoint} (h : plan.tpByTest.get? n = some tp) :
    tp ∈ plan.iterTestpoints ∧ n ∈ tp.tests := by
  have hm := Dict.mem_of_get?_ofList h
  simp only [List.mem_flatMap, List.mem_map, Prod.mk.injEq] at hm
  obtain ⟨tp', htp, e, he, rfl, rfl⟩ := hm
  exact ⟨htp, he⟩

theorem not_mem_tests (h : plan.tpByTest.get? n = none) {tp : Testpoint} (htp : tp ∈ plan.iterTestpoints) :
    n ∉ tp.tests := by
  intro he
  apply Dict.get?_eq_none_iff.mp h
  apply Dict.mem_setAll_iff.mpr
  refine .inr <| List.mem_map.mpr ⟨(n, tp), List.mem_flatMap.mpr ⟨tp, htp, ?_⟩, rfl⟩
  exact List.mem_map.mpr ⟨n, he, rfl⟩

theorem wildcardFor_eq_none (h : plan.wildcardFor n = none) {tp : Testpoint} (htp : tp ∈ plan.iterTestpoints)
    {e : String} (he : e ∈ tp.tests) : ¬(isPrefixPattern e ∧ startsWithPattern e n) := by
  intro hp
  have hm : e ∈ plan.tpByTest := by
    by_contra hc
    exact not_mem_tests (Dict.get?_eq_none_iff.mpr hc) htp he
  have ⟨tp', htp'⟩ := Dict.exists_get?_of_mem hm
  have := List.find?_eq_none.mp h (e, tp') (Dict.get?_eq_some_iff.mp htp')
  simp [hp] at this

theorem mem_of_wildcardFor {p : String × Testpoint} (h : plan.wildcardFor n = some p) :
    p.snd ∈ plan.iterTestpoints :=
  (mem_of_tpByTest <| Dict.get?_eq_some_iff.mpr <| List.mem_of_find?_eq_some h).1

-- What the plan tells, rule by rule.
theorem testpointForTest_eq (plan : ParsedTestplan) (isDecimal : Char → Bool) (n : String) :
    plan.testpointForTest isDecimal n
      = (plan.tpByTest.get? n).or ((plan.tpByTest.get? (stripSeed isDecimal n)).or ((plan.wildcardFor n).map (·.snd))) := by
  rw [testpointForTest]
  cases hn : plan.tpByTest.get? n with
  | some tp => rfl
  | none    =>
    by_cases hs : stripSeed isDecimal n ≠ n
    case pos =>
      simp only [if_pos hs]
      cases plan.tpByTest.get? (stripSeed isDecimal n) <;> rfl
    case neg =>
      rw [not_not.mp hs, hn]
      simp only [ne_eq, not_true_eq_false, if_false]
      rfl

-- The two ways from tests to test points agree on a test that was recorded.
def Agree (isDecimal : Char → Bool) (plan : ParsedTestplan) (source : RunSource) (n : String) : Prop :=
  (∀ tp, plan.testpointForTest isDecimal n = some tp →
    ∃ r ∈ computeClosure isDecimal plan source, r.testpoint = tp ∧ n ∈ r.matchedTests) ∧
  (plan.testpointForTest isDecimal n = none →
    ∀ r ∈ computeClosure isDecimal plan source, n ∉ r.matchedTests)

theorem lists_iff (hn : source.tallies.has n) {tp : Testpoint} (htp : tp ∈ plan.iterTestpoints) :
    (∃ r ∈ computeClosure isDecimal plan source, r.testpoint = tp ∧ n ∈ r.matchedTests) ↔
      tp.Reaches isDecimal source.tallies.has n := by
  rw [← mem_matchedTests_iff hn]
  constructor
  case mp =>
    rintro ⟨r, hr, rfl, hm⟩
    have ⟨tp', _, he⟩ := mem_computeClosure_iff.mp hr
    have ht : r.testpoint = tp' := by rw [← he, closureOf_testpoint]
    rw [ht, he]
    exact hm
  case mpr =>
    intro hm
    exact ⟨_, List.mem_map_of_mem htp, closureOf_testpoint .., hm⟩

theorem agree_of_some (hn : source.tallies.has n) {tp : Testpoint} (htp : tp ∈ plan.iterTestpoints)
    (h : plan.testpointForTest isDecimal n = some tp) :
    Agree isDecimal plan source n ↔ tp.Reaches isDecimal source.tallies.has n := by
  simp only [Agree, h, Option.some.injEq, forall_eq', reduceCtorEq, false_implies, and_true]
  exact lists_iff hn htp

theorem agree_of_none (hn : source.tallies.has n) (h : plan.testpointForTest isDecimal n = none) :
    Agree isDecimal plan source n ↔ ∀ tp ∈ plan.iterTestpoints, ¬tp.Reaches isDecimal source.tallies.has n := by
  simp only [Agree, h, reduceCtorEq, false_implies, implies_true, true_and, forall_const]
  rw [computeClosure, List.forall_mem_map]
  simp only [mem_matchedTests_iff hn]

-- The two agree unless a test is only led to by its seed, or its test point is not applicable or lost.
theorem agree_iff (hn : source.tallies.has n) :
    Agree isDecimal plan source n ↔ MapsAlike isDecimal plan source.tallies.has n := by
  have hfor := plan.testpointForTest_eq isDecimal n
  cases hnamed : plan.tpByTest.get? n with
  | some tp =>
    have ⟨htp, he⟩ := mem_of_tpByTest hnamed
    rw [hnamed, Option.some_or] at hfor
    rw [agree_of_some hn htp hfor]
    constructor
    case mp =>
      intro h
      refine ⟨fun tp' htp' => ?_, ?_, ?_, ?_⟩
      · cases hnamed.symm.trans htp'
        exact h.1
      all_goals
        intro hc
        cases hnamed.symm.trans hc
    case mpr =>
      intro h
      exact ⟨h.named tp hnamed, n, he, .inl rfl⟩
  | none    =>
    rw [hnamed, Option.none_or] at hfor
    cases hseeded : plan.tpByTest.get? (stripSeed isDecimal n) with
    | some tp =>
      rw [hseeded, Option.some_or] at hfor
      rw [agree_of_some hn (mem_of_tpByTest hseeded).1 hfor]
      constructor
      case mp =>
        intro h
        refine ⟨fun _ hc => ?_, fun _ tp' htp' => ?_, fun _ hc => ?_, fun _ hc => ?_⟩
        · cases hnamed.symm.trans hc
        · cases hseeded.symm.trans htp'
          exact h
        · cases hseeded.symm.trans hc
        · cases hseeded.symm.trans hc
      case mpr => exact fun h => h.seeded hnamed tp hseeded
    | none    =>
      rw [hseeded, Option.none_or] at hfor
      cases hwild : plan.wildcardFor n with
      | some p =>
        rw [hwild] at hfor
        rw [agree_of_some hn (mem_of_wildcardFor hwild) hfor]
        constructor
        case mp =>
          intro h
          refine ⟨fun _ hc => ?_, fun _ _ hc => ?_, fun _ _ p' hp' => ?_, fun _ _ hc => ?_⟩
          · cases hnamed.symm.trans hc
          · cases hseeded.symm.trans hc
          · cases hwild.symm.trans hp'
            exact h
          · cases hwild.symm.trans hc
        case mpr => exact fun h => h.wildcard hnamed hseeded p hwild
      | none   =>
        rw [hwild] at hfor
        rw [agree_of_none hn hfor]
        constructor
        case mp =>
          intro h
          refine ⟨fun _ hc => ?_, fun _ _ hc => ?_, fun _ _ p' hp' => ?_, fun _ _ _ tp htp hna e he hhas hs => ?_⟩
          · cases hnamed.symm.trans hc
          · cases hseeded.symm.trans hc
          · cases hwild.symm.trans hp'
          · exact h tp htp ⟨hna, e, he, .inr ⟨hhas, .inl hs⟩⟩
        case mpr =>
          rintro h tp htp ⟨hna, e, he, rfl | ⟨hhas, hs | ⟨_, hp⟩⟩⟩
          · exact not_mem_tests hnamed htp he
          · exact h.none hnamed hseeded hwild tp htp hna e he hhas hs
          · exact wildcardFor_eq_none hwild htp he hp

theorem agree_iff_named : Agree Char.isDigit { testpoints := [{ name := "smoke", tests := ["a"] }] }
      (.historyNodes [{ logicalName := "a", kind := some .test }]) "a" ↔
    MapsAlike Char.isDigit { testpoints := [{ name := "smoke", tests := ["a"] }] }
      (RunSource.historyNodes [{ logicalName := "a", kind := some .test }]).tallies.has "a" :=
  agree_iff (by decide)

-- A test with a seed belongs to the test point of its name, which lists the name alone.
theorem seeded_test_not_listed : ¬Agree Char.isDigit { testpoints := [{ name := "smoke", tests := ["a"] }] }
    (.historyNodes [{ logicalName := "a_1", kind := some .test }]) "a_1" := by
  intro h
  have hi : iterTestpoints { testpoints := [{ name := "smoke", tests := ["a"] }] }
      = [{ name := "smoke", tests := ["a"] }] := by
    simp [iterTestpoints, iterGoalTestpoints]
  have hfor : testpointForTest { testpoints := [{ name := "smoke", tests := ["a"] }] } Char.isDigit "a_1"
      = some { name := "smoke", tests := ["a"] } := by
    rw [testpointForTest, tpByTest, hi]
    decide
  obtain ⟨_, e, he, hl⟩ := (lists_iff (by decide) (hi ▸ .head _)).mp <| h.1 _ hfor
  obtain rfl := List.mem_singleton.mp he
  rcases hl with hl | ⟨_, hl | ⟨_, hl, _⟩⟩
  all_goals
    revert hl
    decide

end ParsedTestplan
