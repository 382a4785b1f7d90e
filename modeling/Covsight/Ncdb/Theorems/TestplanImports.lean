import Covsight.Lib.DepthFirst
import Covsight.Ncdb.TestplanImports
import Mathlib.Data.List.Pairwise

-- When the imports of a test plan are resolved as they should be.

namespace PlanDict

-- The entries that are followed.
def entries (plan : PlanDict) : List ImportEntry :=
  plan.normalizeImports.imports.getD []

-- The test points of a file at any depth of its goals.
def allTestpoints (plan : PlanDict) : List RawTestpoint :=
  plan.testpoints ++ iterGoalTestpoints plan.goals

def allNames (plan : PlanDict) : List String :=
  (plan.allTestpoints.map (·.name)).filter (· ≠ "")

variable {plan plan' source : PlanDict}

theorem inherit_eq (plan : PlanDict) (subs : Substitutions) :
    plan.inherit subs = { plan with substitutions := (plan.inherit subs).substitutions } := by
  rw [inherit]
  split <;> rfl

theorem normalizeImports_eq (plan : PlanDict) :
    plan.normalizeImports = { plan with imports := plan.normalizeImports.imports } := by
  rw [normalizeImports]
  split <;> rfl

theorem normalizeImports_with (plan : PlanDict) (subs : Substitutions) :
    ({ plan with substitutions := subs } : PlanDict).normalizeImports =
      { plan.normalizeImports with substitutions := subs } := by
  simp only [normalizeImports]
  split <;> rfl

theorem mergeLists_normalizeImports (start plan : PlanDict) (subs : Substitutions) :
    start.mergeLists { plan.normalizeImports with substitutions := subs } = start.mergeLists plan := by
  rw [normalizeImports_eq]
  rfl

theorem checkedNames_normalizeImports (plan : PlanDict) (subs : Substitutions) :
    ({ plan.normalizeImports with substitutions := subs } : PlanDict).checkedNames =
      plan.checkedNames := by
  rw [normalizeImports_eq]
  rfl

-- Only the lists of a plan grow.
theorem foldl_mergeLists_eq (start : PlanDict) (plans : List PlanDict) :
    (plans.foldl mergeLists start).name = start.name ∧
      (plans.foldl mergeLists start).substitutions = start.substitutions := by
  induction plans generalizing start
  case nil             => exact ⟨rfl, rfl⟩
  case cons p plans hi => exact hi (start.mergeLists p)

theorem mergeLists_assoc (a b c : PlanDict) :
    a.mergeLists (b.mergeLists c) = (a.mergeLists b).mergeLists c := by
  simp [mergeLists]

theorem mergeLists_foldl (plan start : PlanDict) (plans : List PlanDict) :
    plan.mergeLists (plans.foldl mergeLists start) = plans.foldl mergeLists (plan.mergeLists start) := by
  induction plans generalizing start
  case nil              => rfl
  case cons p plans hi => rw [List.foldl_cons, hi, mergeLists_assoc, List.foldl_cons]

-- The names of merged plans, but for their order.
theorem checkedNames_mergeLists (a b : PlanDict) :
    (a.mergeLists b).checkedNames.Perm (a.checkedNames ++ b.checkedNames) := by
  rw [checkedNames, checkedNames, checkedNames, mergeLists, ← List.filter_append, ← List.map_append]
  refine List.Perm.filter _ <| List.Perm.map _ ?_
  rw [List.flatMap_append, List.append_assoc, List.append_assoc]
  refine List.Perm.append_left _ ?_
  rw [← List.append_assoc, ← List.append_assoc]
  exact List.Perm.append_right _ List.perm_append_comm

theorem checkedNames_foldl (start : PlanDict) (plans : List PlanDict) :
    (plans.foldl mergeLists start).checkedNames.Perm
      (start.checkedNames ++ plans.flatMap checkedNames) := by
  induction plans generalizing start
  case nil => simp
  case cons p plans hi =>
    rw [List.foldl_cons, List.flatMap_cons, ← List.append_assoc]
    exact (hi _).trans <| List.Perm.append_right _ <| checkedNames_mergeLists start p

theorem checkedNames_sublist (plan : PlanDict) : plan.checkedNames.Sublist plan.allNames := by
  have hg (goals : List (Goal RawTestpoint)) :
      (goals.flatMap goalTestpoints).Sublist (iterGoalTestpoints goals) := by
    induction goals
    case nil => exact List.nil_sublist _
    case cons goal goals hi =>
      obtain ⟨id, testpoints, subgoals⟩ := goal
      rw [List.flatMap_cons, iterGoalTestpoints, List.append_assoc]
      exact (List.Sublist.refl _).append <| hi.trans <| List.sublist_append_right ..
  exact ((List.Sublist.refl _).append (hg _)).map _ |>.filter _

end PlanDict

theorem firstRepeated_eq_none_iff {seen names : List String} :
    firstRepeated seen names = none ↔ names.Nodup ∧ ∀ name ∈ names, name ∉ seen := by
  induction names generalizing seen
  case nil => simp [firstRepeated]
  case cons name names hi =>
    rw [firstRepeated, List.nodup_cons, List.forall_mem_cons]
    by_cases h : name ∈ seen
    case pos => simp [h]
    case neg =>
      rw [if_neg h, hi]
      simp only [List.mem_cons, not_or]
      constructor
      case mp =>
        intro ⟨hn, hs⟩
        exact ⟨⟨fun hm => (hs name hm).left rfl, hn⟩, h, fun x hx => (hs x hx).right⟩
      case mpr =>
        intro ⟨⟨hm, hn⟩, _, hs⟩
        exact ⟨hn, fun x hx => ⟨fun he => hm (he ▸ hx), hs x hx⟩⟩

-- The names collide where one of them is not the only one.
theorem checkNameCollisions_eq (plan : PlanDict) (filePath : String) :
    (plan.checkedNames.Nodup ∧ checkNameCollisions plan filePath = .ok ()) ∨
      ¬plan.checkedNames.Nodup ∧ ∃ e, checkNameCollisions plan filePath = .error (.parse e) := by
  have hn : firstRepeated [] plan.checkedNames = none ↔ _ := firstRepeated_eq_none_iff
  simp only [List.not_mem_nil, not_false_eq_true, implies_true, and_true] at hn
  rw [checkNameCollisions]
  cases h : firstRepeated [] plan.checkedNames
  case none   => exact .inl ⟨hn.mp h, rfl⟩
  case some _ => exact .inr ⟨fun hc => by simp [hn.mpr hc] at h, _, rfl⟩

namespace PlanFiles

variable (fs : PlanFiles)

-- A file that is missing stands for an empty plan.
def plan (path : String) : PlanDict :=
  (fs.files.get? path).getD {}

-- The imports of the files, each labelled with its substitutions, and the effective substitutions
-- that they lead to.
def graph : LinkGraph String Substitutions Substitutions where
  edges path := (fs.files.get? path).map fun plan => plan.entries.filterMap fun entry =>
    if entry.path = "" then none else some (entry.substitutions, fs.resolve path entry.path)
  extend subs importSubs path :=
    ((fs.plan path).inherit (subs.update importSubs)).substitutions

def plansOf (ws : List (String × Substitutions)) : List PlanDict :=
  ws.map fun w => fs.plan w.fst

def namesOf (ws : List (String × Substitutions)) : List String :=
  (fs.plansOf ws).flatMap PlanDict.checkedNames

variable {fs}

theorem plan_of_get? {path : String} {raw : PlanDict} (h : fs.files.get? path = some raw) :
    fs.plan path = raw := by
  rw [plan, h]
  rfl

theorem graph_edges {path : String} {raw : PlanDict} (h : fs.files.get? path = some raw) :
    fs.graph.edges path = some (raw.entries.filterMap fun entry =>
      if entry.path = "" then none
      else some (entry.substitutions, fs.resolve path entry.path)) := by
  simp [graph, h]

theorem graph_edges_none {path : String} (h : fs.files.get? path = none) :
    fs.graph.edges path = none := by
  simp [graph, h]

theorem graph_extend {path : String} {raw : PlanDict} (h : fs.files.get? path = some raw)
    (subs importSubs : Substitutions) :
    fs.graph.extend subs importSubs path = (raw.inherit (subs.update importSubs)).substitutions := by
  simp [graph, plan_of_get? h]

-- How the imports of some entries fare against the walk along the edges: they are merged, or a
-- name is found twice on the way.
def EntriesTrack (fs : PlanFiles) (start : PlanDict) (done : List String)
    (r : Except LoadError (List String × PlanDict)) :
    Except LinkGraph.Fault (List (String × Substitutions)) → Prop
  | .error .depth => True
  | .error _      => ∃ e, r = .error (.parse e)
  | .ok ws        => (¬(fs.namesOf ws).Nodup ∧ ∃ e, r = .error (.parse e)) ∨
    ∃ resolved, r = .ok (resolved, (fs.plansOf ws).foldl PlanDict.mergeLists start) ∧
      ∀ x, x ∈ resolved ↔ x ∈ done ∨ x ∈ ws.map Prod.fst

-- How the imports of a file fare against the walk from it. The file is marked as resolved later.
def FileTracks (fs : PlanFiles) (path : String) (subs : Substitutions) (done : List String)
    (r : Except LoadError (List String × PlanDict)) :
    Except LinkGraph.Fault (List (String × Substitutions)) → Prop
  | .error .depth => True
  | .error _      => ∃ e, r = .error (.parse e)
  | .ok ws        => (¬(fs.namesOf ws).Nodup ∧ ∃ e, r = .error (.parse e)) ∨
    (fs.namesOf ws).Nodup ∧ ∃ resolved imported, r = .ok (resolved, imported) ∧
      imported.name = (fs.plan path).name ∧ imported.substitutions = subs ∧
      (∀ start : PlanDict,
        start.mergeLists imported = (fs.plansOf ws).foldl PlanDict.mergeLists start) ∧
      ∀ x, x ∈ path :: resolved ↔ x ∈ done ∨ x ∈ ws.map Prod.fst

theorem namesOf_append (ws ws' : List (String × Substitutions)) :
    fs.namesOf (ws ++ ws') = fs.namesOf ws ++ fs.namesOf ws' := by
  simp [namesOf, plansOf]

-- A fault is a parse error on the way or shows only in what is walked later.
theorem EntriesTrack.of_error {start : PlanDict} {done : List String}
    {r : Except LoadError (List String × PlanDict)} {ws : List (String × Substitutions)}
    (h : ¬(fs.namesOf ws).Nodup) (hr : ∃ e, r = .error (.parse e))
    (v : Except LinkGraph.Fault (List (String × Substitutions))) :
    EntriesTrack fs start done r (v >>= fun ws' => pure (ws ++ ws')) := by
  match v with
  | .error .depth   => trivial
  | .error .cycle   => exact hr
  | .error .missing => exact hr
  | .ok ws'         =>
    refine .inl ⟨fun hn => h ?_, hr⟩
    rw [namesOf_append] at hn
    exact hn.of_append_left

-- What is merged after other files.
theorem EntriesTrack.append {start : PlanDict} {done : List String}
    {r : Except LoadError (List String × PlanDict)} {ws : List (String × Substitutions)}
    {v : Except LinkGraph.Fault (List (String × Substitutions))}
    (h : EntriesTrack fs ((fs.plansOf ws).foldl PlanDict.mergeLists start)
      (done ++ ws.map Prod.fst) r v) :
    EntriesTrack fs start done r (v >>= fun ws' => pure (ws ++ ws')) := by
  match v, h with
  | .error .depth,   _ => trivial
  | .error .cycle,   h => exact h
  | .error .missing, h => exact h
  | .ok ws',         h =>
    obtain ⟨hn, hr⟩ | ⟨resolved, hr, hmem⟩ := h
    · refine .inl ⟨fun hn' => hn ?_, hr⟩
      rw [namesOf_append] at hn'
      exact hn'.of_append_right
    · refine .inr ⟨resolved, ?_, fun x => ?_⟩
      · rw [hr, plansOf, plansOf, plansOf, List.map_append, List.foldl_append]
      · rw [hmem, List.mem_append, List.map_append, List.mem_append, or_assoc]

theorem importEntries_tracks {visiting resolved done : List String} {parentPath : String}
    {subs : Substitutions} {start : PlanDict} {entries : List ImportEntry}
    {fr : List String → String → PlanDict → Except LoadError (List String × PlanDict)}
    {fv : List String → String → Substitutions →
      Except LinkGraph.Fault (List (String × Substitutions))}
    (hf : ∀ {done resolved path l raw}, fs.files.get? path = some raw →
      (∀ x, x ∈ resolved ↔ x ∈ done) →
      FileTracks fs path l done (fr resolved path { raw with substitutions := l }) (fv done path l))
    (hm : ∀ {done path l}, fs.files.get? path = none →
      fv done path l = .error .missing ∨ fv done path l = .error .depth)
    (hres : ∀ x, x ∈ resolved ↔ x ∈ done) :
    EntriesTrack fs start done
      (importEntries fs fr visiting parentPath subs resolved start entries)
      (fs.graph.walkEdges fv visiting subs done <| entries.filterMap fun entry =>
        if entry.path = "" then none
        else some (entry.substitutions, fs.resolve parentPath entry.path)) := by
  induction entries generalizing resolved done start
  case nil => exact .inr ⟨resolved, rfl, by simpa using hres⟩
  case cons entry entries hi =>
    rw [importEntries]
    by_cases he : entry.path = ""
    case pos =>
      rw [if_pos he, List.filterMap_cons_none (by rw [if_pos he])]
      exact hi hres
    case neg =>
      rw [if_neg he, List.filterMap_cons_some (by rw [if_neg he]), LinkGraph.walkEdges]
      generalize habs : fs.resolve parentPath entry.path = absPath
      simp only [hres]
      split
      case isTrue => exact ⟨_, rfl⟩
      case isFalse =>
        split
        case isTrue => exact hi hres
        case isFalse =>
          cases hraw : fs.files.get? absPath
          case none =>
            obtain h | h := hm (l := fs.graph.extend subs entry.substitutions absPath) hraw
            · rw [h]
              exact ⟨_, rfl⟩
            · rw [h]
              trivial
          case some raw =>
            have htrack := hf (l := fs.graph.extend subs entry.substitutions absPath) hraw hres
            have hext : { raw with
                substitutions := fs.graph.extend subs entry.substitutions absPath } =
                raw.inherit (subs.update entry.substitutions) := by
              rw [graph_extend hraw, ← PlanDict.inherit_eq]
            rw [hext] at htrack
            cases hv : fv done absPath (fs.graph.extend subs entry.substitutions absPath)
            case error fault =>
              rw [hv] at htrack
              cases fault
              case depth => trivial
              case cycle =>
                obtain ⟨e, hr⟩ := htrack
                exact ⟨e, bind_error_iff.mpr <| .inl hr⟩
              case missing =>
                obtain ⟨e, hr⟩ := htrack
                exact ⟨e, bind_error_iff.mpr <| .inl hr⟩
            case ok ws =>
              rw [hv] at htrack
              obtain ⟨hn, e, hr⟩ | ⟨_, resolved', imported, hr, _, _, hmerge, hmem⟩ := htrack
              · exact .of_error hn ⟨e, bind_error_iff.mpr <| .inl hr⟩ _
              · have hnext : EntriesTrack fs (start.mergeLists imported) _ _ _ :=
                  hi fun x => (hmem x).trans List.mem_append.symm
                rw [hmerge] at hnext
                have hnext := hnext.append
                rw [← hmerge] at hnext
                simp only [hr]
                exact hnext

theorem plansOf_cons {path : String} {raw : PlanDict} {l : Substitutions}
    {ws : List (String × Substitutions)} (h : fs.files.get? path = some raw) :
    fs.plansOf ((path, l) :: ws) = raw :: fs.plansOf ws := by
  rw [plansOf, List.map_cons, plan_of_get? h]
  rfl

theorem namesOf_cons {path : String} {raw : PlanDict} {l : Substitutions}
    {ws : List (String × Substitutions)} (h : fs.files.get? path = some raw) :
    fs.namesOf ((path, l) :: ws) =
      raw.checkedNames ++ (fs.plansOf ws).flatMap PlanDict.checkedNames := by
  rw [namesOf, plansOf_cons h, List.flatMap_cons]

theorem resolveImports_tracks (depth : Nat) {path resolved done : List String} {p : String}
    {l : Substitutions} {raw : PlanDict} (hraw : fs.files.get? p = some raw)
    (hres : ∀ x, x ∈ resolved ↔ x ∈ done) :
    FileTracks fs p l done (resolveImports fs depth path resolved p { raw with substitutions := l })
      (fs.graph.visit depth path done p l) := by
  induction depth generalizing path resolved done p l raw
  case zero => trivial
  case succ depth hi =>
    have hm {done : List String} {w : String} {l : Substitutions} (hw : fs.files.get? w = none) :
        fs.graph.visit depth (p :: path) done w l = .error .missing ∨
          fs.graph.visit depth (p :: path) done w l = .error .depth := by
      cases depth
      case zero => exact .inr rfl
      case succ =>
        rw [LinkGraph.visit, graph_edges_none hw]
        exact .inl rfl
    have htrack : EntriesTrack fs { raw.normalizeImports with substitutions := l } done
        (importEntries fs (resolveImports fs depth (p :: path)) (p :: path) p l resolved
          { raw.normalizeImports with substitutions := l } raw.entries)
        (fs.graph.walkEdges (fs.graph.visit depth (p :: path)) (p :: path) l done
          (raw.entries.filterMap fun entry => if entry.path = "" then none
            else some (entry.substitutions, fs.resolve p entry.path))) :=
      importEntries_tracks hi hm hres
    rw [resolveImports, PlanDict.normalizeImports_with, LinkGraph.visit, graph_edges hraw]
    simp only
    rw [← PlanDict.entries]
    generalize fs.graph.walkEdges _ _ _ _ _ = v at htrack ⊢
    cases v
    case error fault =>
      cases fault
      case depth => trivial
      case cycle =>
        obtain ⟨e, hr⟩ := htrack
        exact ⟨e, bind_error_iff.mpr <| .inl hr⟩
      case missing =>
        obtain ⟨e, hr⟩ := htrack
        exact ⟨e, bind_error_iff.mpr <| .inl hr⟩
    case ok ws =>
      obtain ⟨hn, e, hr⟩ | ⟨resolved', hr, hmem⟩ := htrack
      · refine .inl ⟨fun hnames => hn ?_, e, bind_error_iff.mpr <| .inl hr⟩
        exact List.Nodup.of_append_right hnames
      have hperm : ((fs.plansOf ws).foldl PlanDict.mergeLists
          { raw.normalizeImports with substitutions := l }).checkedNames.Perm
          (fs.namesOf ((p, l) :: ws)) := by
        rw [namesOf_cons hraw, ← PlanDict.checkedNames_normalizeImports raw l]
        exact PlanDict.checkedNames_foldl ..
      have hmerge (start : PlanDict) :
          start.mergeLists ((fs.plansOf ws).foldl PlanDict.mergeLists
            { raw.normalizeImports with substitutions := l }) =
          (fs.plansOf ((p, l) :: ws)).foldl PlanDict.mergeLists start := by
        rw [PlanDict.mergeLists_foldl, PlanDict.mergeLists_normalizeImports, plansOf_cons hraw,
          List.foldl_cons]
      obtain ⟨hname, hsubs⟩ := PlanDict.foldl_mergeLists_eq
        { raw.normalizeImports with substitutions := l } (fs.plansOf ws)
      rw [hr]
      obtain ⟨hn, hc⟩ | ⟨hn, e, hc⟩ := checkNameCollisions_eq ((fs.plansOf ws).foldl
        PlanDict.mergeLists { raw.normalizeImports with substitutions := l }) p
      · refine .inr ⟨hperm.nodup_iff.mp hn, resolved', _, ?_, ?_, hsubs, hmerge, fun x => ?_⟩
        · simp only [bind, Except.bind, hc]
          rfl
        · rw [hname, plan_of_get? hraw, PlanDict.normalizeImports_eq]
        · rw [List.mem_cons, hmem, List.map_cons, List.mem_cons, or_left_comm]
      · refine .inl ⟨fun h => hn (hperm.nodup_iff.mpr h), e, ?_⟩
        simp only [bind, Except.bind, hc]

variable (fs)

-- Two test points of reachable files have a name in common.
def SharedName (namesOf : PlanDict → List String) (path : String) : Prop :=
  ∃ ps : List String, ps.Nodup ∧ (∀ p ∈ ps, fs.graph.Reachable path p) ∧
    ¬(ps.flatMap fun p => namesOf (fs.plan p)).Nodup

-- The files in the order they are merged in, each with the substitutions of the imports that it is
-- first reached by.
def walk (path : String) (substitutions : Substitutions) :
    Except LinkGraph.Fault (List (String × Substitutions)) :=
  fs.graph.visit (fs.files.entries.length + 1) [] [] path
    (rootSubstitutions (fs.plan path) substitutions)

variable {fs} {path : String} {substitutions : Substitutions} {ws : List (String × Substitutions)}

theorem sharedName_iff {l : Substitutions} (hw : fs.graph.WholeWalk path l ws)
    (namesOf : PlanDict → List String) :
    fs.SharedName namesOf path ↔ ¬((fs.plansOf ws).flatMap namesOf).Nodup := by
  have he : (fs.plansOf ws).flatMap namesOf =
      (ws.map Prod.fst).flatMap fun p => namesOf (fs.plan p) := by
    rw [plansOf, List.flatMap_map, List.flatMap_map]
  rw [he]
  constructor
  case mp =>
    intro ⟨ps, hn, hr, hnames⟩ hnodup
    have ⟨hf, hdisjoint⟩ := List.nodup_flatMap.mp hnodup
    have hmem (p : String) (hp : p ∈ ps) : p ∈ ws.map Prod.fst := (hw.mem_iff p).mpr (hr p hp)
    refine hnames <| List.nodup_flatMap.mpr ⟨fun p hp => hf p (hmem p hp), ?_⟩
    refine hn.pairwise_of_forall_ne fun p hp q hq hne => ?_
    have : Std.Symm (Function.onFun List.Disjoint fun p => namesOf (fs.plan p)) :=
      ⟨fun _ _ h => h.symm⟩
    exact hdisjoint.forall (hmem p hp) (hmem q hq) hne
  case mpr =>
    intro h
    exact ⟨ws.map Prod.fst, hw.nodup, fun p hp => (hw.mem_iff p).mp hp, h⟩

variable (isWord : Char → Bool)

-- What is built from the merged lists of files where all substitutions are those of the root.
structure MergedBy (fs : PlanFiles) (subsOf : String × Substitutions → Substitutions)
    (ws : List (String × Substitutions)) (plan : ParsedTestplan) : Prop where
  testpoints  : plan.testpoints = ws.flatMap fun w =>
    (fs.plan w.1).testpoints.map (buildTestpoint isWord (subsOf w))
  goals       : plan.goals = ws.flatMap fun w => buildGoals isWord (subsOf w) (fs.plan w.1).goals
  covergroups : plan.covergroups = ws.flatMap fun w => (fs.plan w.1).covergroups

theorem buildGoals_append (subs : Substitutions) (goals goals' : List (Goal RawTestpoint)) :
    buildGoals isWord subs (goals ++ goals') =
      buildGoals isWord subs goals ++ buildGoals isWord subs goals' := by
  induction goals
  case nil => simp [buildGoals]
  case cons goal goals hi =>
    obtain ⟨id, testpoints, subgoals⟩ := goal
    rw [List.cons_append, buildGoals, hi, buildGoals, List.cons_append]

theorem length_buildGoals (subs : Substitutions) (goals : List (Goal RawTestpoint)) :
    (buildGoals isWord subs goals).length = goals.length := by
  induction goals
  case nil => simp [buildGoals]
  case cons goal goals hi =>
    obtain ⟨id, testpoints, subgoals⟩ := goal
    rw [buildGoals, List.length_cons, hi, List.length_cons]

-- Goals are built alike where their test points are.
theorem buildGoals_eq_iff (subs subs' : Substitutions) (goals : List (Goal RawTestpoint)) :
    buildGoals isWord subs goals = buildGoals isWord subs' goals ↔
      ∀ tp ∈ iterGoalTestpoints goals, buildTestpoint isWord subs tp = buildTestpoint isWord subs' tp := by
  induction goals using iterGoalTestpoints.induct
  case case1 => simp [buildGoals, iterGoalTestpoints]
  case case2 id testpoints subgoals goals hi hi' =>
    rw [buildGoals, buildGoals, List.cons.injEq, Goal.mk.injEq, hi, hi', List.map_inj_left,
      iterGoalTestpoints, List.forall_mem_append, List.forall_mem_append]
    simp only [true_and]

-- What is built of a merged plan.
theorem mergedBy_buildPlan {imported : PlanDict} {subs : Substitutions}
    (h : ∀ start : PlanDict,
      start.mergeLists imported = (fs.plansOf ws).foldl PlanDict.mergeLists start) :
    fs.MergedBy isWord (fun _ => subs) ws (buildPlan isWord imported subs) := by
  have hfold (start : PlanDict) (plans : List PlanDict) :
      (plans.foldl PlanDict.mergeLists start).testpoints =
        start.testpoints ++ plans.flatMap (·.testpoints) ∧
      (plans.foldl PlanDict.mergeLists start).goals = start.goals ++ plans.flatMap (·.goals) ∧
      (plans.foldl PlanDict.mergeLists start).covergroups =
        start.covergroups ++ plans.flatMap (·.covergroups) := by
    induction plans generalizing start
    case nil => simp
    case cons p plans hi =>
      have ⟨ht, hg, hc⟩ := hi (start.mergeLists p)
      rw [List.foldl_cons, ht, hg, hc]
      simp [PlanDict.mergeLists]
  have ⟨ht, hg, hc⟩ := hfold {} (fs.plansOf ws)
  have hbuild (plans : List PlanDict) : buildGoals isWord subs (plans.flatMap (·.goals)) =
      plans.flatMap fun plan => buildGoals isWord subs plan.goals := by
    induction plans
    case nil => simp [buildGoals]
    case cons p plans hi => rw [List.flatMap_cons, buildGoals_append, hi, List.flatMap_cons]
  rw [← h] at ht hg hc
  simp only [PlanDict.mergeLists, List.nil_append] at ht hg hc
  constructor
  case testpoints  => rw [buildPlan, ht, plansOf, List.flatMap_map, List.map_flatMap]
  case goals       => rw [buildPlan, hg, hbuild, plansOf, List.flatMap_map]
  case covergroups => rw [buildPlan, hc, plansOf, List.flatMap_map]

theorem edges_mem_keys {p : String} {es : List (Substitutions × String)}
    (h : fs.graph.edges p = some es) : p ∈ fs.files.keys := by
  rw [← Dict.mem_def, ← Dict.get?_isSome_iff]
  by_contra hn
  rw [graph_edges_none (Option.not_isSome_iff_eq_none.mp hn)] at h
  cases h

-- What loading comes to: a fault, a collision of checked names or the merged plan.
theorem loadTestplan_spec {depth : Nat} {raw : PlanDict} (hd : fs.files.entries.length < depth)
    (hraw : fs.files.get? path = some raw) (substitutions : Substitutions) :
    (fs.graph.Faulty path ∧
      ∃ e, loadTestplan isWord fs depth path substitutions = .error (.parse e)) ∨
    ∃ ws, fs.walk path substitutions = .ok ws ∧ ¬fs.graph.Faulty path ∧
      fs.graph.WholeWalk path (rootSubstitutions raw substitutions) ws ∧
      ((fs.SharedName PlanDict.checkedNames path ∧
        ∃ e, loadTestplan isWord fs depth path substitutions = .error (.parse e)) ∨
      ¬fs.SharedName PlanDict.checkedNames path ∧
        ∃ plan, loadTestplan isWord fs depth path substitutions = .ok plan ∧
          fs.MergedBy isWord (fun _ => rootSubstitutions raw substitutions) ws plan) := by
  have hkeys : fs.files.keys.length = fs.files.entries.length := List.length_map ..
  have htrack : FileTracks fs path (rootSubstitutions raw substitutions) []
      (resolveImports fs depth [] [] path
        { raw with substitutions := rootSubstitutions raw substitutions })
      (fs.graph.visit depth [] [] path (rootSubstitutions raw substitutions)) :=
    resolveImports_tracks depth hraw fun _ => .rfl
  have hload : loadTestplan isWord fs depth path substitutions = resolveImports fs depth [] [] path
      { raw with substitutions := rootSubstitutions raw substitutions } >>= fun x =>
        pure (buildPlan isWord x.2 x.2.substitutions) := by
    rw [loadTestplan, hraw]
  obtain ⟨ws, hv, hw, hf⟩ | ⟨⟨fault, hne, hv⟩, hf⟩ := LinkGraph.visit_spec
    (g := fs.graph) (fun _ _ => edges_mem_keys) (hkeys ▸ hd) path
    (rootSubstitutions raw substitutions)
  case inr =>
    have hr : ∃ e, resolveImports fs depth [] [] path
        { raw with substitutions := rootSubstitutions raw substitutions } = .error (.parse e) := by
      rw [hv] at htrack
      cases fault
      case cycle   => exact htrack
      case missing => exact htrack
      case depth   => exact absurd rfl hne
    have ⟨e, hr⟩ := hr
    exact .inl ⟨hf, e, by rw [hload, hr]; rfl⟩
  case inl =>
    rw [hv] at htrack
    have hwalk : fs.walk path substitutions = .ok ws := by
      have hfirst : fs.graph.visit (fs.files.entries.length + 1) [] [] path
          (rootSubstitutions raw substitutions) ≠ .error .depth :=
        LinkGraph.visit_depth (fun _ _ => edges_mem_keys) (by simp) (by simp)
          (by rw [List.length_nil, hkeys]; exact Nat.lt_succ_self _)
      rw [walk, plan_of_get? hraw, ← LinkGraph.visit_of_le hd hfirst, hv]
    refine .inr ⟨ws, hwalk, hf, hw, ?_⟩
    rw [sharedName_iff hw]
    obtain ⟨hn, e, hr⟩ | ⟨hn, resolved, imported, hr, _, hsubs, hmerge, _⟩ := htrack
    · exact .inl ⟨hn, e, by rw [hload, hr]; rfl⟩
    · refine .inr ⟨not_not.mpr hn, buildPlan isWord imported imported.substitutions, ?_, ?_⟩
      · rw [hload, hr]
        rfl
      · rw [hsubs]
        exact mergedBy_buildPlan isWord hmerge

variable (fs) (path) (substitutions)

-- What the loader should come to.
structure ImportsResolved (r : Except LoadError ParsedTestplan) : Prop where
  terminates : r ≠ .error .recursion
  notFound   : r = .error (.fileNotFound path) ↔ path ∉ fs.files
  raises     : (∃ e, r = .error (.parse e)) ↔
    path ∈ fs.files ∧ (fs.graph.Faulty path ∨ fs.SharedName PlanDict.allNames path)
  merges     : ∀ plan, r = .ok plan → ∃ ws, fs.walk path substitutions = .ok ws ∧
    fs.graph.WholeWalk path (rootSubstitutions (fs.plan path) substitutions) ws ∧
    fs.MergedBy isWord Prod.snd ws plan

-- Where it does: a name that two test points share shows above the subgoals, and no test point of an
-- import is built otherwise with the substitutions of the root than with those of its import.
structure ImportsClear : Prop where
  caught : fs.SharedName PlanDict.allNames path →
    fs.graph.Faulty path ∨ fs.SharedName PlanDict.checkedNames path
  alike  : ¬fs.SharedName PlanDict.checkedNames path → ∀ ws, fs.walk path substitutions = .ok ws →
    ∀ w ∈ ws, ∀ tp ∈ (fs.plan w.1).allTestpoints, buildTestpoint isWord w.2 tp =
      buildTestpoint isWord (rootSubstitutions (fs.plan path) substitutions) tp

variable {fs} {path} {substitutions}

theorem flatMap_eq_iff {α β : Type} {f g : α → List β} (h : ∀ x, (f x).length = (g x).length)
    (xs : List α) : xs.flatMap f = xs.flatMap g ↔ ∀ x ∈ xs, f x = g x := by
  induction xs
  case nil => simp
  case cons x xs hi =>
    rw [List.flatMap_cons, List.flatMap_cons, List.forall_mem_cons, ← hi]
    exact ⟨fun he => List.append_inj he (h x), fun ⟨h₁, h₂⟩ => by rw [h₁, h₂]⟩

-- Two ways to build a plan of the same files agree where they build each test point alike.
theorem MergedBy.alike_iff {subsOf subsOf' : String × Substitutions → Substitutions}
    {plan : ParsedTestplan} (h : fs.MergedBy isWord subsOf ws plan) :
    fs.MergedBy isWord subsOf' ws plan ↔ ∀ w ∈ ws, ∀ tp ∈ (fs.plan w.1).allTestpoints,
      buildTestpoint isWord (subsOf' w) tp = buildTestpoint isWord (subsOf w) tp := by
  have ht := flatMap_eq_iff
    (f := fun w => (fs.plan w.1).testpoints.map (buildTestpoint isWord (subsOf' w)))
    (g := fun w => (fs.plan w.1).testpoints.map (buildTestpoint isWord (subsOf w)))
    (by simp) ws
  have hg := flatMap_eq_iff (f := fun w => buildGoals isWord (subsOf' w) (fs.plan w.1).goals)
    (g := fun w => buildGoals isWord (subsOf w) (fs.plan w.1).goals)
    (by simp [length_buildGoals]) ws
  simp only [List.map_inj_left] at ht
  simp only [buildGoals_eq_iff] at hg
  simp only [PlanDict.allTestpoints, List.forall_mem_append]
  constructor
  case mp =>
    intro h' w hw
    exact ⟨ht.mp (h'.testpoints.symm.trans h.testpoints) w hw,
      hg.mp (h'.goals.symm.trans h.goals) w hw⟩
  case mpr =>
    intro hall
    exact {
      testpoints  := h.testpoints.trans (ht.mpr fun w hw => (hall w hw).left).symm
      goals       := h.goals.trans (hg.mpr fun w hw => (hall w hw).right).symm
      covergroups := h.covergroups
    }

theorem SharedName.mono {l : Substitutions} (hw : fs.graph.WholeWalk path l ws)
    (h : fs.SharedName PlanDict.checkedNames path) : fs.SharedName PlanDict.allNames path := by
  rw [sharedName_iff hw] at h ⊢
  refine fun hn => h <| hn.sublist ?_
  generalize fs.plansOf ws = plans
  induction plans
  case nil => exact List.nil_sublist _
  case cons p plans hi => exact p.checkedNames_sublist.append hi

theorem loadTestplan_missing {depth : Nat} (h : path ∉ fs.files) (substitutions : Substitutions) :
    loadTestplan isWord fs depth path substitutions = .error (.fileNotFound path) := by
  rw [loadTestplan, Dict.get?_eq_none_iff.mpr h]

theorem ImportsResolved.clear {depth : Nat} (hd : fs.files.entries.length < depth)
    (h : fs.ImportsResolved path substitutions isWord
      (loadTestplan isWord fs depth path substitutions)) :
    fs.ImportsClear path substitutions isWord := by
  by_cases hpath : path ∈ fs.files
  case neg =>
    have hnone := graph_edges_none (Dict.get?_eq_none_iff.mpr hpath)
    refine ⟨fun _ => .inl ⟨path, .refl, .inr hnone⟩, fun _ ws hwalk => ?_⟩
    rw [walk, LinkGraph.visit, hnone] at hwalk
    cases hwalk
  case pos =>
    obtain ⟨raw, hraw⟩ := Dict.exists_get?_of_mem hpath
    obtain ⟨hf, e, he⟩ | ⟨ws, hwalk, hf, hw, ⟨hs, e, he⟩ | ⟨hs, plan, hplan, hmerged⟩⟩ :=
      loadTestplan_spec isWord hd hraw substitutions
    · refine ⟨fun _ => .inl hf, fun _ ws hwalk => ?_⟩
      have hspec := LinkGraph.visit_ok List.not_mem_nil List.not_mem_nil (by simp) hwalk
      obtain ⟨s, hs, hv⟩ := List.mem_map.mp (hspec.whole.mem_iff path |>.mpr .refl)
      exact absurd hf <| hv ▸ hspec.sound s hs
    · exact ⟨fun _ => .inr hs, fun hs' => absurd hs hs'⟩
    · constructor
      case caught =>
        intro hnames
        obtain ⟨e, he⟩ := h.raises.mpr ⟨hpath, .inr hnames⟩
        rw [hplan] at he
        cases he
      case alike =>
        intro _ ws' hwalk'
        obtain ⟨ws₂, hwalk₂, _, hmerged₂⟩ := h.merges plan hplan
        rw [hwalk] at hwalk' hwalk₂
        cases hwalk'
        cases hwalk₂
        rw [plan_of_get? hraw]
        exact (hmerged.alike_iff isWord).mp hmerged₂

theorem ImportsClear.resolved (h : fs.ImportsClear path substitutions isWord) {depth : Nat}
    (hd : fs.files.entries.length < depth) :
    fs.ImportsResolved path substitutions isWord
      (loadTestplan isWord fs depth path substitutions) := by
  by_cases hpath : path ∈ fs.files
  case neg =>
    rw [loadTestplan_missing isWord hpath]
    constructor <;> simp [hpath]
  case pos =>
    have ⟨raw, hraw⟩ := Dict.exists_get?_of_mem hpath
    obtain ⟨hf, e, he⟩ | ⟨ws, hwalk, hf, hw, ⟨hs, e, he⟩ | ⟨hs, plan, hplan, hmerged⟩⟩ :=
      loadTestplan_spec isWord hd hraw substitutions
    · rw [he]
      exact ⟨by simp, by simp [hpath], by simp [hpath, hf], by simp⟩
    · rw [he]
      exact ⟨by simp, by simp [hpath], by simp [hpath, hs.mono hw], by simp⟩
    · rw [hplan]
      refine ⟨by simp, by simp [hpath], ?_, fun plan' hplan' => ?_⟩
      · have hnames : ¬fs.SharedName PlanDict.allNames path := fun hnames =>
          (h.caught hnames).elim hf hs
        simp [hf, hnames]
      · cases hplan'
        have halike := h.alike hs ws hwalk
        rw [plan_of_get? hraw] at halike ⊢
        exact ⟨ws, hwalk, hw, (hmerged.alike_iff isWord).mpr halike⟩

-- The imports are resolved as they should be just where no shared name is deep and no import needs
-- substitutions of its own.
theorem importsResolved_iff (isWord : Char → Bool) (fs : PlanFiles) (path : String)
    (substitutions : Substitutions) :
    (∀ depth, fs.files.entries.length < depth → fs.ImportsResolved path substitutions isWord
      (loadTestplan isWord fs depth path substitutions)) ↔
      fs.ImportsClear path substitutions isWord :=
  ⟨fun h => (h _ (Nat.lt_succ_self _)).clear isWord (Nat.lt_succ_self _),
    fun h _ hd => h.resolved isWord hd⟩

-- A plan that imports another one under a name of its own.
def uartFiles : PlanFiles where
  files := Dict.ofList [
    ("uart.yaml", {
      substitutions := Dict.ofList [("name", .scalar "uart")]
      imports       := some [{
        path          := "smoke.yaml"
        substitutions := Dict.ofList [("name", .scalar "spi")]
      }]
    }),
    ("smoke.yaml", { testpoints := [{ name := "smoke", tests := ["{name}_smoke"] }] })
  ]
  resolve := fun _ path => path

-- The test of the import is named after the importing plan.
theorem import_substitutions_lost : ¬∀ depth, uartFiles.files.entries.length < depth →
    uartFiles.ImportsResolved "uart.yaml" ∅ Char.isAlphanum
      (loadTestplan Char.isAlphanum uartFiles depth "uart.yaml" ∅) := by
  intro h
  have h := h 3 (by decide)
  have hload : ∃ plan, loadTestplan Char.isAlphanum uartFiles 3 "uart.yaml" ∅ = .ok plan ∧
      plan.testpoints.map (·.tests) = [["uart_smoke"]] := ⟨_, rfl, by decide⟩
  have ⟨plan, hplan, htests⟩ := hload
  have ⟨ws, hwalk, _, hmerged⟩ := h.merges plan hplan
  have hws : uartFiles.walk "uart.yaml" ∅ = .ok [
      ("uart.yaml", Dict.ofList [("name", .scalar "uart")]),
      ("smoke.yaml", Dict.ofList [("name", .scalar "spi")])] := by decide
  cases hws.symm.trans hwalk
  rw [hmerged.testpoints] at htests
  revert htests
  decide

end PlanFiles
