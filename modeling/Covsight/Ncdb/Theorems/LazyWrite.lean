import Covsight.Ncdb.LazyUCIS
import Covsight.Ncdb.Theorems.NcdbReader

-- Writing a lazily opened database back.

-- The parts of an archive beside its coverage data.
inductive ArchivePart
  | testplan
  | waivers
  | issues
  | issuesMeta
  | issuesHistory
  | v2History
  | runs
  deriving DecidableEq, Repr

-- The part that an operation is about, apart from loading it.
def LazyOp.edits : LazyOp → Option ArchivePart
  | setTestplan ..        => some .testplan
  | editTestplan _        => some .testplan
  | setWaivers _          => some .waivers
  | editWaivers _         => some .waivers
  | setIssues _           => some .issues
  | editIssues _          => some .issues
  | setIssuesMeta _       => some .issuesMeta
  | editIssuesMeta _      => some .issuesMeta
  | setIssueHistoryData _ => some .issuesHistory
  | editV2History _       => some .v2History
  | load _                => none
  | edit _                => none
  | getIssuesMeta         => none

-- Whether an operation loads a unit.
def LazyOp.loads (unit : LazyUnit) : LazyOp → Bool
  | load unit' => unit = unit'
  | _          => false

-- A table of statistics as a file has it: the ids are the positions, and there are no seeds.
def TestStatsTable.stored (tbl : TestStatsTable) : TestStatsTable where
  entries := tbl.entries.mapIdx fun nameId e => { e with nameId := nameId, knownSeeds := [] }

namespace Archive

-- The binary run history as it is read from the members.
def v2State (a : Archive) : Option V2State :=
  (V2State.load a.v2Members).map fun s => { s with stats := s.stats.stored }

-- Whether a part reads the same from two archives. Of the runs this is the run table and the counts
-- of the runs that were appended; those of the baseline belong to the coverage data.
def SamePart (a a' : Archive) : ArchivePart → Prop
  | .testplan      => a'.testplan = a.testplan
  | .waivers       => a'.waivers = a.waivers
  | .issues        => a'.issues = a.issues
  | .issuesMeta    => a'.issuesMeta = a.issuesMeta
  | .issuesHistory => a'.issuesHistory = a.issuesHistory
  | .v2History     => a'.v2State = a.v2State
  | .runs          => a'.runTable = a.runTable ∧
    ∀ entry ∈ a.runTable.entries, entry.member ≠ .counts → a'.read entry.member = a.read entry.member

-- The table of an archive that no run was appended to.
def singleRunTable : RunTable :=
  ⟨[{ runId := baselineRunId, member := .counts }]⟩

-- When a part that is not edited survives: the test plan, the waivers and the run history once they
-- are loaded or where there are none, the issues only where there are none, and the runs where the
-- baseline is the only one.
def SurvivesWrite (a : Archive) (ops : List LazyOp) : ArchivePart → Prop
  | .testplan      => a.testplan = none ∨ ops.any (LazyOp.loads .testplan)
  | .waivers       => a.waivers = none ∨ ops.any (LazyOp.loads .waivers)
  | .issues        => a.issues = none
  | .issuesMeta    => a.issuesMeta = none
  | .issuesHistory => a.issuesHistory = none
  | .v2History     => a.v2State = some {} ∨ ops.any (LazyOp.loads .v2History)
  | .runs          => a.runTable = singleRunTable

end Archive

-- A registry that was read has nothing but what can be stored.
theorem TestRegistry.nulFree_of_deserialize {file : RegistryFile} {reg : TestRegistry}
    (h : deserialize file = some reg) : reg.NulFree := by
  simp only [deserialize, Option.bind_eq_bind, Option.bind_eq_some_iff] at h
  have ⟨names, hn, seeds, hs, h⟩ := h
  cases h
  have hz : ∀ (base : Nat) {offsets : List Nat} {segs : List (List Char)},
      offsets.mapM (fun offset => Heap.readAt '\x00' file.heap (base + offset)) = some segs →
      ∀ s ∈ segs.map String.ofList, '\x00' ∉ s.toList := by
    intro base offsets segs hm s hs
    have ⟨seg, hseg, he⟩ := List.mem_map.mp hs
    rw [← he, String.toList_ofList]
    exact Heap.not_mem_of_mapM_readAt hm seg hseg
  have hn' : file.nameOffsets.mapM (fun offset => Heap.readAt '\x00' file.heap (0 + offset))
      = some names := by
    simpa only [Nat.zero_add] using hn
  exact ⟨hz 0 hn', hz _ hs⟩

theorem TestStatsTable.stored_stored (tbl : TestStatsTable) : tbl.stored.stored = tbl.stored := by
  rw [stored, stored, List.mapIdx_mapIdx]
  rfl

namespace V2State

theorem readRegistry_nulFree {registry : Option RegistryFile} {reg : TestRegistry}
    (h : readRegistry registry = some reg) : reg.NulFree := by
  cases registry
  case none      => cases h; exact ⟨nofun, nofun⟩
  case some file => exact TestRegistry.nulFree_of_deserialize h

-- A history that was loaded and not edited is read back as it was.
theorem load_getV2Members_load {accel : Bool} {m m' : V2Members} {s : V2State}
    (hl : load m = some s) (hm : s.getV2Members accel = some m') :
    load m' = some { s with stats := s.stats.stored } := by
  obtain ⟨reg, hr, hl⟩ := Option.bind_eq_some_iff.mp hl
  cases hl
  simp only [getV2Members, Option.bind_eq_bind, Option.bind_eq_some_iff] at hm
  obtain ⟨file, hf, stats, hs, ci, hc, log, hq, ⟨buckets, index⟩, hb, index', hi, hm⟩ := hm
  have hd := TestRegistry.deserialize_serialize (readRegistry_nulFree hr) hf
  have hs : stats = (m.stats.getD {}).stored := by
    rw [TestStatsTable.serialize] at hs
    split at hs <;> cases hs
    rw [TestStatsTable.stored, List.mapIdx_eq_zipIdx_map]
  have hc : ci = m.contribIndex.getD {} := by
    rw [ContribIndex.serialize] at hc
    split at hc <;> cases hc
    rfl
  have hq : log = m.squashLog.getD [] := by
    rw [SquashLog.serialize] at hq
    split at hq <;> cases hq
    rfl
  rw [bucketMembers, if_pos (by rfl)] at hb
  cases hb
  have hi : index' = m.bucketIndex.getD {} := by
    rw [BucketIndex.serialize] at hi
    split at hi <;> cases hi
    rfl
  cases hm
  simp [load, readRegistry, hd, hs, hc, hq, hi]

end V2State

namespace LazyUCIS

variable {a out : Archive} {db db' : LazyUCIS} {ops : List LazyOp}

-- What holds of a database that was opened and of which no operation loses it holds after a run.
theorem run_rule {P : List LazyOp → LazyUCIS → Prop} (h : P [] {})
    (hs : ∀ done op db db', op ∈ ops → P done db → db.step a op = .ok db' → P (done ++ [op]) db')
    (hr : ops.foldlM (step a) {} = .ok db) : P ops db := by
  suffices hg : ∀ todo done db₁, (∀ op ∈ todo, op ∈ ops) → P done db₁ →
      todo.foldlM (step a) db₁ = .ok db → P (done ++ todo) db from
    hg ops [] {} (fun _ => id) h hr
  intro todo
  induction todo
  case nil =>
    intro done db₁ _ hp hr
    cases hr
    rwa [List.append_nil]
  case cons op todo hi =>
    intro done db₁ hm hp hr
    rw [List.foldlM_cons] at hr
    have ⟨db₂, ho, hr⟩ := bind_ok hr
    rw [List.append_cons]
    exact hi _ db₂ (fun op ho => hm op (.tail _ ho)) (hs _ _ _ _ (hm op (.head _)) hp ho) hr

-- What an operation leaves as it is.
structure Frame (op : LazyOp) (db db' : LazyUCIS) : Prop where
  testplan           : op.edits ≠ some .testplan → ¬op.loads .testplan →
    db'.testplan = db.testplan ∧ db'.loadedTestplan = db.loadedTestplan
  waivers            : op.edits ≠ some .waivers → ¬op.loads .waivers →
    db'.waivers = db.waivers ∧ db'.loadedWaivers = db.loadedWaivers
  issuesDirty        : op.edits ≠ some .issues → db'.issuesDirty = db.issuesDirty
  issuesMetaDirty    : op.edits ≠ some .issuesMeta → db'.issuesMetaDirty = db.issuesMetaDirty
  issuesHistoryDirty : op.edits ≠ some .issuesHistory → db'.issuesHistoryDirty = db.issuesHistoryDirty
  v2History          : op.edits ≠ some .v2History → ¬op.loads .v2History → db'.v2History = db.v2History

theorem Frame.refl (op : LazyOp) (db : LazyUCIS) : Frame op db db := by
  constructor <;> simp

theorem Frame.ensureHistory (op : LazyOp) (db : LazyUCIS) : Frame op db (db.ensureHistory a) := by
  rw [LazyUCIS.ensureHistory]
  split
  · exact .refl ..
  · constructor <;> simp

theorem Frame.ensureScopes (op : LazyOp) (hr : db.ensureScopes a = .ok db') : Frame op db db' := by
  rw [LazyUCIS.ensureScopes] at hr
  split at hr
  case isTrue =>
    cases hr
    exact .refl ..
  case isFalse =>
    simp only at hr
    split at hr
    case isTrue => cases hr
    case isFalse =>
      have ⟨separator, _, hr⟩ := bind_ok hr
      have ⟨counts, _, hr⟩ := bind_ok hr
      have ⟨scopes, _, hr⟩ := bind_ok hr
      cases hr
      rw [setScopes]
      split
      case isFalse => constructor <;> simp
      case isTrue =>
        have hf := fun db₁ => Frame.ensureHistory (a := a) op db₁
        have ⟨ht, hw, hi, hm, hh, hv⟩ := hf { db with
          loadedScopes := true, scopes := scopes, pathSeparator := separator }
        exact ⟨ht, hw, hi, hm, hh, hv⟩

theorem Frame.ensureV2History {op : LazyOp} (ho : op.edits = some .v2History ∨ op.loads .v2History)
    (hr : db.ensureV2History a = .ok db') : Frame op db db' := by
  rw [LazyUCIS.ensureV2History] at hr
  split at hr
  case h_1 =>
    cases hr
    exact .refl ..
  case h_2 =>
    have ⟨s, _, hr⟩ := bind_ok hr
    cases hr
    exact { Frame.refl op db with v2History := fun he hl => absurd ho (not_or.mpr ⟨he, hl⟩) }

theorem step_frame {op : LazyOp} (hr : db.step a op = .ok db') : Frame op db db' := by
  cases op
  case load unit =>
    cases unit
    case history   => cases hr; exact .ensureHistory ..
    case scopes    => exact .ensureScopes _ hr
    case v2History => exact .ensureV2History (.inr (by simp [LazyOp.loads])) hr
    case testplan  =>
      cases hr
      rw [ensureTestplan]
      split
      · exact .refl ..
      · constructor <;> simp [LazyOp.loads]
    case waivers   =>
      cases hr
      rw [ensureWaivers]
      split
      · exact .refl ..
      · constructor <;> simp [LazyOp.loads]
    case issues    =>
      cases hr
      rw [ensureIssues]
      split
      · exact .refl ..
      · constructor <;> simp
  case editV2History f =>
    have ⟨db₁, h₁, hr⟩ := bind_ok hr
    cases hr
    have hf : Frame (.editV2History f) db db₁ := .ensureV2History (.inl rfl) h₁
    exact { hf with v2History := fun he => absurd rfl he }
  case editTestplan f =>
    cases hr
    simp only [ensureTestplan]
    split <;> constructor <;> simp [LazyOp.edits]
  case editWaivers f =>
    cases hr
    simp only [ensureWaivers]
    split <;> constructor <;> simp [LazyOp.edits]
  case editIssues f =>
    cases hr
    simp only [ensureIssues]
    split <;> constructor <;> simp [LazyOp.edits]
  case editIssuesMeta f =>
    cases hr
    simp only [LazyUCIS.getIssuesMeta]
    split <;> constructor <;> simp [LazyOp.edits]
  case getIssuesMeta =>
    cases hr
    rw [LazyUCIS.getIssuesMeta]
    split <;> constructor <;> simp
  all_goals
    cases hr
    constructor <;> simp [LazyOp.edits, setTestplan, setWaivers, setIssues, setIssuesMeta, setIssueHistoryData]

theorem loads_iff {op : LazyOp} {unit : LazyUnit} : op.loads unit ↔ op = .load unit := by
  cases op
  case load unit' => simp [LazyOp.loads, eq_comm]
  all_goals simp [LazyOp.loads]

-- A part that no operation edits is there once its unit is loaded, as it is stored.
theorem unit_after {α : Type} {part : ArchivePart} {unit : LazyUnit} (get : LazyUCIS → Option α)
    (loaded : LazyUCIS → Bool) (stored : Option α)
    (hi : get {} = none ∧ loaded {} = false)
    (hf : ∀ op db db', op.edits ≠ some part → ¬op.loads unit → db.step a op = .ok db' →
      get db' = get db ∧ loaded db' = loaded db)
    (hl : ∀ db db', get db = (if loaded db then stored else none) → db.load a unit = .ok db' →
      get db' = stored ∧ loaded db' = true)
    (hu : ∀ op ∈ ops, op.edits ≠ some part) (hr : ops.foldlM (step a) {} = .ok db) :
    get db = (if loaded db then stored else none) ∧ loaded db = ops.any (LazyOp.loads unit) := by
  refine run_rule (P := fun done db => get db = (if loaded db then stored else none) ∧
    loaded db = done.any (LazyOp.loads unit)) ?_ ?_ hr
  · rw [hi.1, hi.2]
    exact ⟨rfl, rfl⟩
  · intro done op db db' hm ⟨hg, hd⟩ ho
    rw [List.any_append, List.any_cons, List.any_nil, Bool.or_false, ← hd]
    by_cases h : op.loads unit
    case neg =>
      have ⟨hg', hd'⟩ := hf op db db' (hu op hm) h ho
      rw [hg', hd', Bool.eq_false_iff.mpr h, Bool.or_false]
      exact ⟨hg, rfl⟩
    case pos =>
      rw [loads_iff.mp h] at ho
      have ⟨hg', hd'⟩ := hl db db' hg ho
      rw [hg', hd', h, Bool.or_true]
      exact ⟨(if_pos rfl).symm, rfl⟩

theorem testplan_after (hu : ∀ op ∈ ops, op.edits ≠ some .testplan)
    (hr : ops.foldlM (step a) {} = .ok db) :
    db.testplan = if ops.any (LazyOp.loads .testplan) then a.testplan else none := by
  have ⟨hg, hl⟩ := unit_after (·.testplan) (·.loadedTestplan) a.testplan ⟨rfl, rfl⟩
    (fun _ _ _ he hl ho => (step_frame ho).testplan he hl) (fun db db' hg ho => ?_) hu hr
  · rw [← hl]
    exact hg
  · cases ho
    rw [ensureTestplan]
    split
    case isTrue hd  => exact ⟨hg.trans (if_pos hd), hd⟩
    case isFalse hd => simp [hg, hd]

theorem waivers_after (hu : ∀ op ∈ ops, op.edits ≠ some .waivers)
    (hr : ops.foldlM (step a) {} = .ok db) :
    db.waivers = if ops.any (LazyOp.loads .waivers) then a.waivers else none := by
  have ⟨hg, hl⟩ := unit_after (·.waivers) (·.loadedWaivers) a.waivers ⟨rfl, rfl⟩
    (fun _ _ _ he hl ho => (step_frame ho).waivers he hl) (fun db db' hg ho => ?_) hu hr
  · rw [← hl]
    exact hg
  · cases ho
    rw [ensureWaivers]
    split
    case isTrue hd  => exact ⟨hg.trans (if_pos hd), hd⟩
    case isFalse hd => simp [hg, hd]

theorem v2History_after (hu : ∀ op ∈ ops, op.edits ≠ some .v2History)
    (hr : ops.foldlM (step a) {} = .ok db) :
    db.v2History = (if db.v2History.isSome then V2State.load a.v2Members else none) ∧
      db.v2History.isSome = ops.any (LazyOp.loads .v2History) := by
  refine unit_after (·.v2History) (·.v2History.isSome) (V2State.load a.v2Members) ⟨rfl, rfl⟩
    (fun _ _ _ he hl ho => ?_) (fun db db' hg ho => ?_) hu hr
  · have hv := (step_frame ho).v2History he hl
    exact ⟨hv, congrArg Option.isSome hv⟩
  · replace ho : db.ensureV2History a = .ok db' := ho
    rw [ensureV2History] at ho
    split at ho
    case h_1 s hs =>
      cases ho
      rw [hs, Option.isSome_some, if_pos rfl] at hg
      exact ⟨hs.trans hg, by rw [hs]; rfl⟩
    case h_2 =>
      have ⟨s, hs, ho⟩ := bind_ok ho
      cases ho
      exact ⟨(NcdbReader.orRaise_ok hs).symm, rfl⟩

-- What is not set is not marked for writing.
theorem unmarked_after {part : ArchivePart} {dirty : LazyUCIS → Bool} (hi : dirty {} = false)
    (hf : ∀ op db db', op.edits ≠ some part → db.step a op = .ok db' → dirty db' = dirty db)
    (hu : ∀ op ∈ ops, op.edits ≠ some part) (hr : ops.foldlM (step a) {} = .ok db) :
    dirty db = false :=
  run_rule (P := fun _ db => dirty db = false) hi
    (fun _ op db db' hm hd ho => (hf op db db' (hu op hm) ho).trans hd) hr

-- What writing a database went through.
structure Wrote (accel : Bool) (db : LazyUCIS) (out : Archive) where
  scopeTree : List ScopeRecord
  writer    : ScopeTreeWriter
  v2        : Option V2Members
  members   : out = NcdbWriter.members db.toLoadedUCIS scopeTree writer v2
  history   : match db.v2History with
    | none   => v2 = none
    | some s => ∃ m, s.getV2Members accel = some m ∧ v2 = some m

variable {accel : Bool}

theorem write_ok (hr : ops.foldlM (step a) {} = .ok db) (hw : db.write a accel = .ok out) :
    ∃ db', (ops ++ [LazyOp.load .scopes, .load .history]).foldlM (step a) {} = .ok db' ∧
      Nonempty (Wrote accel db' out) := by
  have ⟨db₁, hs, hw⟩ := bind_ok hw
  refine ⟨db₁.ensureHistory a, ?_, ?_⟩
  · rw [List.foldlM_append, hr]
    change (db.ensureScopes a >>= fun db => _) = _
    rw [hs]
    rfl
  · generalize db₁.ensureHistory a = db' at hw
    have hb : ∀ {v2}, NcdbWriter.write accel db'.toLoadedUCIS v2 = .ok out →
        ∃ tree w, out = NcdbWriter.members db'.toLoadedUCIS tree w v2 := by
      intro v2 hw
      have ⟨⟨tree, w⟩, _, hw⟩ := bind_ok hw
      have ⟨_, _, hw⟩ := bind_ok hw
      cases hw
      exact ⟨tree, w, rfl⟩
    simp only at hw
    split at hw
    case h_1 hv =>
      have ⟨tree, w, ho⟩ := hb hw
      exact ⟨⟨tree, w, none, ho, by rw [hv]⟩⟩
    case h_2 s hv =>
      have ⟨m, hm, hw⟩ := bind_ok hw
      have ⟨tree, w, ho⟩ := hb hw
      exact ⟨⟨tree, w, some m, ho, by rw [hv]; exact ⟨m, NcdbReader.orRaise_ok hm, rfl⟩⟩⟩

namespace Wrote

variable (w : Wrote accel db out)

include w

theorem testplan : out.testplan = db.testplan := by
  rw [w.members, NcdbWriter.members]
  cases w.v2 <;> rfl

theorem waivers : out.waivers = db.waivers := by
  rw [w.members, NcdbWriter.members]
  cases w.v2 <;> rfl

theorem issues (h : db.issuesDirty = false) : out.issues = none := by
  rw [w.members, NcdbWriter.members, h]
  cases w.v2 <;> rfl

theorem issuesMeta (h : db.issuesMetaDirty = false) : out.issuesMeta = none := by
  rw [w.members, NcdbWriter.members, h]
  cases w.v2 <;> rfl

theorem issuesHistory (h : db.issuesHistoryDirty = false) : out.issuesHistory = none := by
  rw [w.members, NcdbWriter.members, h]
  cases w.v2 <;> rfl

theorem runTable : out.runTable = Archive.singleRunTable := by
  rw [w.members, NcdbWriter.members]
  cases w.v2 <;> rfl

theorem v2Members : out.v2Members = w.v2.getD {} := by
  have hm := w.members
  rw [NcdbWriter.members] at hm
  cases hv : w.v2 <;> rw [hm, hv] <;> rfl

end Wrote

open Archive (SamePart SurvivesWrite)

-- A part that no operation edits reads back as it did exactly when it survives.
theorem samePart_iff {part : ArchivePart} (hu : ∀ op ∈ ops, op.edits ≠ some part)
    (hr : ops.foldlM (step a) {} = .ok db) (hw : db.write a accel = .ok out) :
    a.SamePart out part ↔ a.SurvivesWrite ops part := by
  have ⟨db', hr, ⟨w⟩⟩ := write_ok hr hw
  have hu : ∀ op ∈ ops ++ [LazyOp.load .scopes, .load .history], op.edits ≠ some part := by
    intro op hm
    cases List.mem_append.mp hm
    case inl hm => exact hu op hm
    case inr hm => cases List.mem_pair.mp hm <;> subst op <;> simp [LazyOp.edits]
  have hl : ∀ unit, unit ≠ .scopes → unit ≠ .history →
      (ops ++ [LazyOp.load .scopes, .load .history]).any (LazyOp.loads unit)
        = ops.any (LazyOp.loads unit) := by
    intro unit hs hh
    simp [LazyOp.loads, hs, hh]
  cases part <;> rw [SamePart, SurvivesWrite]
  case testplan =>
    rw [w.testplan, testplan_after hu hr, hl _ (by simp) (by simp)]
    cases ops.any (LazyOp.loads .testplan) <;> simp [eq_comm (a := none)]
  case waivers =>
    rw [w.waivers, waivers_after hu hr, hl _ (by simp) (by simp)]
    cases ops.any (LazyOp.loads .waivers) <;> simp [eq_comm (a := none)]
  case issues =>
    rw [w.issues (unmarked_after rfl (fun _ _ _ he ho => (step_frame ho).issuesDirty he) hu hr),
      eq_comm]
  case issuesMeta =>
    rw [w.issuesMeta
      (unmarked_after rfl (fun _ _ _ he ho => (step_frame ho).issuesMetaDirty he) hu hr), eq_comm]
  case issuesHistory =>
    rw [w.issuesHistory
      (unmarked_after rfl (fun _ _ _ he ho => (step_frame ho).issuesHistoryDirty he) hu hr), eq_comm]
  case runs =>
    rw [w.runTable, eq_comm]
    refine ⟨fun h => h.1, fun h => ⟨h, fun entry he hn => absurd ?_ hn⟩⟩
    rw [h] at he
    rw [List.mem_singleton.mp he]
  case v2History =>
    have ⟨hg, hv⟩ := v2History_after hu hr
    have hh := w.history
    rw [hl _ (by simp) (by simp)] at hv
    rw [Archive.v2State, w.v2Members]
    split at hh
    case h_1 hn =>
      rw [hn, Option.isSome_none] at hv
      rw [hh, ← hv, Option.getD_none]
      simp [eq_comm, V2State.load, V2State.readRegistry, TestStatsTable.stored]
    case h_2 s hs =>
      have ⟨m, hm, hv2⟩ := hh
      rw [hs, Option.isSome_some] at hv
      rw [hs, Option.isSome_some, if_pos rfl] at hg
      rw [hv2, Option.getD_some, V2State.load_getV2Members_load hg.symm hm, Archive.v2State, ← hg]
      simp [← hv, TestStatsTable.stored_stored]

-- The written archive has every part that no operation edits as it was exactly when all of these
-- parts survive.
theorem write_keeps_iff (hr : ops.foldlM (step a) {} = .ok db) (hw : db.write a accel = .ok out) :
    (∀ part, (∀ op ∈ ops, op.edits ≠ some part) → a.SamePart out part) ↔
    ∀ part, (∀ op ∈ ops, op.edits ≠ some part) → a.SurvivesWrite ops part :=
  forall₂_congr fun _ hu => samePart_iff hu hr hw

-- An archive with a test plan and a waiver.
def annotatedPlan : Archive where
  counts    := some []
  manifest  := { pathSeparator := "/" }
  strings   := []
  scopeTree := []
  testplan  := some { sourceFile := "plan.hjson", importTimestamp := "2024", content := "" }
  waivers   := some [{ id := "w1", scopePattern := "top.*" }]

-- Both are written back once both are loaded.
theorem write_keeps_loaded : ∃ db out,
    [LazyOp.load .testplan, .load .waivers].foldlM (step annotatedPlan) {} = .ok db ∧
    db.write annotatedPlan false = .ok out ∧
    ∀ part, annotatedPlan.SamePart out part := by
  have ⟨db, hr⟩ : ∃ db, [LazyOp.load .testplan, .load .waivers].foldlM (step annotatedPlan) {}
      = .ok db := ⟨_, rfl⟩
  have ⟨out, hw⟩ : ∃ out, db.write annotatedPlan false = .ok out := by cases hr; exact ⟨_, rfl⟩
  refine ⟨db, out, hr, hw, fun part => ?_⟩
  refine (write_keeps_iff hr hw).mpr (fun part _ => ?_) part (by simp [LazyOp.edits])
  cases part
  case testplan  => exact .inr rfl
  case waivers   => exact .inr rfl
  case v2History => exact .inl rfl
  all_goals rfl

-- An edit of the coverage alone loses both.
theorem write_drops_unloaded : ∃ db out,
    [LazyOp.edit id].foldlM (step annotatedPlan) {} = .ok db ∧
    db.write annotatedPlan false = .ok out ∧ out.testplan = none ∧ out.waivers = none ∧
    annotatedPlan.testplan.isSome ∧ annotatedPlan.waivers.isSome :=
  ⟨_, _, rfl, rfl, rfl, rfl, rfl, rfl⟩

end LazyUCIS
