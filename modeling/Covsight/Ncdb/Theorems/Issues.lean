import Covsight.Lib.Rearrangement
import Covsight.Lib.Call
import Covsight.Ncdb.Issues

-- What queries give is what the tables say, as long as no change leaves a table for queries behind.

namespace Issues

inductive IssueQuery
  | issues
  | get (issueId : String)
  | openIssues
  | issuesBySeverity (severity : Int)
  | issuesForWaiver (waiverId : String)
  | issuesForTestpoint (tpName : String)
  | waiversForIssue (idx : Nat)
  | testpointsForIssue (idx : Nat)
  | coverageLinks

inductive IssueAnswer
  | handles (idxs : List Nat)
  | handle (idx : Option Nat)
  | waivers (links : List WaiverIssueLinkInfo)
  | testpoints (links : List TestpointIssueLinkInfo)
  | coverage (links : List CoverageIssueLinkInfo)
  deriving DecidableEq

namespace IssueQuery

def ask : IssueQuery → Call IssueSet IssueAnswer
  | issues                      => do return .handles (← IssueSet.issues)
  | get issueId                 => do return .handle (← IssueSet.getIssue issueId)
  | openIssues                  => do return .handles (← IssueSet.openIssues)
  | issuesBySeverity severity   => do return .handles (← IssueSet.issuesBySeverity severity)
  | issuesForWaiver waiverId    => do return .handles (← IssueSet.issuesForWaiver waiverId)
  | issuesForTestpoint tpName   => do return .handles (← IssueSet.issuesForTestpoint tpName)
  | waiversForIssue idx         => do return .waivers (← IssueSet.waiversForIssue idx)
  | testpointsForIssue idx      => do return .testpoints (← IssueSet.testpointsForIssue idx)
  | coverageLinks               => do return .coverage (← IssueSet.coverageLinks)

-- The answer by the issues and the links alone.
def recompute (t : IssueTables) : IssueQuery → Option IssueAnswer
  | issues                    => some (.handles (List.range t.idIdxs.length))
  | get issueId               => (t.byId.map (·.get? issueId)).map .handle
  | openIssues                => some (.handles t.openIdxs)
  | issuesBySeverity severity => some (.handles ((t.bySeverity.get? severity).getD []))
  | issuesForWaiver waiverId  => (t.waiverIndices.map fun i => (i.fst.get? waiverId).getD []).map .handles
  | issuesForTestpoint tpName => (t.tpIndices.map fun i => (i.fst.get? tpName).getD []).map .handles
  | waiversForIssue idx       =>
    (t.waiverIndices.bind fun i =>
      (t.idIdxs[idx]?.bind t.string).map fun id => (i.snd.get? id).getD []).map .waivers
  | testpointsForIssue idx    =>
    (t.tpIndices.bind fun i =>
      (t.idIdxs[idx]?.bind t.string).map fun id => (i.snd.get? id).getD []).map .testpoints
  | coverageLinks             => t.coverageLinks.map .coverage

end IssueQuery

namespace IssueSet

-- What has been built is what would be built now.
structure Coherent (s : IssueSet) : Prop where
  byId          : ∀ i ∈ s.indices.byId, s.byId = some i
  bySeverity    : ∀ i ∈ s.indices.bySeverity, s.bySeverity = i
  openIdxs      : ∀ i ∈ s.indices.openIdxs, s.openIdxs = i
  waiverIndices : ∀ i ∈ s.indices.waiverIndices, s.waiverIndices = some i
  tpIndices     : ∀ i ∈ s.indices.tpIndices, s.tpIndices = some i
  coverageLinks : ∀ i ∈ s.indices.coverageLinks, s.toIssueTables.coverageLinks = some i

theorem coherent_of_unbuilt (t : IssueTables) : Coherent { toIssueTables := t } :=
  ⟨nofun, nofun, nofun, nofun, nofun, nofun⟩

theorem or_eq_of_coherent {α : Type} {built value : Option α} (h : ∀ a ∈ built, value = some a) :
    built.or value = value := by
  cases built
  case none   => rfl
  case some a => exact (h a rfl).symm

-- A call that gives a value and leaves the tables as they are.
def Looks {α : Type} (t : IssueTables) (c : Call IssueSet α) (value : Option α) : Prop :=
  c.Ensures (fun s => s.Coherent ∧ s.toIssueTables = t)
    fun a s => (s.Coherent ∧ s.toIssueTables = t) ∧ a = value

namespace Looks

variable {α β : Type} {t : IssueTables} {c : Call IssueSet α} {f : α → Call IssueSet β}
  {value : Option α} {g : α → Option β}

theorem read {g : IssueSet → Option α} (h : ∀ s, s.Coherent → s.toIssueTables = t → g s = value) :
    Looks t (.read g) value :=
  Call.Looks.read fun s hs => h s hs.left hs.right

theorem bind (hc : Looks t c value) (hf : ∀ a, value = some a → Looks t (f a) (g a)) :
    Looks t (c >>= f) (value.bind g) :=
  Call.Looks.bind hc hf

theorem map (hc : Looks t c value) (h : α → β) :
    Looks t (do return h (← c)) (value.map h) :=
  Call.Looks.map hc h

-- A table that was built is kept.
theorem keep {set : α → IssueSet → IssueSet} (hc : Looks t c value)
    (hs : ∀ a s, value = some a → s.Coherent → s.toIssueTables = t →
      (set a s).Coherent ∧ (set a s).toIssueTables = t) :
    Looks t (do let a ← c; .modify (set a); return a) value := by
  have hk := hc.bind (f := fun a => do .modify (set a); return a) (g := some)
    fun a ha s h => ⟨hs a s ha h.left h.right, rfl⟩
  rwa [Option.bind_fun_some] at hk

end Looks

section Ensure

variable {t : IssueTables}

theorem looks_ensureById : Looks t ensureById t.byId := by
  refine (Looks.read fun s hc ht => ?_).keep fun byId s hv hc ht => ⟨{ hc with byId := ?_ }, ht⟩
  case refine_1 => exact (or_eq_of_coherent hc.byId).trans (ht ▸ rfl)
  case refine_2 => exact fun i hi => Option.some.inj hi ▸ ht ▸ hv

theorem looks_ensureSeverityIndex : Looks t ensureSeverityIndex (some t.bySeverity) := by
  refine (Looks.read fun s hc ht => ?_).keep fun i s hv hc ht => ⟨{ hc with bySeverity := ?_ }, ht⟩
  case refine_1 =>
    have ho : ∀ i ∈ s.indices.bySeverity, some s.bySeverity = some i :=
      fun i hi => congrArg some (hc.bySeverity i hi)
    exact (or_eq_of_coherent ho).trans (ht ▸ rfl)
  case refine_2 => exact fun j hj => Option.some.inj hj ▸ ht ▸ Option.some.inj hv

theorem looks_ensureOpenIndex : Looks t ensureOpenIndex (some t.openIdxs) := by
  refine (Looks.read fun s hc ht => ?_).keep fun i s hv hc ht => ⟨{ hc with openIdxs := ?_ }, ht⟩
  case refine_1 =>
    have ho : ∀ i ∈ s.indices.openIdxs, some s.openIdxs = some i :=
      fun i hi => congrArg some (hc.openIdxs i hi)
    exact (or_eq_of_coherent ho).trans (ht ▸ rfl)
  case refine_2 => exact fun j hj => Option.some.inj hj ▸ ht ▸ Option.some.inj hv

theorem looks_ensureCoverageLinks : Looks t ensureCoverageLinks t.coverageLinks := by
  refine (Looks.read fun s hc ht => ?_).keep fun i s hv hc ht => ⟨{ hc with coverageLinks := ?_ }, ht⟩
  case refine_1 => exact (or_eq_of_coherent hc.coverageLinks).trans (ht ▸ rfl)
  case refine_2 => exact fun j hj => Option.some.inj hj ▸ ht ▸ hv

theorem looks_buildWaiverIndices : Looks t buildWaiverIndices t.waiverIndices := by
  refine looks_ensureById.bind fun byId hb => ?_
  refine (Looks.read fun s _ ht => ht ▸ rfl).keep
    fun i s hv hc ht => ⟨{ hc with waiverIndices := fun j hj => ?_ }, ht⟩
  rw [← Option.some.inj hj, ← hv, IssueTables.waiverIndices, ht, hb]
  rfl

theorem looks_ensureWaiverIndices : Looks t ensureWaiverIndices t.waiverIndices := by
  intro s hs
  rw [ensureWaiverIndices, Call.bind_get]
  cases hw : s.indices.waiverIndices
  case some indices => exact ⟨hs, hs.right ▸ (hs.left.waiverIndices indices hw).symm⟩
  case none         => exact looks_buildWaiverIndices s hs

theorem looks_buildTpIndices : Looks t buildTpIndices t.tpIndices := by
  refine looks_ensureById.bind fun byId hb => ?_
  refine (Looks.read fun s _ ht => ht ▸ rfl).keep
    fun i s hv hc ht => ⟨{ hc with tpIndices := fun j hj => ?_ }, ht⟩
  rw [← Option.some.inj hj, ← hv, IssueTables.tpIndices, ht, hb]
  rfl

theorem looks_ensureTpIndices : Looks t ensureTpIndices t.tpIndices := by
  intro s hs
  rw [ensureTpIndices, Call.bind_get]
  cases hw : s.indices.tpIndices
  case some indices => exact ⟨hs, hs.right ▸ (hs.left.tpIndices indices hw).symm⟩
  case none         => exact looks_buildTpIndices s hs

theorem looks_handleId (idx : Nat) : Looks t (handleId idx) (t.idIdxs[idx]?.bind t.string) :=
  Looks.read fun _ _ ht => ht ▸ rfl

-- A query gives what the tables say and leaves them as they are.
theorem looks_ask (t : IssueTables) (q : IssueQuery) : Looks t q.ask (q.recompute t) := by
  cases q
  case issues                    => exact fun s hs => ⟨hs, hs.right ▸ rfl⟩
  case get issueId               => exact (looks_ensureById.map (·.get? issueId)).map IssueAnswer.handle
  case openIssues                => exact looks_ensureOpenIndex.map IssueAnswer.handles
  case issuesBySeverity severity =>
    exact (looks_ensureSeverityIndex.map fun i => (i.get? severity).getD []).map IssueAnswer.handles
  case issuesForWaiver waiverId  =>
    exact (looks_ensureWaiverIndices.map fun i => (i.fst.get? waiverId).getD []).map IssueAnswer.handles
  case issuesForTestpoint tpName =>
    exact (looks_ensureTpIndices.map fun i => (i.fst.get? tpName).getD []).map IssueAnswer.handles
  case waiversForIssue idx       =>
    exact (looks_ensureWaiverIndices.bind fun i _ =>
      (looks_handleId idx).map fun id => (i.snd.get? id).getD []).map IssueAnswer.waivers
  case testpointsForIssue idx    =>
    exact (looks_ensureTpIndices.bind fun i _ =>
      (looks_handleId idx).map fun id => (i.snd.get? id).getD []).map IssueAnswer.testpoints
  case coverageLinks             => exact looks_ensureCoverageLinks.map IssueAnswer.coverage

end Ensure

end IssueSet

-- Strings keep their numbers while the table of strings grows.

namespace IssueTables

variable {t : IssueTables} {strings : List String} (h : t.strings <+: strings)

include h

theorem string_grown {i : Nat} {string : String} (hs : t.string i = some string) :
    { t with strings := strings }.string i = some string := by
  have ⟨hl, he⟩ := List.getElem?_eq_some_iff.mp hs
  exact (List.prefix_iff_getElem?.mp h i hl).trans (congrArg some he)

theorem ids_grown {ids : List String} (hi : t.ids = some ids) :
    { t with strings := strings }.ids = some ids :=
  mapM_mono (fun _ _ => string_grown h) hi

theorem byId_grown {byId : Dict String Nat} (hb : t.byId = some byId) :
    { t with strings := strings }.byId = some byId := by
  have ⟨ids, hi, he⟩ := Option.map_eq_some_iff.mp hb
  rw [IssueTables.byId, ids_grown h hi, Option.map_some, he]

theorem waiverLinks_grown {links} (hl : t.waiverLinks = some links) :
    { t with strings := strings }.waiverLinks = some links := by
  refine mapM_mono (fun l link hl => ?_) hl
  simp only [Option.bind_eq_bind, Option.bind_eq_some_iff] at hl ⊢
  obtain ⟨waiver, hw, issue, hi, he⟩ := hl
  exact ⟨waiver, string_grown h hw, issue, string_grown h hi, he⟩

theorem testpointLinks_grown {links} (hl : t.testpointLinks = some links) :
    { t with strings := strings }.testpointLinks = some links := by
  refine mapM_mono (fun l link hl => ?_) hl
  simp only [Option.bind_eq_bind, Option.bind_eq_some_iff] at hl ⊢
  obtain ⟨tp, ht, issue, hi, he⟩ := hl
  exact ⟨tp, string_grown h ht, issue, string_grown h hi, he⟩

theorem coverageLinks_grown {links} (hl : t.coverageLinks = some links) :
    { t with strings := strings }.coverageLinks = some links := by
  refine mapM_mono (fun l link hl => ?_) hl
  simp only [Option.bind_eq_bind, Option.bind_eq_some_iff] at hl ⊢
  obtain ⟨scope, hs, bin, hb, issue, hi, he⟩ := hl
  exact ⟨scope, string_grown h hs, bin, string_grown h hb, issue, string_grown h hi, he⟩

theorem waiverIndices_grown {indices} (hi : t.waiverIndices = some indices) :
    { t with strings := strings }.waiverIndices = some indices := by
  have ⟨byId, hb, hi⟩ := Option.bind_eq_some_iff.mp hi
  have ⟨links, hl, he⟩ := Option.map_eq_some_iff.mp hi
  rw [waiverIndices, byId_grown h hb, Option.bind_some, waiverLinks_grown h hl, Option.map_some, he]

theorem tpIndices_grown {indices} (hi : t.tpIndices = some indices) :
    { t with strings := strings }.tpIndices = some indices := by
  have ⟨byId, hb, hi⟩ := Option.bind_eq_some_iff.mp hi
  have ⟨links, hl, he⟩ := Option.map_eq_some_iff.mp hi
  rw [tpIndices, byId_grown h hb, Option.bind_some, testpointLinks_grown h hl, Option.map_some, he]

end IssueTables

namespace IssueSet

variable {s s' : IssueSet} {spec : IssueSpec}

theorem Coherent.grown (hc : s.Coherent) {strings : List String} (h : s.strings <+: strings) :
    Coherent { s with strings := strings } where
  byId i hi          := IssueTables.byId_grown h (hc.byId i hi)
  bySeverity         := hc.bySeverity
  openIdxs           := hc.openIdxs
  waiverIndices i hi := IssueTables.waiverIndices_grown h (hc.waiverIndices i hi)
  tpIndices i hi     := IssueTables.tpIndices_grown h (hc.tpIndices i hi)
  coverageLinks i hi := IssueTables.coverageLinks_grown h (hc.coverageLinks i hi)

-- The set once a string has been added.
def withString (s : IssueSet) (string : String) : IssueSet :=
  { s with strings := (intern s.strings string).snd }

theorem Coherent.withString (hc : s.Coherent) (string : String) : (s.withString string).Coherent :=
  hc.grown (intern.extends_table s.strings string)

theorem bind_addString {α : Type} (string : String) (f : Nat → Call IssueSet α) :
    (addString string >>= f) s = f (intern s.strings string).fst (s.withString string) :=
  rfl

theorem Coherent.addWaiverLink (hc : s.Coherent) (waiverId issueId : String) :
    (IssueSet.addWaiverLink waiverId issueId s).snd.Coherent := by
  have hw := (hc.withString waiverId).withString issueId
  exact ⟨hw.byId, hw.bySeverity, hw.openIdxs, nofun, hw.tpIndices, hw.coverageLinks⟩

theorem Coherent.addTestpointLink (hc : s.Coherent) (tpName issueId : String) (linkType : Int) :
    (IssueSet.addTestpointLink tpName issueId linkType s).snd.Coherent := by
  have ht := (hc.withString tpName).withString issueId
  exact ⟨ht.byId, ht.bySeverity, ht.openIdxs, ht.waiverIndices, nofun, ht.coverageLinks⟩

theorem Coherent.addCoverageLink (hc : s.Coherent) (scopePath binName issueId : String) (linkType : Int) :
    (IssueSet.addCoverageLink scopePath binName issueId linkType s).snd.Coherent := by
  have hi := ((hc.withString scopePath).withString binName).withString issueId
  exact ⟨hi.byId, hi.bySeverity, hi.openIdxs, hi.waiverIndices, hi.tpIndices, nofun⟩

end IssueSet

-- Times that can be stored.
structure IssueSpec.Stamped (spec : IssueSpec) : Prop where
  created : 0 ≤ spec.createdAt ∧ spec.createdAt < 2 ^ 32
  updated : 0 ≤ spec.updatedAt ∧ spec.updatedAt < 2 ^ 32
  synced  : 0 ≤ spec.syncedAt ∧ spec.syncedAt < 2 ^ 32

namespace IssueSet

variable {s s' : IssueSet} {spec : IssueSpec}

theorem bind_checkU16 {α : Type} (n : Nat) (f : Unit → Call IssueSet α) (s : IssueSet) :
    (checkU16 n >>= f) s = if n < 2 ^ 16 then f () s else (none, s) := by
  rw [checkU16, Call.bind_check]
  simp only [decide_eq_true_eq]

theorem bind_checkU32 {α : Type} (n : Int) (f : Unit → Call IssueSet α) (s : IssueSet) :
    (checkU32 n >>= f) s = if 0 ≤ n ∧ n < 2 ^ 32 then f () s else (none, s) := by
  rw [checkU32, Call.bind_check]
  simp only [decide_eq_true_eq]

-- The number of the id of a new issue, and the one of what it is called elsewhere.
def idNumber (s : IssueSet) (spec : IssueSpec) : Nat :=
  (intern s.strings spec.id).fst

def extNumber (s : IssueSet) (spec : IssueSpec) : Nat :=
  (intern s.strings spec.ext).fst

-- The set with an issue more.
def withIssue (s : IssueSet) (spec : IssueSpec) (byId : Dict String Nat) : IssueSet where
  idIdxs  := s.idIdxs ++ [s.idNumber spec]
  extIdxs := s.extIdxs ++ [(s.withString spec.id).extNumber spec]
  enums   := s.enums ++ [spec.packed]
  created := s.created ++ [spec.createdAt]
  updated := s.updated ++ [spec.updatedAt]
  synced  := s.synced ++ [spec.syncedAt]
  strings := ((s.withString spec.id).withString spec.ext).strings
  wl      := s.wl
  tl      := s.tl
  cl      := s.cl
  indices := { s.indices with
    byId       := some (byId.set spec.id s.idIdxs.length)
    bySeverity := none
    openIdxs   := none }

section Add

variable {byId : Dict String Nat} (hb : ensureById s = (some byId, s'))

include hb

theorem addIssue_present (hm : spec.id ∈ byId.keys) : addIssue spec s = (none, s') := by
  rw [addIssue, Call.bind_of_some hb]
  simp only [Call.bind_check, hm, not_true_eq_false, decide_false, if_neg Bool.false_ne_true]

theorem addIssue_unnumbered (hm : spec.id ∉ byId.keys) (hn : ¬s'.idNumber spec < 2 ^ 16) :
    addIssue spec s = (none, s'.withString spec.id) := by
  rw [addIssue, Call.bind_of_some hb]
  simp only [Call.bind_check, Call.bind_get, bind_addString, bind_checkU16, hm, not_false_eq_true, decide_true,
    if_true]
  exact if_neg hn

theorem addIssue_stored (hm : spec.id ∉ byId.keys) (hn : s'.idNumber spec < 2 ^ 16)
    (he : (s'.withString spec.id).extNumber spec < 2 ^ 16) (hs : spec.Stamped) :
    addIssue spec s = (some s'.idIdxs.length, s'.withIssue spec byId) := by
  have hn : (intern s'.strings spec.id).fst < 2 ^ 16 := hn
  have he : (intern (s'.withString spec.id).strings spec.ext).fst < 2 ^ 16 := he
  rw [addIssue, Call.bind_of_some hb]
  simp only [Call.bind_check, Call.bind_get, bind_addString, bind_checkU16, bind_checkU32, Call.bind_modify,
    hm, hn, he, hs.created, hs.updated, hs.synced, not_false_eq_true, decide_true, and_self, if_true]
  rfl

end Add

section Update

variable {idx : Nat}

def setIssue (s : IssueSet) (idx : Nat) (spec : IssueSpec) : IssueSet where
  idIdxs  := s.idIdxs
  extIdxs := s.extIdxs.set idx (s.extNumber spec)
  enums   := s.enums.set idx spec.packed
  created := s.created.set idx spec.createdAt
  updated := s.updated.set idx spec.updatedAt
  synced  := s.synced.set idx spec.syncedAt
  strings := (s.withString spec.ext).strings
  wl      := s.wl
  tl      := s.tl
  cl      := s.cl

theorem updateIssue_unnumbered (hn : ¬s.extNumber spec < 2 ^ 16) :
    updateIssue idx spec s = (none, s.withString spec.ext) := by
  rw [updateIssue, bind_addString, bind_checkU16]
  exact if_neg hn

-- An issue has an entry in each column.
structure HasIssue (s : IssueSet) (idx : Nat) : Prop where
  ext     : idx < s.extIdxs.length
  enums   : idx < s.enums.length
  created : idx < s.created.length
  updated : idx < s.updated.length
  synced  : idx < s.synced.length

theorem updateIssue_stored (hn : s.extNumber spec < 2 ^ 16) (hi : s.HasIssue idx) (hs : spec.Stamped) :
    updateIssue idx spec s = (some (), s.setIssue idx spec) := by
  have hn : (intern s.strings spec.ext).fst < 2 ^ 16 := hn
  rw [updateIssue, bind_addString, bind_checkU16, if_pos hn]
  simp only [Call.bind_check, bind_checkU32, Call.bind_modify, withString, hi.ext, hi.enums, hi.created,
    hi.updated, hi.synced, hs.created, hs.updated, hs.synced, decide_true, and_self, if_true]
  rfl

end Update

-- Tables for queries after a change.

-- No link of an issue that is new was left out.
theorem linkIndices_set {ι : Type} {byId : Dict String Nat} {links : List (String × String × ι)}
    {id : String} (h : ∀ link ∈ links, link.snd.fst ≠ id) (idx : Nat) :
    IssueTables.linkIndices (byId.set id idx) links = IssueTables.linkIndices byId links := by
  rw [IssueTables.linkIndices, IssueTables.linkIndices]
  congr 2
  refine List.filterMap_congr fun link hm => ?_
  simp only [Dict.get?_set_of_ne (h link hm).symm]

theorem ids_withIssue {ids : List String} (hi : s.ids = some ids) (spec : IssueSpec)
    (byId : Dict String Nat) : (s.withIssue spec byId).ids = some (ids ++ [spec.id]) := by
  have hp : (s.withString spec.id).strings <+: (s.withIssue spec byId).strings :=
    intern.extends_table ..
  have hs : s.strings <+: (s.withIssue spec byId).strings :=
    (intern.extends_table s.strings spec.id).trans hp
  refine mapM_eq_some_iff.mpr (List.rel_append (mapM_eq_some_iff.mp (IssueTables.ids_grown hs hi)) ?_)
  exact .cons (intern.get?_of_prefix hp) .nil

theorem byId_withIssue {byId : Dict String Nat} (hb : s.byId = some byId) (spec : IssueSpec) :
    (s.withIssue spec byId).byId = some (byId.set spec.id s.idIdxs.length) := by
  have ⟨ids, hi, he⟩ := Option.map_eq_some_iff.mp hb
  have hl : ids.length = s.idIdxs.length := (mapM_eq_some_iff.mp hi).length_eq.symm
  rw [IssueTables.byId, ids_withIssue hi, Option.map_some, List.zipIdx_append, Dict.ofList,
    Dict.setAll_append, Nat.zero_add, hl]
  exact congrArg (some <| ·.set spec.id s.idIdxs.length) he

-- A new issue is named by no link that a table was built of.
structure Unlinked (s : IssueSet) (id : String) : Prop where
  waivers    : s.indices.waiverIndices.isSome → ∀ links ∈ s.waiverLinks, ∀ link ∈ links, link.snd.fst ≠ id
  testpoints : s.indices.tpIndices.isSome → ∀ links ∈ s.testpointLinks, ∀ link ∈ links, link.snd.fst ≠ id

theorem Coherent.withIssue (hc : s.Coherent) {byId : Dict String Nat} (hb : s.byId = some byId)
    (hu : s.Unlinked spec.id) : (s.withIssue spec byId).Coherent := by
  have hg : s.strings <+: (s.withIssue spec byId).strings :=
    (intern.extends_table s.strings spec.id).trans (intern.extends_table ..)
  have hb' := byId_withIssue hb spec
  refine ⟨fun i hi => Option.some.inj hi ▸ hb', nofun, nofun, fun i hi => ?_, fun i hi => ?_,
    fun i hi => IssueTables.coverageLinks_grown hg (hc.coverageLinks i hi)⟩
  case refine_1 =>
    have hw := hc.waiverIndices i hi
    rw [IssueTables.waiverIndices, hb, Option.bind_some] at hw
    have ⟨links, hl, he⟩ := Option.map_eq_some_iff.mp hw
    have hl' : (s.withIssue spec byId).waiverLinks = some links := IssueTables.waiverLinks_grown hg hl
    have hn := hu.waivers (Option.isSome_of_mem hi) links hl
    rw [IssueTables.waiverIndices, hb', Option.bind_some, hl', Option.map_some, linkIndices_set hn, he]
  case refine_2 =>
    have ht := hc.tpIndices i hi
    rw [IssueTables.tpIndices, hb, Option.bind_some] at ht
    have ⟨links, hl, he⟩ := Option.map_eq_some_iff.mp ht
    have hl' : (s.withIssue spec byId).testpointLinks = some links := IssueTables.testpointLinks_grown hg hl
    have hn := hu.testpoints (Option.isSome_of_mem hi) links hl
    rw [IssueTables.tpIndices, hb', Option.bind_some, hl', Option.map_some, linkIndices_set hn, he]

-- The severity and the state of an issue stay, as far as a table has been built of them.
structure KeepsEnums (s : IssueSet) (idx : Nat) (enums : Nat) : Prop where
  severity : s.indices.bySeverity.isSome → (s.enums.set idx enums).map severityOf = s.enums.map severityOf
  isOpen   : s.indices.openIdxs.isSome →
    (s.enums.set idx enums).map IssueTables.isOpen = s.enums.map IssueTables.isOpen

theorem Coherent.setEnums (hc : s.Coherent) {idx enums : Nat} (hk : s.KeepsEnums idx enums) :
    Coherent { s with enums := s.enums.set idx enums } := by
  refine ⟨hc.byId, fun i hi => ?_, fun i hi => ?_, hc.waiverIndices, hc.tpIndices, hc.coverageLinks⟩
  case refine_1 =>
    have hs := hk.severity (Option.isSome_of_mem hi)
    have hm : (s.enums.set idx enums).map (fun enums => (severityOf enums : Int)) =
        s.enums.map fun enums => (severityOf enums : Int) := by
      simpa only [List.map_map, Function.comp_def] using congrArg (List.map fun n : Nat => (n : Int)) hs
    rw [← hc.bySeverity i hi, IssueTables.bySeverity, IssueTables.bySeverity, hm]
  case refine_2 =>
    rw [← hc.openIdxs i hi, IssueTables.openIdxs, IssueTables.openIdxs, hk.isOpen (Option.isSome_of_mem hi)]

-- A call after which the tables that are there are still what would be built.
def Keeps {α : Type} (c : Call IssueSet α) : Prop :=
  c.Ensures Coherent fun _ s => s.Coherent

namespace Keeps

variable {α β : Type} {c : Call IssueSet α} {f : α → Call IssueSet β}

theorem check (p : IssueSet → Bool) : Keeps (.check p) :=
  fun _ hc => hc

theorem modify {g : IssueSet → IssueSet} (h : ∀ s, Coherent s → Coherent (g s)) : Keeps (.modify g) :=
  h

theorem bind (hc : Keeps c) (hf : ∀ a, Keeps (f a)) : Keeps (c >>= f) :=
  Call.Ensures.bind hc hf fun _ => id

end Keeps

theorem Coherent.updateIssue (hc : s.Coherent) {idx : Nat}
    (hk : s.extNumber spec < 2 ^ 16 → idx < s.extIdxs.length → idx < s.enums.length →
      ¬(s.HasIssue idx ∧ spec.Stamped) → s.KeepsEnums idx spec.packed) :
    (IssueSet.updateIssue idx spec s).snd.Coherent := by
  by_cases hn : s.extNumber spec < 2 ^ 16
  case neg => exact updateIssue_unnumbered hn ▸ hc.withString spec.ext
  by_cases hs : s.HasIssue idx ∧ spec.Stamped
  case pos => exact updateIssue_stored hn hs.left hs.right ▸ coherent_of_unbuilt _
  have hc' := hc.withString spec.ext
  have hn' : (intern s.strings spec.ext).fst < 2 ^ 16 := hn
  rw [IssueSet.updateIssue, bind_addString, bind_checkU16, if_pos hn', Call.bind_check]
  by_cases he : idx < (s.withString spec.ext).extIdxs.length
  case neg =>
    rw [if_neg (ne_true_of_eq_false (decide_eq_false he))]
    exact hc'
  rw [if_pos (decide_eq_true he), Call.bind_modify, Call.bind_check]
  by_cases hm : idx < (s.withString spec.ext).enums.length
  case neg =>
    rw [if_neg (ne_true_of_eq_false (decide_eq_false hm))]
    exact ⟨hc'.byId, hc'.bySeverity, hc'.openIdxs, hc'.waiverIndices, hc'.tpIndices, hc'.coverageLinks⟩
  rw [if_pos (decide_eq_true hm), Call.bind_modify]
  -- What is read no more once the enums are set.
  have ⟨hsev, hopen⟩ := hk hn he hm hs
  have hset := (hc'.setEnums ⟨hsev, hopen⟩ : Coherent { s.withString spec.ext with enums := s.enums.set idx spec.packed })
  refine (Keeps.check _).bind (fun _ => (Keeps.check _).bind fun _ => (Keeps.modify ?_).bind fun _ =>
    (Keeps.check _).bind fun _ => (Keeps.check _).bind fun _ => (Keeps.modify ?_).bind fun _ =>
    (Keeps.check _).bind fun _ => (Keeps.check _).bind fun _ => Keeps.modify ?_) _
    ⟨hset.byId, hset.bySeverity, hset.openIdxs, hset.waiverIndices, hset.tpIndices, hset.coverageLinks⟩
  case refine_1 =>
    exact fun s hc => ⟨hc.byId, hc.bySeverity, hc.openIdxs, hc.waiverIndices, hc.tpIndices, hc.coverageLinks⟩
  case refine_2 =>
    exact fun s hc => ⟨hc.byId, hc.bySeverity, hc.openIdxs, hc.waiverIndices, hc.tpIndices, hc.coverageLinks⟩
  case refine_3 => exact fun s _ => coherent_of_unbuilt _

theorem ensureById_built {byId : Dict String Nat} (hc : ∀ i ∈ s.indices.byId, s.byId = some i)
    (hb : s.byId = some byId) : ensureById s = (some byId, { s with indices.byId := some byId }) := by
  have hr : s.indices.byId.or s.byId = some byId := (or_eq_of_coherent hc).trans hb
  rw [ensureById, Call.bind_read, hr]
  rfl

theorem Coherent.addIssue (hc : s.Coherent)
    (hk : ∀ byId ∈ s.byId, spec.id ∉ byId.keys → s.idNumber spec < 2 ^ 16 →
      (s.withString spec.id).extNumber spec < 2 ^ 16 ∧ spec.Stamped ∧ s.Unlinked spec.id) :
    (IssueSet.addIssue spec s).snd.Coherent := by
  have ⟨⟨hc', ht⟩, hv⟩ := looks_ensureById s ⟨hc, rfl⟩
  cases hb : s.byId
  case none =>
    rw [IssueSet.addIssue, Call.bind_of_none (Prod.ext (hv.trans hb) rfl)]
    exact hc'
  case some byId =>
    have he := ensureById_built hc.byId hb
    rw [he] at hc'
    by_cases hm : spec.id ∈ byId.keys
    case pos => exact addIssue_present he hm ▸ hc'
    by_cases hn : s.idNumber spec < 2 ^ 16
    case neg => exact addIssue_unnumbered he hm hn ▸ hc'.withString spec.id
    have ⟨hx, hs, hu⟩ := hk byId hb hm hn
    rw [addIssue_stored he hm hn hx hs]
    exact hc'.withIssue hb ⟨hu.waivers, hu.testpoints⟩

end IssueSet

-- What is done to a set of issues.
inductive IssueStep
  | addIssue (spec : IssueSpec)
  | updateIssue (idx : Nat) (spec : IssueSpec)
  | addWaiverLink (waiverId issueId : String)
  | addTestpointLink (tpName issueId : String) (linkType : Int)
  | addCoverageLink (scopePath binName issueId : String) (linkType : Int)
  | query (q : IssueQuery)

namespace IssueStep

variable {s : IssueSet}

-- The set after a step, which may have raised.
def apply : IssueStep → IssueSet → IssueSet
  | addIssue spec,                              s => (s.addIssue spec).snd
  | updateIssue idx spec,                       s => (s.updateIssue idx spec).snd
  | addWaiverLink waiverId issueId,             s => (s.addWaiverLink waiverId issueId).snd
  | addTestpointLink tpName issueId linkType,   s => (s.addTestpointLink tpName issueId linkType).snd
  | addCoverageLink scope bin issueId linkType, s => (s.addCoverageLink scope bin issueId linkType).snd
  | query q,                                    s => (q.ask s).snd

-- A new issue is stored as a whole, and no link to it is in a table for queries. An issue that cannot be
-- written as a whole keeps what the tables for queries that are there tell about it.
def KeepsIndices (s : IssueSet) : IssueStep → Prop
  | addIssue spec =>
    ∀ byId ∈ s.byId, spec.id ∉ byId.keys → s.idNumber spec < 2 ^ 16 →
      (s.withString spec.id).extNumber spec < 2 ^ 16 ∧ spec.Stamped ∧ s.Unlinked spec.id
  | updateIssue idx spec =>
    s.extNumber spec < 2 ^ 16 → idx < s.extIdxs.length → idx < s.enums.length →
      ¬(s.HasIssue idx ∧ spec.Stamped) → s.KeepsEnums idx spec.packed
  | _ => True

theorem coherent_apply (hc : s.Coherent) (step : IssueStep) (hk : KeepsIndices s step) :
    (step.apply s).Coherent := by
  cases step
  case addIssue         => exact hc.addIssue hk
  case updateIssue      => exact hc.updateIssue hk
  case addWaiverLink    => exact hc.addWaiverLink ..
  case addTestpointLink => exact hc.addTestpointLink ..
  case addCoverageLink  => exact hc.addCoverageLink ..
  case query q          => exact (IssueSet.looks_ask s.toIssueTables q s ⟨hc, rfl⟩).left.left

end IssueStep

namespace IssueSet

-- Queries between changes give what the issues and the links alone give.
theorem queries_recomputed {t : IssueTables} {s : IssueSet}
    (h : ReachedBy IssueStep.apply IssueStep.KeepsIndices { toIssueTables := t } s) (q : IssueQuery) :
    (q.ask s).fst = q.recompute s.toIssueTables := by
  have hc : s.Coherent := h.invariant (coherent_of_unbuilt t) fun _ step hc => IssueStep.coherent_apply hc step
  exact (looks_ask s.toIssueTables q s ⟨hc, rfl⟩).right

-- A second issue after a query about a waiver of the first one.
theorem queries_recomputed_two :
    ((IssueQuery.issuesForWaiver "W").ask (IssueStep.apply (.addIssue { id := "B" })
      (IssueStep.apply (.query (.issuesForWaiver "W")) (IssueStep.apply (.addWaiverLink "W" "A")
        (IssueStep.apply (.addIssue { id := "A" }) {}))))).fst = some (.handles [0]) := by
  refine (queries_recomputed (t := {}) ?_ (.issuesForWaiver "W")).trans (by decide +kernel)
  have hs : ∀ id, IssueSpec.Stamped { id } := fun id => ⟨by simp, by simp, by simp⟩
  refine .step _ (.step _ (.step _ (.step _ .start ?_) trivial) trivial) ?_
  case refine_1 => exact fun _ _ _ _ => ⟨by decide +kernel, hs "A", ⟨by decide +kernel, by decide +kernel⟩⟩
  case refine_2 => exact fun _ _ _ _ => ⟨by decide +kernel, hs "B", ⟨by decide +kernel, by decide +kernel⟩⟩

-- A link was there before its issue, and was asked for.
theorem issuesForWaiver_stale :
    let s := IssueStep.apply (.addIssue { id := "A" }) <| IssueStep.apply (.query (.issuesForWaiver "W"))
      (IssueStep.apply (.addWaiverLink "W" "A") {})
    ((IssueQuery.issuesForWaiver "W").ask s).fst = some (.handles []) ∧
      (IssueQuery.issuesForWaiver "W").recompute s.toIssueTables = some (.handles [0]) := by
  decide +kernel

end IssueSet

end Issues
