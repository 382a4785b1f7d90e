import Covsight.Lib.Call
import Covsight.NcdbTs.IssueSet

-- What queries give is what the tables say, as long as no issue is added that a table for queries has links to.

namespace TsIssues

inductive IssueQuery
  | issues
  | get (issueId : JsString)
  | openIssues
  | issuesBySeverity (severity : Int)
  | issuesForWaiver (waiverId : JsString)
  | issuesForTestpoint (tpName : JsString)
  | waiversForIssue (idx : Nat)
  | testpointsForIssue (idx : Nat)
  | coverageLinks

inductive IssueAnswer
  | handles (idxs : List Nat)
  | handle (idx : Option Nat)
  | waivers (links : List WaiverIssueLinkInfo)
  | testpoints (links : List TestpointIssueLinkInfo)
  | coverage (links : List CoverageIssueLinkInfo)
  deriving DecidableEq

namespace IssueTables

-- All numbers of strings are in the table.
structure Numbered (t : IssueTables) : Prop where
  ids  : ∀ n ∈ t.idIdxs, n < t.strings.length
  exts : ∀ n ∈ t.extIdxs, n < t.strings.length
  wl   : ∀ l ∈ t.wl, l.fst < t.strings.length ∧ l.snd < t.strings.length
  tl   : ∀ l ∈ t.tl, l.fst < t.strings.length ∧ l.snd.fst < t.strings.length
  cl   : ∀ l ∈ t.cl, l.fst < t.strings.length ∧ l.snd.fst < t.strings.length ∧ l.snd.snd.fst < t.strings.length

-- What the tables for queries are to hold. The last of several issues of one id is the one that is found.

def byId (t : IssueTables) : Dict JsString Nat :=
  .ofList (t.idIdxs.zipIdx.filterMap t.idEntry)

def waiverLinks (t : IssueTables) : List (JsString × JsString × WaiverIssueLinkInfo) :=
  t.wl.filterMap t.waiverLink

def testpointLinks (t : IssueTables) : List (JsString × JsString × TestpointIssueLinkInfo) :=
  t.tl.filterMap t.testpointLink

def coverageLinks (t : IssueTables) : List CoverageIssueLinkInfo :=
  t.cl.filterMap t.coverageLink

def waiverIndices (t : IssueTables) : LinkIndices WaiverIssueLinkInfo :=
  linkIndices t.byId t.waiverLinks

def tpIndices (t : IssueTables) : LinkIndices TestpointIssueLinkInfo :=
  linkIndices t.byId t.testpointLinks

def idOf (t : IssueTables) (idx : Nat) : Option JsString :=
  t.idIdxs[idx]?.bind t.string

end IssueTables

namespace IssueQuery

def ask : IssueQuery → Call IssueSet IssueAnswer
  | issues                      => do return .handles (← IssueSet.issues)
  | get issueId                 => do return .handle (← IssueSet.getIssue issueId)
  | openIssues                  => do return .handles (← IssueSet.openIssues)
  | issuesBySeverity severity   => do return .handles (← IssueSet.issuesBySeverity severity)
  | issuesForWaiver waiverId    => do return .handles (← IssueSet.issuesForWaiver waiverId)
  | issuesForTestpoint tpName   => do return .handles (← IssueSet.issuesForTestpoint tpName)
  | waiversForIssue idx         => do return .waivers (← IssueSet.waiversForIssue idx)
  | testpointsForIssue idx      => do return .testpoints (← IssueSet.testpointsForIssue idx)
  | coverageLinks               => do return .coverage (← IssueSet.coverageLinks)

-- The answer by the columns and the links alone; there is none about an issue that is not there.
def recompute (t : IssueTables) : IssueQuery → Option IssueAnswer
  | issues                    => some (.handles (List.range t.idIdxs.length))
  | get issueId               => some (.handle (t.byId.get? issueId))
  | openIssues                => some (.handles t.openIdxs)
  | issuesBySeverity severity => some (.handles ((t.bySeverity.get? severity).getD []))
  | issuesForWaiver waiverId  => some (.handles ((t.waiverIndices.fst.get? waiverId).getD []))
  | issuesForTestpoint tpName => some (.handles ((t.tpIndices.fst.get? tpName).getD []))
  | waiversForIssue idx       => ((t.idOf idx).map fun id => (t.waiverIndices.snd.get? id).getD []).map .waivers
  | testpointsForIssue idx    => ((t.idOf idx).map fun id => (t.tpIndices.snd.get? id).getD []).map .testpoints
  | coverageLinks             => some (.coverage t.coverageLinks)

end IssueQuery

-- Entries that are all there

section Reading

variable {α β : Type} {entry entry' : α → Option β} {xs : List α}

theorem readUpTo_of_isSome (h : ∀ x ∈ xs, (entry x).isSome) : readUpTo entry xs = (xs.filterMap entry, true) := by
  induction xs with
  | nil          => rfl
  | cons x xs hi =>
    have ⟨hx, hxs⟩ := List.forall_mem_cons.mp h
    have ⟨y, hy⟩ := Option.isSome_iff_exists.mp hx
    rw [readUpTo, hy, hi hxs, List.filterMap_cons, hy]

theorem mapM_of_isSome (h : ∀ x ∈ xs, (entry x).isSome) : xs.mapM entry = some (xs.filterMap entry) := by
  induction xs with
  | nil          => rfl
  | cons x xs hi =>
    have ⟨hx, hxs⟩ := List.forall_mem_cons.mp h
    have ⟨y, hy⟩ := Option.isSome_iff_exists.mp hx
    rw [List.mapM_cons, hy, hi hxs, List.filterMap_cons, hy]
    rfl

end Reading

namespace IssueTables

variable {t : IssueTables} {n : Nat}

theorem string_isSome (h : n < t.strings.length) : (t.string n).isSome := by
  rw [string, List.getElem?_eq_getElem h]
  rfl

namespace Numbered

theorem idEntry (h : t.Numbered) : ∀ x ∈ t.idIdxs.zipIdx, (t.idEntry x).isSome := by
  intro (n, i) hx
  rw [IssueTables.idEntry, Option.isSome_map]
  exact string_isSome (h.ids n (List.fst_mem_of_mem_zipIdx hx))

theorem waiverLink (h : t.Numbered) : ∀ x ∈ t.wl, (t.waiverLink x).isSome := by
  intro x hx
  have ⟨hw, hi⟩ := h.wl x hx
  have ⟨waiver, hw⟩ := Option.isSome_iff_exists.mp (string_isSome hw)
  have ⟨issue, hi⟩ := Option.isSome_iff_exists.mp (string_isSome hi)
  simp [IssueTables.waiverLink, hw, hi]

theorem testpointLink (h : t.Numbered) : ∀ x ∈ t.tl, (t.testpointLink x).isSome := by
  intro x hx
  have ⟨ht, hi⟩ := h.tl x hx
  have ⟨tp, ht⟩ := Option.isSome_iff_exists.mp (string_isSome ht)
  have ⟨issue, hi⟩ := Option.isSome_iff_exists.mp (string_isSome hi)
  simp [IssueTables.testpointLink, ht, hi]

theorem coverageLink (h : t.Numbered) : ∀ x ∈ t.cl, (t.coverageLink x).isSome := by
  intro x hx
  have ⟨hs, hb, hi⟩ := h.cl x hx
  have ⟨scope, hs⟩ := Option.isSome_iff_exists.mp (string_isSome hs)
  have ⟨bin, hb⟩ := Option.isSome_iff_exists.mp (string_isSome hb)
  have ⟨issue, hi⟩ := Option.isSome_iff_exists.mp (string_isSome hi)
  simp [IssueTables.coverageLink, hs, hb, hi]

end Numbered

-- Strings keep their numbers while the table of strings grows.

section Growing

variable {strings : List JsString} (hg : t.strings <+: strings)

include hg

theorem string_grown (h : n < t.strings.length) : { t with strings := strings }.string n = t.string n :=
  (List.prefix_iff_getElem?.mp hg n h).trans (List.getElem?_eq_getElem h).symm

theorem Numbered.grown (h : t.Numbered) : { t with strings := strings }.Numbered := by
  have hl := hg.length_le
  exact {
    ids n hn  := (h.ids n hn).trans_le hl
    exts n hn := (h.exts n hn).trans_le hl
    wl l hm   := ⟨(h.wl l hm).left.trans_le hl, (h.wl l hm).right.trans_le hl⟩
    tl l hm   := ⟨(h.tl l hm).left.trans_le hl, (h.tl l hm).right.trans_le hl⟩
    cl l hm   :=
      ⟨(h.cl l hm).left.trans_le hl, (h.cl l hm).right.left.trans_le hl, (h.cl l hm).right.right.trans_le hl⟩ }

theorem byId_grown (h : t.Numbered) : { t with strings := strings }.byId = t.byId := by
  refine congrArg Dict.ofList <| List.filterMap_congr fun x hx => ?_
  exact congrArg (Option.map (·, x.snd)) <| string_grown hg <| h.ids _ <| List.fst_mem_of_mem_zipIdx hx

theorem waiverLinks_grown (h : t.Numbered) : { t with strings := strings }.waiverLinks = t.waiverLinks := by
  refine List.filterMap_congr fun x hx => ?_
  have ⟨hw, hi⟩ := h.wl x hx
  simp only [waiverLink, string_grown hg hw, string_grown hg hi]

theorem testpointLinks_grown (h : t.Numbered) : { t with strings := strings }.testpointLinks = t.testpointLinks := by
  refine List.filterMap_congr fun x hx => ?_
  have ⟨ht, hi⟩ := h.tl x hx
  simp only [testpointLink, string_grown hg ht, string_grown hg hi]

theorem coverageLinks_grown (h : t.Numbered) : { t with strings := strings }.coverageLinks = t.coverageLinks := by
  refine List.filterMap_congr fun x hx => ?_
  have ⟨hs, hb, hi⟩ := h.cl x hx
  simp only [coverageLink, string_grown hg hs, string_grown hg hb, string_grown hg hi]

end Growing

end IssueTables

namespace IssueSet

-- What has been built is what would be built now.
structure Coherent (s : IssueSet) : Prop where
  numbered      : s.Numbered
  byId          : ∀ i ∈ s.indices.byId, i = s.byId
  bySeverity    : ∀ i ∈ s.indices.bySeverity, i = s.bySeverity
  openIdxs      : ∀ i ∈ s.indices.openIdxs, i = s.openIdxs
  waiverIndices : ∀ i ∈ s.indices.waiverIndices, i = s.waiverIndices
  tpIndices     : ∀ i ∈ s.indices.tpIndices, i = s.tpIndices
  coverageLinks : ∀ i ∈ s.indices.coverageLinks, i = s.toIssueTables.coverageLinks

theorem coherent_of_unbuilt {t : IssueTables} (h : t.Numbered) : Coherent { toIssueTables := t } :=
  ⟨h, nofun, nofun, nofun, nofun, nofun, nofun⟩

-- A call gives a value and leaves the tables as they are.
def Looks {α : Type} (t : IssueTables) (c : Call IssueSet α) (value : Option α) : Prop :=
  c.Looks (fun s => s.Coherent ∧ s.toIssueTables = t) value

section Ensure

variable {t : IssueTables}

theorem looks_ensureById : Looks t ensureById (some t.byId) := by
  rintro s ⟨hc, rfl⟩
  rw [ensureById, Call.bind_get]
  cases hb : s.indices.byId with
  | some byId => exact ⟨⟨hc, rfl⟩, congrArg some (hc.byId byId hb)⟩
  | none      =>
    simp only [Call.bind_get, readUpTo_of_isSome hc.numbered.idEntry, Call.bind_modify, Call.bind_check, if_true]
    exact ⟨⟨{ hc with byId := fun i hi => (Option.some.inj hi).symm }, rfl⟩, rfl⟩

theorem looks_ensureSeverityIndex : Looks t ensureSeverityIndex (some t.bySeverity) := by
  rintro s ⟨hc, rfl⟩
  rw [ensureSeverityIndex, Call.bind_get]
  cases hb : s.indices.bySeverity with
  | some bySeverity => exact ⟨⟨hc, rfl⟩, congrArg some (hc.bySeverity bySeverity hb)⟩
  | none            => exact ⟨⟨{ hc with bySeverity := fun i hi => (Option.some.inj hi).symm }, rfl⟩, rfl⟩

theorem looks_ensureOpenIndex : Looks t ensureOpenIndex (some t.openIdxs) := by
  rintro s ⟨hc, rfl⟩
  rw [ensureOpenIndex, Call.bind_get]
  cases hb : s.indices.openIdxs with
  | some openIdxs => exact ⟨⟨hc, rfl⟩, congrArg some (hc.openIdxs openIdxs hb)⟩
  | none          => exact ⟨⟨{ hc with openIdxs := fun i hi => (Option.some.inj hi).symm }, rfl⟩, rfl⟩

theorem looks_ensureCoverageLinks : Looks t ensureCoverageLinks (some t.coverageLinks) := by
  rintro s ⟨hc, rfl⟩
  rw [ensureCoverageLinks, Call.bind_get]
  cases hb : s.indices.coverageLinks with
  | some links => exact ⟨⟨hc, rfl⟩, congrArg some (hc.coverageLinks links hb)⟩
  | none       =>
    simp only [Call.bind_read, mapM_of_isSome hc.numbered.coverageLink, Option.elim_some]
    exact ⟨⟨{ hc with coverageLinks := fun i hi => (Option.some.inj hi).symm }, rfl⟩, rfl⟩

theorem looks_ensureWaiverIndices : Looks t ensureWaiverIndices (some t.waiverIndices) := by
  rintro s ⟨hc, rfl⟩
  rw [ensureWaiverIndices, Call.bind_get]
  cases hb : s.indices.waiverIndices with
  | some indices => exact ⟨⟨hc, rfl⟩, congrArg some (hc.waiverIndices indices hb)⟩
  | none         =>
    refine (looks_ensureById (t := s.toIssueTables)).bind (g := fun byId => some (linkIndices byId s.waiverLinks))
      (fun byId hv => ?_) s ⟨hc, rfl⟩
    rintro s' ⟨hc', ht⟩
    cases hv
    simp only [Call.bind_get, readUpTo_of_isSome hc'.numbered.waiverLink, Call.bind_modify, Call.bind_check, if_true]
    rw [← ht]
    exact ⟨⟨{ hc' with waiverIndices := fun i hi => (Option.some.inj hi).symm }, rfl⟩, rfl⟩

theorem looks_ensureTpIndices : Looks t ensureTpIndices (some t.tpIndices) := by
  rintro s ⟨hc, rfl⟩
  rw [ensureTpIndices, Call.bind_get]
  cases hb : s.indices.tpIndices with
  | some indices => exact ⟨⟨hc, rfl⟩, congrArg some (hc.tpIndices indices hb)⟩
  | none         =>
    refine (looks_ensureById (t := s.toIssueTables)).bind (g := fun byId => some (linkIndices byId s.testpointLinks))
      (fun byId hv => ?_) s ⟨hc, rfl⟩
    rintro s' ⟨hc', ht⟩
    cases hv
    simp only [Call.bind_get, readUpTo_of_isSome hc'.numbered.testpointLink, Call.bind_modify, Call.bind_check,
      if_true]
    rw [← ht]
    exact ⟨⟨{ hc' with tpIndices := fun i hi => (Option.some.inj hi).symm }, rfl⟩, rfl⟩

theorem looks_handleId (idx : Nat) : Looks t (handleId idx) (t.idOf idx) :=
  Call.Looks.read fun _ hs => hs.right ▸ rfl

-- A query gives what the tables say and leaves them as they are.
theorem looks_ask (t : IssueTables) (q : IssueQuery) : Looks t q.ask (q.recompute t) := by
  cases q with
  | issues                    => exact fun s hs => ⟨hs, hs.right ▸ rfl⟩
  | get issueId               => exact (looks_ensureById.map (·.get? issueId)).map IssueAnswer.handle
  | openIssues                => exact looks_ensureOpenIndex.map IssueAnswer.handles
  | issuesBySeverity severity =>
    exact (looks_ensureSeverityIndex.map fun i => (i.get? severity).getD []).map IssueAnswer.handles
  | issuesForWaiver waiverId  =>
    exact (looks_ensureWaiverIndices.map fun i => (i.fst.get? waiverId).getD []).map IssueAnswer.handles
  | issuesForTestpoint tpName =>
    exact (looks_ensureTpIndices.map fun i => (i.fst.get? tpName).getD []).map IssueAnswer.handles
  | waiversForIssue idx       =>
    have h := (looks_ensureWaiverIndices (t := t)).bind fun i _ =>
      (looks_handleId idx).map fun id => (i.snd.get? id).getD []
    exact h.map IssueAnswer.waivers
  | testpointsForIssue idx    =>
    have h := (looks_ensureTpIndices (t := t)).bind fun i _ =>
      (looks_handleId idx).map fun id => (i.snd.get? id).getD []
    exact h.map IssueAnswer.testpoints
  | coverageLinks             => exact looks_ensureCoverageLinks.map IssueAnswer.coverage

end Ensure

section Changes

variable {s : IssueSet} {spec : IssueSpec}

theorem Coherent.grown (hc : s.Coherent) {strings : List JsString} (hg : s.strings <+: strings) :
    Coherent { s with strings := strings } where
  numbered           := hc.numbered.grown hg
  byId i hi          := (hc.byId i hi).trans (IssueTables.byId_grown hg hc.numbered).symm
  bySeverity         := hc.bySeverity
  openIdxs           := hc.openIdxs
  waiverIndices i hi := by
    rw [hc.waiverIndices i hi, IssueTables.waiverIndices, IssueTables.waiverIndices,
      IssueTables.byId_grown hg hc.numbered, IssueTables.waiverLinks_grown hg hc.numbered]
  tpIndices i hi     := by
    rw [hc.tpIndices i hi, IssueTables.tpIndices, IssueTables.tpIndices, IssueTables.byId_grown hg hc.numbered,
      IssueTables.testpointLinks_grown hg hc.numbered]
  coverageLinks i hi := (hc.coverageLinks i hi).trans (IssueTables.coverageLinks_grown hg hc.numbered).symm

-- The set once a string has been interned.
def withString (s : IssueSet) (value : JsString) : IssueSet :=
  { s with strings := (intern s.strings value).snd }

theorem Coherent.withString (hc : s.Coherent) (value : JsString) : (s.withString value).Coherent :=
  hc.grown (intern.extends_table s.strings value)

-- The number of a string is in the table from then on.
theorem fst_lt_of_extends {value : JsString} {strings : List JsString} (h : (intern s.strings value).snd <+: strings) :
    (intern s.strings value).fst < strings.length :=
  (intern.fst_lt s.strings value).trans_le h.length_le

theorem numbered_withString (hn : s.Numbered) (value : JsString) : (s.withString value).Numbered :=
  hn.grown (intern.extends_table s.strings value)

theorem numbered_addWaiverLink (hn : s.Numbered) (waiverId issueId : JsString) :
    (IssueSet.addWaiverLink waiverId issueId s).snd.Numbered := by
  have hw := numbered_withString (numbered_withString hn waiverId) issueId
  refine { hw with wl := fun l hl => ?_ }
  rcases List.mem_append.mp hl with hl | hl
  · exact hw.wl l hl
  · cases List.mem_singleton.mp hl
    exact ⟨fst_lt_of_extends (intern.extends_table ..), fst_lt_of_extends List.prefix_rfl⟩

theorem numbered_addTestpointLink (hn : s.Numbered) (tpName issueId : JsString) (linkType : JsNumber) :
    (IssueSet.addTestpointLink tpName issueId linkType s).snd.Numbered := by
  have ht := numbered_withString (numbered_withString hn tpName) issueId
  refine { ht with tl := fun l hl => ?_ }
  rcases List.mem_append.mp hl with hl | hl
  · exact ht.tl l hl
  · cases List.mem_singleton.mp hl
    exact ⟨fst_lt_of_extends (intern.extends_table ..), fst_lt_of_extends List.prefix_rfl⟩

theorem numbered_addCoverageLink (hn : s.Numbered) (scopePath binName issueId : JsString) (linkType : JsNumber) :
    (IssueSet.addCoverageLink scopePath binName issueId linkType s).snd.Numbered := by
  have hi := numbered_withString (numbered_withString (numbered_withString hn scopePath) binName) issueId
  refine { hi with cl := fun l hl => ?_ }
  rcases List.mem_append.mp hl with hl | hl
  · exact hi.cl l hl
  · cases List.mem_singleton.mp hl
    exact ⟨fst_lt_of_extends ((intern.extends_table ..).trans (intern.extends_table ..)),
      fst_lt_of_extends (intern.extends_table ..), fst_lt_of_extends List.prefix_rfl⟩

theorem Coherent.addWaiverLink (hc : s.Coherent) (waiverId issueId : JsString) :
    (IssueSet.addWaiverLink waiverId issueId s).snd.Coherent := by
  have hw := (hc.withString waiverId).withString issueId
  exact ⟨numbered_addWaiverLink hc.numbered .., hw.byId, hw.bySeverity, hw.openIdxs, nofun, hw.tpIndices,
    hw.coverageLinks⟩

theorem Coherent.addTestpointLink (hc : s.Coherent) (tpName issueId : JsString) (linkType : JsNumber) :
    (IssueSet.addTestpointLink tpName issueId linkType s).snd.Coherent := by
  have ht := (hc.withString tpName).withString issueId
  exact ⟨numbered_addTestpointLink hc.numbered .., ht.byId, ht.bySeverity, ht.openIdxs, ht.waiverIndices, nofun,
    ht.coverageLinks⟩

theorem Coherent.addCoverageLink (hc : s.Coherent) (scopePath binName issueId : JsString) (linkType : JsNumber) :
    (IssueSet.addCoverageLink scopePath binName issueId linkType s).snd.Coherent := by
  have hi := ((hc.withString scopePath).withString binName).withString issueId
  exact ⟨numbered_addCoverageLink hc.numbered .., hi.byId, hi.bySeverity, hi.openIdxs, hi.waiverIndices, hi.tpIndices,
    nofun⟩

theorem mem_writeAt {α : Type} {zero x y : α} {xs : List α} {i : Nat} (h : y ∈ writeAt zero xs i x) :
    y ∈ xs ∨ y = zero ∨ y = x := by
  rw [writeAt] at h
  split at h
  case isTrue  => exact (List.mem_or_eq_of_mem_set h).imp_right .inr
  case isFalse =>
    rcases List.mem_append.mp h with h | h
    · exact (List.mem_append.mp h).imp_right fun h => .inl (List.eq_of_mem_replicate h)
    · exact .inr (.inr (List.mem_singleton.mp h))

theorem numbered_updateIssue (hn : s.Numbered) (idx : Nat) (spec : IssueSpec) :
    (IssueSet.updateIssue idx spec s).snd.Numbered := by
  have hw := numbered_withString hn spec.ext
  have hx : (intern s.strings spec.ext).fst < (s.withString spec.ext).strings.length := fst_lt_of_extends List.prefix_rfl
  refine { hw with exts := fun n hm => ?_ }
  rcases mem_writeAt hm with hm | rfl | rfl
  · exact hw.exts n hm
  · exact Nat.zero_lt_of_lt hx
  · exact hx

-- Nothing is left of the tables for queries.
theorem Coherent.updateIssue (hc : s.Coherent) (idx : Nat) (spec : IssueSpec) :
    (IssueSet.updateIssue idx spec s).snd.Coherent :=
  coherent_of_unbuilt (numbered_updateIssue hc.numbered idx spec)

-- A new issue is named by no link that a table has been built of.
structure Unlinked (s : IssueSet) (id : JsString) : Prop where
  waivers    : s.indices.waiverIndices.isSome → ∀ link ∈ s.waiverLinks, link.snd.fst ≠ id
  testpoints : s.indices.tpIndices.isSome → ∀ link ∈ s.testpointLinks, link.snd.fst ≠ id

theorem linkIndices_set {ι : Type} {byId : Dict JsString Nat} {links : List (JsString × JsString × ι)} {id : JsString}
    (h : ∀ link ∈ links, link.snd.fst ≠ id) (idx : Nat) :
    linkIndices (byId.set id idx) links = linkIndices byId links := by
  refine Prod.ext (congrArg listed <| List.filterMap_congr fun link hl => ?_) rfl
  exact congrArg (Option.map (link.fst, ·)) <| Dict.get?_set_of_ne (h link hl).symm byId idx

def withIssue (s : IssueSet) (spec : IssueSpec) : IssueSet :=
  let s' := (s.withString spec.id).withString spec.ext
  { s' with
    idIdxs             := s'.idIdxs ++ [(intern s.strings spec.id).fst]
    extIdxs            := s'.extIdxs ++ [(intern (s.withString spec.id).strings spec.ext).fst]
    enums              := s'.enums ++ [spec.packed]
    created            := s'.created ++ [spec.createdAt]
    updated            := s'.updated ++ [spec.updatedAt]
    synced             := s'.synced ++ [spec.syncedAt]
    indices.byId       := some (s.byId.set spec.id s.idIdxs.length)
    indices.bySeverity := none
    indices.openIdxs   := none }

theorem extends_withIssue (s : IssueSet) (spec : IssueSpec) : s.strings <+: (s.withIssue spec).strings :=
  (intern.extends_table s.strings spec.id).trans (intern.extends_table ..)

theorem byId_withIssue (hn : s.Numbered) (spec : IssueSpec) :
    (s.withIssue spec).byId = s.byId.set spec.id s.idIdxs.length := by
  have hold : (s.idIdxs.zipIdx.filterMap (s.withIssue spec).idEntry) = s.idIdxs.zipIdx.filterMap s.idEntry := by
    refine List.filterMap_congr fun x hx => congrArg (Option.map (·, x.snd)) ?_
    exact IssueTables.string_grown (extends_withIssue s spec) <| hn.ids _ <| List.fst_mem_of_mem_zipIdx hx
  have hnew : (s.withIssue spec).string (intern s.strings spec.id).fst = some spec.id :=
    intern.get?_of_prefix (intern.extends_table ..)
  have hids : (s.withIssue spec).idIdxs = s.idIdxs ++ [(intern s.strings spec.id).fst] := rfl
  rw [IssueTables.byId, hids, List.zipIdx_append, List.filterMap_append, hold, Dict.ofList, Dict.setAll_append]
  simp only [List.zipIdx_singleton, List.filterMap_cons, IssueTables.idEntry, hnew, Nat.zero_add]
  rfl

theorem numbered_withIssue (hn : s.Numbered) (spec : IssueSpec) : (s.withIssue spec).Numbered := by
  have hw := numbered_withString (numbered_withString hn spec.id) spec.ext
  have hid : (intern s.strings spec.id).fst < (s.withIssue spec).strings.length :=
    fst_lt_of_extends (intern.extends_table ..)
  have hext : (intern (s.withString spec.id).strings spec.ext).fst < (s.withIssue spec).strings.length :=
    fst_lt_of_extends List.prefix_rfl
  exact { hw with
    ids  := List.forall_mem_append.mpr ⟨hw.ids, List.forall_mem_singleton.mpr hid⟩
    exts := List.forall_mem_append.mpr ⟨hw.exts, List.forall_mem_singleton.mpr hext⟩ }

theorem Coherent.withIssue (hc : s.Coherent) (hu : s.Unlinked spec.id) : (s.withIssue spec).Coherent := by
  have hw := (hc.withString spec.id).withString spec.ext
  have hg := extends_withIssue s spec
  have hb := byId_withIssue hc.numbered spec
  exact {
    numbered           := numbered_withIssue hc.numbered spec
    byId               := fun i hi => (Option.some.inj hi).symm.trans hb.symm
    bySeverity         := nofun
    openIdxs           := nofun
    waiverIndices i hi := by
      have hl : (s.withIssue spec).waiverLinks = s.waiverLinks := IssueTables.waiverLinks_grown hg hc.numbered
      rw [hc.waiverIndices i hi, IssueTables.waiverIndices, IssueTables.waiverIndices, hb, hl,
        linkIndices_set (hu.waivers (Option.isSome_of_mem hi))]
    tpIndices i hi     := by
      have hl : (s.withIssue spec).testpointLinks = s.testpointLinks :=
        IssueTables.testpointLinks_grown hg hc.numbered
      rw [hc.tpIndices i hi, IssueTables.tpIndices, IssueTables.tpIndices, hb, hl,
        linkIndices_set (hu.testpoints (Option.isSome_of_mem hi))]
    coverageLinks      := hw.coverageLinks }

theorem ensureById_eq (hn : s.Numbered) (hi : ∀ i ∈ s.indices.byId, i = s.byId) :
    ensureById s = (some s.byId, { s with indices.byId := some s.byId }) := by
  rw [ensureById, Call.bind_get]
  cases hb : s.indices.byId with
  | some byId =>
    have he : { s with indices.byId := some s.byId } = s := by rw [← hi byId hb, ← hb]
    rw [he, ← hi byId hb]
    rfl
  | none      =>
    simp only [Call.bind_get, readUpTo_of_isSome hn.idEntry, Call.bind_modify, Call.bind_check, if_true]
    rfl

theorem Coherent.addIssue (hc : s.Coherent) (hu : spec.id ∉ s.byId.keys → s.Unlinked spec.id) :
    (IssueSet.addIssue spec s).snd.Coherent := by
  have hbuilt : Coherent { s with indices.byId := some s.byId } :=
    { hc with byId := fun _ hi => (Option.some.inj hi).symm }
  rw [IssueSet.addIssue, Call.bind_of_some (ensureById_eq hc.numbered hc.byId), Call.bind_check]
  by_cases hm : spec.id ∈ s.byId.keys
  case pos =>
    rw [if_neg (by simpa using hm)]
    exact hbuilt
  case neg =>
    rw [if_pos (by simpa using hm)]
    exact hbuilt.withIssue ⟨(hu hm).waivers, (hu hm).testpoints⟩

end Changes

end IssueSet

-- What is done to a set of issues.
inductive IssueStep
  | addIssue (spec : IssueSpec)
  | updateIssue (idx : Nat) (spec : IssueSpec)
  | addWaiverLink (waiverId issueId : JsString)
  | addTestpointLink (tpName issueId : JsString) (linkType : JsNumber)
  | addCoverageLink (scopePath binName issueId : JsString) (linkType : JsNumber)
  | query (q : IssueQuery)

namespace IssueStep

variable {s : IssueSet}

-- The set after a step, which may have thrown.
def apply : IssueStep → IssueSet → IssueSet
  | addIssue spec,                              s => (s.addIssue spec).snd
  | updateIssue idx spec,                       s => (s.updateIssue idx spec).snd
  | addWaiverLink waiverId issueId,             s => (s.addWaiverLink waiverId issueId).snd
  | addTestpointLink tpName issueId linkType,   s => (s.addTestpointLink tpName issueId linkType).snd
  | addCoverageLink scope bin issueId linkType, s => (s.addCoverageLink scope bin issueId linkType).snd
  | query q,                                    s => (q.ask s).snd

-- No table for queries has a link to an issue that is added.
def KeepsIndices (s : IssueSet) : IssueStep → Prop
  | addIssue spec => spec.id ∉ s.byId.keys → s.Unlinked spec.id
  | _             => True

theorem coherent_apply (hc : s.Coherent) (step : IssueStep) (hk : KeepsIndices s step) :
    (step.apply s).Coherent := by
  cases step with
  | addIssue         => exact hc.addIssue hk
  | updateIssue      => exact hc.updateIssue ..
  | addWaiverLink    => exact hc.addWaiverLink ..
  | addTestpointLink => exact hc.addTestpointLink ..
  | addCoverageLink  => exact hc.addCoverageLink ..
  | query q          => exact (IssueSet.looks_ask s.toIssueTables q s ⟨hc, rfl⟩).left.left

end IssueStep

namespace IssueSet

-- Queries between changes give what the columns and the links alone give.
theorem queries_agree_with_tables {t : IssueTables} (ht : t.Numbered) {s : IssueSet}
    (h : ReachedBy IssueStep.apply IssueStep.KeepsIndices { toIssueTables := t } s) (q : IssueQuery) :
    (q.ask s).fst = q.recompute s.toIssueTables := by
  have hc : s.Coherent := h.invariant (coherent_of_unbuilt ht) fun _ step hc => IssueStep.coherent_apply hc step
  exact (looks_ask s.toIssueTables q s ⟨hc, rfl⟩).right

-- A second issue after a query about a waiver of the first one.
theorem queries_agree_with_tables_two :
    ((IssueQuery.issuesForWaiver (.ofString "W")).ask (IssueStep.apply (.addIssue { id := .ofString "B" })
      (IssueStep.apply (.query (.issuesForWaiver (.ofString "W"))) (IssueStep.apply (.addWaiverLink (.ofString "W") (.ofString "A"))
        (IssueStep.apply (.addIssue { id := .ofString "A" }) {}))))).fst = some (.handles [0]) := by
  refine (queries_agree_with_tables (t := {}) ⟨nofun, nofun, nofun, nofun, nofun⟩ ?_ (.issuesForWaiver _)).trans
    (by decide +kernel)
  refine .step _ (.step _ (.step _ (.step _ .start ?_) trivial) trivial) ?_
  · exact fun _ => ⟨by decide +kernel, by decide +kernel⟩
  · exact fun _ => ⟨by decide +kernel, by decide +kernel⟩

-- A link was there before its issue, and was asked for.
theorem waiver_query_stale :
    let s := IssueStep.apply (.addIssue { id := .ofString "A" }) <|
      IssueStep.apply (.query (.issuesForWaiver (.ofString "W"))) <|
      IssueStep.apply (.addWaiverLink (.ofString "W") (.ofString "A")) {}
    ((IssueQuery.issuesForWaiver (.ofString "W")).ask s).fst = some (.handles []) ∧
      (IssueQuery.issuesForWaiver (.ofString "W")).recompute s.toIssueTables = some (.handles [0]) := by
  decide +kernel

end IssueSet

end TsIssues
