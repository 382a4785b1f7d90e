import Covsight.Ncdb.Issues
import Covsight.Ncdb.Theorems.Issues
import Mathlib.Data.Nat.Bitwise
import Covsight.Ncdb.StringTable

-- Changes that are made as a whole leave a set that can be stored.

namespace Issues

namespace IssueTables

variable {t : IssueTables} {strings : List String}

-- All columns have an entry for each issue.
structure Even (t : IssueTables) : Prop where
  ext     : t.extIdxs.length = t.idIdxs.length
  enums   : t.enums.length = t.idIdxs.length
  created : t.created.length = t.idIdxs.length
  updated : t.updated.length = t.idIdxs.length
  synced  : t.synced.length = t.idIdxs.length

-- Every number of a string is one of the table.
structure Numbered (t : IssueTables) : Prop where
  ids : ∀ i ∈ t.idIdxs, i < t.strings.length
  ext : ∀ i ∈ t.extIdxs, i < t.strings.length
  wl  : ∀ l ∈ t.wl, l.fst < t.strings.length ∧ l.snd < t.strings.length
  tl  : ∀ l ∈ t.tl, l.fst < t.strings.length ∧ l.snd.fst < t.strings.length
  cl  : ∀ l ∈ t.cl,
    l.fst < t.strings.length ∧ l.snd.fst < t.strings.length ∧ l.snd.snd.fst < t.strings.length

theorem Numbered.grown (h : t.Numbered) (hg : t.strings <+: strings) :
    { t with strings := strings }.Numbered := by
  have hl := hg.length_le
  have hlt : ∀ {i}, i < t.strings.length → i < strings.length := fun hi => Nat.lt_of_lt_of_le hi hl
  exact {
    ids := fun i hi => hlt (h.ids i hi)
    ext := fun i hi => hlt (h.ext i hi)
    wl  := fun l hm => ⟨hlt (h.wl l hm).left, hlt (h.wl l hm).right⟩
    tl  := fun l hm => ⟨hlt (h.tl l hm).left, hlt (h.tl l hm).right⟩
    cl  := fun l hm => ⟨hlt (h.cl l hm).left, hlt (h.cl l hm).right.left, hlt (h.cl l hm).right.right⟩ }

-- Every number fits what it is stored in.
structure Stored (t : IssueTables) : Prop where
  even     : t.Even
  numbered : t.Numbered
  nodup    : t.strings.Nodup
  pool     : t.strings.length ≤ 2 ^ 16
  distinct : t.idIdxs.Nodup
  enums    : ∀ n ∈ t.enums, n < 2 ^ 16
  created  : ∀ n ∈ t.created, 0 ≤ n ∧ n < 2 ^ 32
  updated  : ∀ n ∈ t.updated, 0 ≤ n ∧ n < 2 ^ 32
  synced   : ∀ n ∈ t.synced, 0 ≤ n ∧ n < 2 ^ 32
  tlTypes  : ∀ l ∈ t.tl, 0 ≤ l.snd.snd ∧ l.snd.snd < 2 ^ 8
  clTypes  : ∀ l ∈ t.cl, 0 ≤ l.snd.snd.snd ∧ l.snd.snd.snd < 2 ^ 8
  wlCount  : t.wl.length < 2 ^ 32
  tlCount  : t.tl.length < 2 ^ 32
  clCount  : t.cl.length < 2 ^ 32

theorem stored_empty : Stored {} := by
  constructor
  case even     => exact ⟨rfl, rfl, rfl, rfl, rfl⟩
  case numbered => exact ⟨nofun, nofun, nofun, nofun, nofun⟩
  case nodup    => exact List.nodup_singleton ""
  case distinct => exact .nil
  all_goals simp

-- A string more, if there is room for it.
theorem Stored.withString (h : t.Stored) {string : String} (hn : (intern t.strings string).fst < 2 ^ 16) :
    { t with strings := (intern t.strings string).snd }.Stored :=
  { h with
    even     := { h.even with }
    numbered := h.numbered.grown (intern.extends_table ..)
    nodup    := intern.nodup h.nodup
    pool     := intern.length_le h.pool hn }

-- An issue is there if its id is.
def HasId (t : IssueTables) (id : String) : Prop :=
  ∃ i ∈ t.idIdxs, t.string i = some id

theorem Numbered.exists_byId (h : t.Numbered) : ∃ byId, t.byId = some byId := by
  have ⟨ids, hi⟩ := exists_mapM (f := t.string) fun i hm => ⟨_, List.getElem?_eq_getElem (h.ids i hm)⟩
  exact ⟨_, congrArg (Option.map _) hi⟩

theorem mem_byId_iff {byId : Dict String Nat} (h : t.byId = some byId) {id : String} :
    id ∈ byId.keys ↔ t.HasId id := by
  obtain ⟨ids, hi, he⟩ := Option.map_eq_some_iff.mp h
  have hm : id ∈ byId.keys ↔ id ∈ ids := by
    rw [← he, ← Dict.mem_def, Dict.ofList, Dict.mem_setAll_iff, List.zipIdx_map_fst]
    exact or_iff_right (Dict.not_mem_empty id)
  rw [hm]
  constructor
  case mp  => exact exists_of_mem_mapM hi
  case mpr =>
    rintro ⟨i, hm, hs⟩
    obtain ⟨id', hm', hs'⟩ := exists_mem_of_mapM hi hm
    exact Option.some.inj (hs'.symm.trans hs) ▸ hm'

-- A new id has a number that no issue has.
theorem Stored.not_mem_ids (h : t.Stored) {id : String} (hn : ¬t.HasId id) :
    (intern t.strings id).fst ∉ t.idIdxs := by
  intro hm
  have hs := List.getElem?_eq_getElem (h.numbered.ids _ hm)
  exact hn ⟨_, hm, hs.trans (congrArg some (intern.eq_of_fst hs rfl).symm)⟩

end IssueTables

theorem packEnums_lt (severity kind state resolution : Int) : packEnums severity kind state resolution < 2 ^ 16 := by
  have h8 : ∀ n : Int, (n % 8).toNat < 2 ^ 3 := fun n => by omega
  have h4 : (kind % 4).toNat < 2 ^ 2 := by omega
  have hkind := Nat.lt_trans (Nat.shiftLeft_lt h4 : _ <<< 11 < _) (by decide : _ < 2 ^ 16)
  have hstate := Nat.lt_trans (Nat.shiftLeft_lt (h8 state) : _ <<< 8 < _) (by decide : _ < 2 ^ 16)
  have hres := Nat.lt_trans (Nat.shiftLeft_lt (h8 resolution) : _ <<< 5 < _) (by decide : _ < 2 ^ 16)
  exact Nat.or_lt_two_pow
    (Nat.or_lt_two_pow (Nat.or_lt_two_pow (Nat.shiftLeft_lt (h8 severity)) hkind) hstate) hres

theorem packed_lt (spec : IssueSpec) : spec.packed < 2 ^ 16 :=
  packEnums_lt ..

namespace IssueSet

variable {s s' : IssueSet} {spec : IssueSpec}

theorem stored_withIssue {byId : Dict String Nat} (h : s.Stored) (hid : ¬s.HasId spec.id)
    (hn : s.idNumber spec < 2 ^ 16) (he : (s.withString spec.id).extNumber spec < 2 ^ 16)
    (hs : spec.Stamped) : (s.withIssue spec byId).Stored := by
  have hi : (s.withString spec.id).Stored := h.withString hn
  have hx : ((s.withString spec.id).withString spec.ext).Stored := hi.withString he
  have hid' : s.idNumber spec < ((s.withString spec.id).withString spec.ext).strings.length :=
    Nat.lt_of_lt_of_le (intern.fst_lt ..) (intern.extends_table ..).length_le
  have hext := intern.fst_lt (s.withString spec.id).strings spec.ext
  have hmem : ∀ {α : Type} {p : α → Prop} {xs : List α} {x : α}, (∀ y ∈ xs, p y) → p x →
      ∀ y ∈ xs ++ [x], p y := fun h hx => List.forall_mem_append.mpr ⟨h, List.forall_mem_singleton.mpr hx⟩
  refine { hx with
    even     := ?_
    numbered := { hx.numbered with ids := hmem hx.numbered.ids hid', ext := hmem hx.numbered.ext hext }
    distinct := ?_
    enums    := hmem h.enums (packed_lt spec)
    created  := hmem h.created hs.created
    updated  := hmem h.updated hs.updated
    synced   := hmem h.synced hs.synced }
  case refine_1 =>
    have hv := h.even
    simp only [withIssue]
    constructor <;> simp only [List.length_append, hv.ext, hv.enums, hv.created, hv.updated, hv.synced,
      List.length_singleton]
  case refine_2 =>
    refine List.nodup_append.mpr ⟨h.distinct, List.nodup_singleton _, fun i hi j hj he => ?_⟩
    rw [he, List.mem_singleton.mp hj] at hi
    exact h.not_mem_ids hid hi

theorem stored_setIssue {idx : Nat} (h : s.Stored) (hn : s.extNumber spec < 2 ^ 16) (hs : spec.Stamped) :
    (s.setIssue idx spec).Stored := by
  have hx : (s.withString spec.ext).Stored := h.withString hn
  have hmem : ∀ {α : Type} {p : α → Prop} {xs : List α} {x : α}, (∀ y ∈ xs, p y) → p x →
      ∀ y ∈ xs.set idx x, p y :=
    fun h hx y hy => (List.mem_or_eq_of_mem_set hy).elim (h y) fun he => he ▸ hx
  have hv := h.even
  refine { hx with
    even     := ?_
    numbered := { hx.numbered with ext := hmem hx.numbered.ext (intern.fst_lt s.strings spec.ext) }
    enums    := hmem h.enums (packed_lt spec)
    created  := hmem h.created hs.created
    updated  := hmem h.updated hs.updated
    synced   := hmem h.synced hs.synced }
  constructor <;> simp only [setIssue, List.length_set, hv.ext, hv.enums, hv.created, hv.updated, hv.synced]

-- The table of strings has room for some strings.
def RoomFor (s : IssueSet) (strings : List String) : Prop :=
  (internInto s.strings strings).length ≤ 2 ^ 16

instance (s : IssueSet) (strings : List String) : Decidable (s.RoomFor strings) :=
  inferInstanceAs (Decidable (_ ≤ _))

theorem RoomFor.tail {string : String} {strings : List String} (h : s.RoomFor (string :: strings)) :
    (s.withString string).RoomFor strings :=
  h

theorem RoomFor.head {string : String} {strings : List String} (h : s.RoomFor (string :: strings)) :
    (intern s.strings string).fst < 2 ^ 16 :=
  calc (intern s.strings string).fst
    _ < (intern s.strings string).snd.length       := intern.fst_lt ..
    _ ≤ (internInto s.strings (string :: strings)).length :=
      (internInto_extends_table (intern s.strings string).snd strings).length_le
    _ ≤ 2 ^ 16                                     := h

theorem stored_addWaiverLink {waiverId issueId : String} (h : s.Stored)
    (hr : s.RoomFor [waiverId, issueId]) (hc : s.wl.length + 1 < 2 ^ 32) :
    (addWaiverLink waiverId issueId s).snd.Stored := by
  have hx : ((s.withString waiverId).withString issueId).Stored :=
    (h.withString hr.head).withString hr.tail.head
  have hw : (intern s.strings waiverId).fst < ((s.withString waiverId).withString issueId).strings.length :=
    Nat.lt_of_lt_of_le (intern.fst_lt ..) (intern.extends_table ..).length_le
  have hi := intern.fst_lt (s.withString waiverId).strings issueId
  refine { hx with
    even     := { hx.even with }
    numbered := { hx.numbered with wl := ?_ }
    wlCount  := List.length_append.trans_lt hc }
  exact List.forall_mem_append.mpr ⟨hx.numbered.wl, List.forall_mem_singleton.mpr ⟨hw, hi⟩⟩

theorem stored_addTestpointLink {tpName issueId : String} {linkType : Int} (h : s.Stored)
    (hr : s.RoomFor [tpName, issueId]) (hc : s.tl.length + 1 < 2 ^ 32)
    (ht : 0 ≤ linkType ∧ linkType < 2 ^ 8) : (addTestpointLink tpName issueId linkType s).snd.Stored := by
  have hx : ((s.withString tpName).withString issueId).Stored :=
    (h.withString hr.head).withString hr.tail.head
  have htp : (intern s.strings tpName).fst < ((s.withString tpName).withString issueId).strings.length :=
    Nat.lt_of_lt_of_le (intern.fst_lt ..) (intern.extends_table ..).length_le
  have hi := intern.fst_lt (s.withString tpName).strings issueId
  refine { hx with
    even     := { hx.even with }
    numbered := { hx.numbered with tl := ?_ }
    tlTypes  := List.forall_mem_append.mpr ⟨hx.tlTypes, List.forall_mem_singleton.mpr ht⟩
    tlCount  := List.length_append.trans_lt hc }
  exact List.forall_mem_append.mpr ⟨hx.numbered.tl, List.forall_mem_singleton.mpr ⟨htp, hi⟩⟩

theorem stored_addCoverageLink {scopePath binName issueId : String} {linkType : Int} (h : s.Stored)
    (hr : s.RoomFor [scopePath, binName, issueId]) (hc : s.cl.length + 1 < 2 ^ 32)
    (ht : 0 ≤ linkType ∧ linkType < 2 ^ 8) :
    (addCoverageLink scopePath binName issueId linkType s).snd.Stored := by
  have hx : (((s.withString scopePath).withString binName).withString issueId).Stored :=
    ((h.withString hr.head).withString hr.tail.head).withString hr.tail.tail.head
  have hg := intern.extends_table ((s.withString scopePath).withString binName).strings issueId
  have hs : (intern s.strings scopePath).fst <
      (((s.withString scopePath).withString binName).withString issueId).strings.length :=
    Nat.lt_of_lt_of_le (intern.fst_lt ..) ((intern.extends_table ..).trans hg).length_le
  have hb : (intern (s.withString scopePath).strings binName).fst <
      (((s.withString scopePath).withString binName).withString issueId).strings.length :=
    Nat.lt_of_lt_of_le (intern.fst_lt ..) hg.length_le
  have hi := intern.fst_lt ((s.withString scopePath).withString binName).strings issueId
  refine { hx with
    even     := { hx.even with }
    numbered := { hx.numbered with cl := ?_ }
    clTypes  := List.forall_mem_append.mpr ⟨hx.clTypes, List.forall_mem_singleton.mpr ht⟩
    clCount  := List.length_append.trans_lt hc }
  exact List.forall_mem_append.mpr ⟨hx.numbered.cl, List.forall_mem_singleton.mpr ⟨hs, hb, hi⟩⟩

-- The table of ids is the one that would be built now, if it is there.
def BuiltIds (s : IssueSet) : Prop :=
  ∀ i ∈ s.indices.byId, s.byId = some i

theorem BuiltIds.grown {strings : List String} (hb : s.BuiltIds) (h : s.strings <+: strings) :
    BuiltIds { s with strings := strings } :=
  fun i hi => IssueTables.byId_grown h (hb i hi)

-- A call that leaves the issues and the links alone.
def Quiet {α : Type} (t : IssueTables) (c : Call IssueSet α) : Prop :=
  c.Ensures (fun s => s.toIssueTables = t ∧ s.BuiltIds) fun _ s => s.toIssueTables = t ∧ s.BuiltIds

namespace Quiet

variable {α β : Type} {t : IssueTables} {c : Call IssueSet α} {f : α → Call IssueSet β}

theorem pure (a : α) : Quiet t (Pure.pure a) :=
  fun _ hs => hs

theorem read (g : IssueSet → Option α) : Quiet t (.read g) :=
  fun _ hs => hs

theorem bind (hc : Quiet t c) (hf : ∀ a, Quiet t (f a)) : Quiet t (c >>= f) :=
  Call.Ensures.bind hc hf fun _ => id

theorem map (hc : Quiet t c) (h : α → β) : Quiet t (do return h (← c)) :=
  hc.bind fun a => pure (h a)

-- A table other than the one of ids is kept.
theorem keep {set : α → IssueSet → IssueSet} (hc : Quiet t c)
    (hs : ∀ a s, (set a s).toIssueTables = s.toIssueTables ∧ (set a s).indices.byId = s.indices.byId) :
    Quiet t (do let a ← c; .modify (set a); return a) := by
  refine hc.bind fun a s ⟨ht, hb⟩ => ⟨(hs a s).left.trans ht, fun i hi => ?_⟩
  exact (hs a s).left ▸ hb i ((hs a s).right ▸ hi)

end Quiet

section Queries

variable {t : IssueTables}

theorem quiet_ensureById : Quiet t ensureById := by
  intro s ⟨ht, hb⟩
  cases hi : s.byId
  case none =>
    have hr : s.indices.byId.or s.byId = none := (or_eq_of_coherent hb).trans hi
    rw [ensureById, Call.bind_read, hr]
    exact ⟨ht, hb⟩
  case some byId =>
    rw [ensureById_built hb hi]
    exact ⟨ht, fun i hm => Option.some.inj hm ▸ hi⟩

theorem quiet_ensureSeverityIndex : Quiet t ensureSeverityIndex :=
  (Quiet.read _).keep fun _ _ => ⟨rfl, rfl⟩

theorem quiet_ensureOpenIndex : Quiet t ensureOpenIndex :=
  (Quiet.read _).keep fun _ _ => ⟨rfl, rfl⟩

theorem quiet_ensureCoverageLinks : Quiet t ensureCoverageLinks :=
  (Quiet.read _).keep fun _ _ => ⟨rfl, rfl⟩

theorem quiet_buildWaiverIndices : Quiet t buildWaiverIndices := by
  refine quiet_ensureById.bind fun byId => ?_
  exact (Quiet.read _).keep fun _ _ => ⟨rfl, rfl⟩

theorem quiet_ensureWaiverIndices : Quiet t ensureWaiverIndices := by
  intro s hs
  rw [ensureWaiverIndices, Call.bind_get]
  cases s.indices.waiverIndices
  case some => exact hs
  case none => exact quiet_buildWaiverIndices s hs

theorem quiet_buildTpIndices : Quiet t buildTpIndices := by
  refine quiet_ensureById.bind fun byId => ?_
  exact (Quiet.read _).keep fun _ _ => ⟨rfl, rfl⟩

theorem quiet_ensureTpIndices : Quiet t ensureTpIndices := by
  intro s hs
  rw [ensureTpIndices, Call.bind_get]
  cases s.indices.tpIndices
  case some => exact hs
  case none => exact quiet_buildTpIndices s hs

theorem quiet_ask (q : IssueQuery) : Quiet t q.ask := by
  cases q
  case issues             => exact fun s hs => hs
  case get                => exact (quiet_ensureById.map _).map _
  case openIssues         => exact quiet_ensureOpenIndex.map _
  case issuesBySeverity   => exact (quiet_ensureSeverityIndex.map _).map _
  case issuesForWaiver    => exact (quiet_ensureWaiverIndices.map _).map _
  case issuesForTestpoint => exact (quiet_ensureTpIndices.map _).map _
  case waiversForIssue    =>
    exact (quiet_ensureWaiverIndices.bind fun _ => (Quiet.read _).map _).map _
  case testpointsForIssue =>
    exact (quiet_ensureTpIndices.bind fun _ => (Quiet.read _).map _).map _
  case coverageLinks      => exact quiet_ensureCoverageLinks.map _

end Queries

end IssueSet

-- The bytes of a set that can be stored.

def IssueTables.IssueRow.fields (row : IssueTables.IssueRow) : List (Nat × Int) :=
  [(2, row.id), (2, row.ext), (2, row.enums), (4, row.created), (4, row.updated), (4, row.synced)]

namespace IssueTables

variable {t : IssueTables}

def row (t : IssueTables) (i : Nat) : IssueRow where
  id      := t.idIdxs.getD i 0
  ext     := t.extIdxs.getD i 0
  enums   := t.enums.getD i 0
  created := t.created.getD i 0
  updated := t.updated.getD i 0
  synced  := t.synced.getD i 0

def rows (t : IssueTables) : List IssueRow :=
  (List.range t.idIdxs.length).map t.row

def headerFields (t : IssueTables) : List (Nat × Int) :=
  [(4, magic), (1, version), (4, 0), (4, t.idIdxs.length), (4, t.wl.length), (4, t.tl.length),
    (4, t.cl.length)]

def waiverFields : Nat × Nat → List (Nat × Int)
  | (waiver, issue) => [(2, waiver), (2, issue)]

def testpointFields : Nat × Nat × Int → List (Nat × Int)
  | (tp, issue, linkType) => [(2, tp), (2, issue), (1, linkType)]

def coverageFields : Nat × Nat × Nat × Int → List (Nat × Int)
  | (scope, bin, issue, linkType) => [(2, scope), (2, bin), (2, issue), (1, linkType)]

def bytes (t : IssueTables) : List UInt8 :=
  encodeFields t.headerFields ++ StringTable.serialize t.strings
    ++ t.rows.flatMap (encodeFields ·.fields) ++ t.wl.flatMap (encodeFields <| waiverFields ·)
    ++ t.tl.flatMap (encodeFields <| testpointFields ·) ++ t.cl.flatMap (encodeFields <| coverageFields ·)

-- Every number fits the bytes it is packed in.
structure Packs (t : IssueTables) : Prop where
  even     : t.Even
  numbered : t.Numbered
  nodup    : t.strings.Nodup
  pool     : t.strings.length ≤ 2 ^ 16
  issues   : t.idIdxs.length < 2 ^ 32
  enums    : ∀ n ∈ t.enums, n < 2 ^ 16
  created  : ∀ n ∈ t.created, 0 ≤ n ∧ n < 2 ^ 32
  updated  : ∀ n ∈ t.updated, 0 ≤ n ∧ n < 2 ^ 32
  synced   : ∀ n ∈ t.synced, 0 ≤ n ∧ n < 2 ^ 32
  tlTypes  : ∀ l ∈ t.tl, 0 ≤ l.snd.snd ∧ l.snd.snd < 2 ^ 8
  clTypes  : ∀ l ∈ t.cl, 0 ≤ l.snd.snd.snd ∧ l.snd.snd.snd < 2 ^ 8
  wlCount  : t.wl.length < 2 ^ 32
  tlCount  : t.tl.length < 2 ^ 32
  clCount  : t.cl.length < 2 ^ 32

-- The issues are no more than the strings are.
theorem Stored.length_ids_le (h : t.Stored) : t.idIdxs.length ≤ 2 ^ 16 := by
  have hs : t.idIdxs ⊆ List.range t.strings.length := fun i hi => List.mem_range.mpr (h.numbered.ids i hi)
  have hl := (h.distinct.subperm hs).length_le
  rw [List.length_range] at hl
  exact hl.trans h.pool

theorem Stored.packs (h : t.Stored) : t.Packs :=
  { h with issues := h.length_ids_le.trans_lt (by decide) }

theorem Packs.packable_header (h : t.Packs) : Packable t.headerFields := by
  have hi := h.issues
  have ⟨hw, ht, hc⟩ : t.wl.length < 2 ^ 32 ∧ t.tl.length < 2 ^ 32 ∧ t.cl.length < 2 ^ 32 :=
    ⟨h.wlCount, h.tlCount, h.clCount⟩
  simp only [headerFields, packable_cons, packable_nil, and_true, magic, version]
  omega

theorem getD_of_forall {α : Type} {p : α → Prop} {xs : List α} {i : Nat} (h : ∀ x ∈ xs, p x)
    (hi : i < xs.length) (d : α) : p (xs.getD i d) :=
  List.getD_eq_getElem _ d hi ▸ h _ (List.getElem_mem hi)

theorem Packs.row_id (h : t.Packs) {i : Nat} (hi : i < t.idIdxs.length) : (t.row i).id < t.strings.length :=
  getD_of_forall h.numbered.ids hi 0

theorem Packs.row_ext (h : t.Packs) {i : Nat} (hi : i < t.idIdxs.length) : (t.row i).ext < t.strings.length :=
  getD_of_forall h.numbered.ext (h.even.ext ▸ hi) 0

theorem Packs.packable_row (h : t.Packs) {i : Nat} (hi : i < t.idIdxs.length) :
    Packable (t.row i).fields := by
  have hv := h.even
  have hp := h.pool
  have hid := h.row_id hi
  have hext := h.row_ext hi
  have henums : (t.row i).enums < 2 ^ 16 := getD_of_forall h.enums (hv.enums ▸ hi) 0
  have hcreated := getD_of_forall h.created (hv.created ▸ hi) 0
  have hupdated := getD_of_forall h.updated (hv.updated ▸ hi) 0
  have hsynced := getD_of_forall h.synced (hv.synced ▸ hi) 0
  simp only [IssueRow.fields, packable_cons, packable_nil, and_true]
  refine ⟨?_, ?_, ?_, hcreated, hupdated, hsynced⟩ <;> omega

theorem Packs.issueRecord (h : t.Packs) {i : Nat} (hi : i < t.idIdxs.length) :
    t.issueRecord i = pack (t.row i).fields := by
  have hv := h.even
  have hget : ∀ {α : Type} {xs : List α} {d : α}, i < xs.length → xs[i]? = some (xs.getD i d) :=
    fun hl => (List.getElem?_eq_getElem hl).trans (congrArg some (List.getD_eq_getElem _ _ hl).symm)
  have hid : t.idIdxs[i]? = some (t.row i).id := hget hi
  have hext : t.extIdxs[i]? = some (t.row i).ext := hget (hv.ext ▸ hi)
  have henums : t.enums[i]? = some (t.row i).enums := hget (hv.enums ▸ hi)
  have hcreated : t.created[i]? = some (t.row i).created := hget (hv.created ▸ hi)
  have hupdated : t.updated[i]? = some (t.row i).updated := hget (hv.updated ▸ hi)
  have hsynced : t.synced[i]? = some (t.row i).synced := hget (hv.synced ▸ hi)
  exact (bind_of_eq_some hid _).trans <| (bind_of_eq_some hext _).trans <| (bind_of_eq_some henums _).trans <|
    (bind_of_eq_some hcreated _).trans <| (bind_of_eq_some hupdated _).trans (bind_of_eq_some hsynced _)

theorem Packs.packable_links (h : t.Packs) : (∀ l ∈ t.wl, Packable (waiverFields l)) ∧
    (∀ l ∈ t.tl, Packable (testpointFields l)) ∧ ∀ l ∈ t.cl, Packable (coverageFields l) := by
  have hp := h.pool
  refine ⟨fun ⟨waiver, issue⟩ hm => ?_, fun ⟨tp, issue, linkType⟩ hm => ?_, fun ⟨scope, bin, issue, linkType⟩ hm => ?_⟩
  case refine_1 =>
    have hn : waiver < _ ∧ issue < _ := h.numbered.wl _ hm
    simp only [waiverFields, packable_cons, packable_nil, and_true]
    omega
  case refine_2 =>
    have hn : tp < _ ∧ issue < _ := h.numbered.tl _ hm
    have ht : 0 ≤ linkType ∧ linkType < _ := h.tlTypes _ hm
    simp only [testpointFields, packable_cons, packable_nil, and_true]
    omega
  case refine_3 =>
    have hn : scope < _ ∧ bin < _ ∧ issue < _ := h.numbered.cl _ hm
    have ht : 0 ≤ linkType ∧ linkType < _ := h.clTypes _ hm
    simp only [coverageFields, packable_cons, packable_nil, and_true]
    omega

theorem Packs.serialize (h : t.Packs) : t.serialize = some t.bytes := by
  have ⟨hw, ht, hc⟩ := h.packable_links
  have hi : (List.range t.idIdxs.length).mapM t.issueRecord = _ := mapM_pack fun i hm =>
    ⟨h.issueRecord (List.mem_range.mp hm), h.packable_row (List.mem_range.mp hm)⟩
  have hwl : t.wl.mapM waiverRecord = _ := mapM_pack fun l hm => ⟨rfl, hw l hm⟩
  have htl : t.tl.mapM testpointRecord = _ := mapM_pack fun l hm => ⟨rfl, ht l hm⟩
  have hcl : t.cl.mapM coverageRecord = _ := mapM_pack fun l hm => ⟨rfl, hc l hm⟩
  have hh : t.header = _ := pack_of_packable h.packable_header
  rw [IssueTables.serialize, hh, hi, hwl, htl, hcl, bytes, rows, List.flatMap_map]
  simp only [List.flatMap_def]
  rfl

end IssueTables

namespace IssueSet

variable {s : IssueSet} {spec : IssueSpec}

-- What every change leaves behind.
structure Storable (s : IssueSet) : Prop where
  stored   : s.Stored
  builtIds : s.BuiltIds

theorem storable_empty : Storable {} :=
  ⟨IssueTables.stored_empty, fun i hi => (Option.not_mem_none i hi).elim⟩

theorem addIssue_known (h : s.Storable) (hid : s.HasId spec.id) :
    (addIssue spec s).snd.Storable ∧ (addIssue spec s).snd.toIssueTables = s.toIssueTables := by
  have ⟨byId, hb⟩ := h.stored.numbered.exists_byId
  rw [addIssue_present (ensureById_built h.builtIds hb) ((IssueTables.mem_byId_iff hb).mpr hid)]
  exact ⟨⟨h.stored, fun i hi => Option.some.inj hi ▸ hb⟩, rfl⟩

theorem addIssue_new (h : s.Storable) (hid : ¬s.HasId spec.id) (hr : s.RoomFor [spec.id, spec.ext])
    (hs : spec.Stamped) : (addIssue spec s).snd.Storable ∧ (addIssue spec s).fst ≠ none := by
  have ⟨byId, hb⟩ := h.stored.numbered.exists_byId
  have hm : spec.id ∉ byId.keys := fun hm => hid ((IssueTables.mem_byId_iff hb).mp hm)
  have hadd := addIssue_stored (ensureById_built h.builtIds hb) hm hr.head hr.tail.head hs
  rw [hadd]
  refine ⟨⟨?_, fun i hi => Option.some.inj hi ▸ ?_⟩, nofun⟩
  case refine_1 => exact @stored_withIssue _ _ byId h.stored hid hr.head hr.tail.head hs
  case refine_2 => exact byId_withIssue (s := { s with indices.byId := some byId }) hb spec

theorem updateIssue_absent {idx : Nat} (hm : spec.ext ∈ s.strings) (hi : ¬idx < s.extIdxs.length) :
    updateIssue idx spec s = (none, s) := by
  have hw : s.withString spec.ext = s := by rw [withString, intern.snd_of_mem hm]
  rw [updateIssue, bind_addString, bind_checkU16, hw]
  split
  case isTrue  => exact (Call.bind_check ..).trans (if_neg (ne_true_of_eq_false (decide_eq_false hi)))
  case isFalse => rfl

-- The columns are even, so that an issue that is not in one of them is in none.
theorem updateIssue_foreign {idx : Nat} (h : s.Even) (hm : spec.ext ∈ s.strings) (hi : ¬s.HasIssue idx) :
    updateIssue idx spec s = (none, s) := by
  refine updateIssue_absent hm fun hl => hi ⟨hl, ?_, ?_, ?_, ?_⟩
  case refine_1 => rwa [h.enums, ← h.ext]
  case refine_2 => rwa [h.created, ← h.ext]
  case refine_3 => rwa [h.updated, ← h.ext]
  case refine_4 => rwa [h.synced, ← h.ext]

end IssueSet

namespace IssueStep

variable {s : IssueSet}

def Raises (s : IssueSet) : IssueStep → Prop
  | addIssue spec                              => (s.addIssue spec).fst = none
  | updateIssue idx spec                       => (s.updateIssue idx spec).fst = none
  | addWaiverLink waiverId issueId             => (s.addWaiverLink waiverId issueId).fst = none
  | addTestpointLink tpName issueId linkType   => (s.addTestpointLink tpName issueId linkType).fst = none
  | addCoverageLink scope bin issueId linkType => (s.addCoverageLink scope bin issueId linkType).fst = none
  | query q                                    => (q.ask s).fst = none

-- There is room for what is added and for its strings. What is refused has nothing to be stored first.
def Fits (s : IssueSet) : IssueStep → Prop
  | addIssue spec                              =>
    s.HasId spec.id ∨ s.RoomFor [spec.id, spec.ext] ∧ spec.Stamped
  | updateIssue idx spec                       =>
    s.HasIssue idx ∧ s.RoomFor [spec.ext] ∧ spec.Stamped ∨ ¬s.HasIssue idx ∧ spec.ext ∈ s.strings
  | addWaiverLink waiverId issueId             =>
    s.RoomFor [waiverId, issueId] ∧ s.wl.length + 1 < 2 ^ 32
  | addTestpointLink tpName issueId linkType   =>
    s.RoomFor [tpName, issueId] ∧ s.tl.length + 1 < 2 ^ 32 ∧ 0 ≤ linkType ∧ linkType < 2 ^ 8
  | addCoverageLink scope bin issueId linkType =>
    s.RoomFor [scope, bin, issueId] ∧ s.cl.length + 1 < 2 ^ 32 ∧ 0 ≤ linkType ∧ linkType < 2 ^ 8
  | query _                                    => True

-- A step leaves a set that can be stored, and leaves it alone where it raises.
theorem storable_apply (h : s.Storable) (step : IssueStep) (hf : step.Fits s) :
    (step.apply s).Storable ∧ (step.Raises s → (step.apply s).toIssueTables = s.toIssueTables) := by
  have hs := h.stored
  have hgrown : ∀ string, s.strings <+: (s.withString string).strings :=
    fun string => intern.extends_table ..
  cases step
  case addIssue spec =>
    by_cases hid : s.HasId spec.id
    case pos =>
      have ⟨hs', ht⟩ := IssueSet.addIssue_known h hid
      exact ⟨hs', fun _ => ht⟩
    case neg =>
      have ⟨hr, hst⟩ := hf.resolve_left hid
      have ⟨hs', hn⟩ := IssueSet.addIssue_new h hid hr hst
      exact ⟨hs', fun hr => absurd hr hn⟩
  case updateIssue idx spec =>
    rcases hf with ⟨hi, hr, hst⟩ | ⟨hi, hm⟩
    case inl =>
      rw [apply, Raises, IssueSet.updateIssue_stored hr.head hi hst]
      exact ⟨⟨IssueSet.stored_setIssue hs hr.head hst, nofun⟩, nofun⟩
    case inr =>
      rw [apply, IssueSet.updateIssue_foreign hs.even hm hi]
      exact ⟨h, fun _ => rfl⟩
  case addWaiverLink waiverId issueId =>
    refine ⟨⟨IssueSet.stored_addWaiverLink hs hf.left hf.right, ?_⟩, nofun⟩
    exact h.builtIds.grown (internInto_extends_table s.strings [waiverId, issueId])
  case addTestpointLink tpName issueId linkType =>
    refine ⟨⟨IssueSet.stored_addTestpointLink hs hf.left hf.right.left hf.right.right, ?_⟩, nofun⟩
    exact h.builtIds.grown (internInto_extends_table s.strings [tpName, issueId])
  case addCoverageLink scope bin issueId linkType =>
    refine ⟨⟨IssueSet.stored_addCoverageLink hs hf.left hf.right.left hf.right.right, ?_⟩, nofun⟩
    exact h.builtIds.grown (internInto_extends_table s.strings [scope, bin, issueId])
  case query q =>
    have ⟨ht, hb⟩ := IssueSet.quiet_ask q s ⟨rfl, h.builtIds⟩
    exact ⟨⟨ht ▸ hs, hb⟩, fun _ => ht⟩

end IssueStep

namespace IssueSet

theorem storable_of_reached {s : IssueSet} (h : ReachedBy IssueStep.apply IssueStep.Fits {} s) :
    s.Storable :=
  h.invariant storable_empty fun _ step hs hf => (IssueStep.storable_apply hs step hf).left

-- A set of issues is changed as a whole or not at all, and can be stored at any time.
theorem changed_as_a_whole {s : IssueSet}
    (h : ReachedBy IssueStep.apply IssueStep.Fits {} s) :
    (s.Even ∧ s.Numbered ∧ ∃ bytes, s.serialize = some bytes) ∧
      ∀ step : IssueStep, step.Fits s → step.Raises s → (step.apply s).toIssueTables = s.toIssueTables := by
  have hs := storable_of_reached h
  refine ⟨⟨hs.stored.even, hs.stored.numbered, _, hs.stored.packs.serialize⟩, fun step hf => ?_⟩
  exact (IssueStep.storable_apply hs step hf).right

theorem changed_as_a_whole_two :
    let s := IssueStep.apply (.updateIssue 0 { id := "A", ext := "X" }) (IssueStep.apply (.addIssue { id := "A" }) {})
    (IssueStep.apply (.addIssue { id := "A", severity := 4 }) s).toIssueTables = s.toIssueTables := by
  intro s
  have hst : ∀ id ext, IssueSpec.Stamped { id, ext } := fun id ext => ⟨by simp, by simp, by simp⟩
  have hadd : IssueStep.Fits {} (.addIssue { id := "A" }) := Or.inr ⟨by decide +kernel, hst "A" ""⟩
  have hset : IssueStep.Fits (IssueStep.apply (.addIssue { id := "A" }) {})
      (.updateIssue 0 { id := "A", ext := "X" }) :=
    Or.inl ⟨⟨by decide +kernel, by decide +kernel, by decide +kernel, by decide +kernel, by decide +kernel⟩,
      by decide +kernel, hst "A" "X"⟩
  have hraises : (s.addIssue { id := "A", severity := 4 }).fst = none := by decide +kernel
  refine (changed_as_a_whole (.step _ (.step _ .start hadd) hset)).right (.addIssue { id := "A", severity := 4 }) ?_ hraises
  exact Or.inl ⟨1, by decide +kernel⟩

-- A time before 1970 is refused once the id and the severity have been stored.
theorem addIssue_torn :
    let call := IssueSet.addIssue { id := "A", createdAt := -1 } {}
    call.fst = none ∧ call.snd.idIdxs.length ≠ call.snd.created.length ∧ call.snd.serialize = none := by
  decide +kernel

end IssueSet

end Issues

-- A set of issues comes back from its bytes.

namespace Issues

namespace IssueTables

variable {t : IssueTables}

theorem unpackIssue_fields {row : IssueRow} (h : Packable row.fields) (rest : List UInt8) :
    unpackIssue (encodeFields row.fields ++ rest) = some (row, rest) := by
  simp only [IssueRow.fields, packable_cons] at h
  obtain ⟨hid, hext, henums, hcreated, hupdated, hsynced, -⟩ := h
  simp only [unpackIssue, IssueRow.fields, decodeFixed_encodeFields, hid, hext, henums, hcreated, hupdated,
    hsynced, and_self, Option.bind_eq_bind, Option.bind_some, encodeFields_nil, Int.toNat_natCast,
    Int.toNat_of_nonneg]
  rfl

theorem unpackWaiverLink_fields {l : Nat × Nat} (h : Packable (waiverFields l)) (rest : List UInt8) :
    unpackWaiverLink (encodeFields (waiverFields l) ++ rest) = some (l, rest) := by
  obtain ⟨waiver, issue⟩ := l
  simp only [waiverFields, packable_cons] at h
  simp only [unpackWaiverLink, waiverFields, decodeFixed_encodeFields, h, and_self, Option.bind_eq_bind,
    Option.bind_some, encodeFields_nil, Int.toNat_natCast]
  rfl

theorem unpackTestpointLink_fields {l : Nat × Nat × Int} (h : Packable (testpointFields l)) (rest : List UInt8) :
    unpackTestpointLink (encodeFields (testpointFields l) ++ rest) = some (l, rest) := by
  obtain ⟨tp, issue, linkType⟩ := l
  simp only [testpointFields, packable_cons] at h
  simp only [unpackTestpointLink, testpointFields, decodeFixed_encodeFields, h, and_self, Option.bind_eq_bind,
    Option.bind_some, encodeFields_nil, Int.toNat_natCast, Int.toNat_of_nonneg]
  rfl

theorem unpackCoverageLink_fields {l : Nat × Nat × Nat × Int} (h : Packable (coverageFields l))
    (rest : List UInt8) : unpackCoverageLink (encodeFields (coverageFields l) ++ rest) = some (l, rest) := by
  obtain ⟨scope, bin, issue, linkType⟩ := l
  simp only [coverageFields, packable_cons] at h
  simp only [unpackCoverageLink, coverageFields, decodeFixed_encodeFields, h, and_self, Option.bind_eq_bind,
    Option.bind_some, encodeFields_nil, Int.toNat_natCast, Int.toNat_of_nonneg]
  rfl

-- The entries of a column, one after the other.
theorem map_range_getD {α : Type} {xs : List α} {n : Nat} (h : xs.length = n) (d : α) :
    (List.range n).map (xs.getD · d) = xs := by
  refine List.ext_getElem (by simpa using h.symm) fun i hi hx => ?_
  rw [List.getElem_map, List.getElem_range, List.getD_eq_getElem _ _ hx]

namespace Packs

-- The records are taken off one after the other.

theorem decodeMany_rows (h : t.Packs) (rest : List UInt8) :
    decodeMany unpackIssue t.idIdxs.length (t.rows.flatMap (encodeFields ·.fields) ++ rest) = some (t.rows, rest) := by
  have hl : t.rows.length = t.idIdxs.length := by rw [rows, List.length_map, List.length_range]
  refine hl ▸ decodeMany_flatMap (fun row hm rest => unpackIssue_fields ?_ rest) rest
  have ⟨i, hi, he⟩ := List.mem_map.mp hm
  exact he ▸ h.packable_row (List.mem_range.mp hi)

theorem decodeMany_waivers (h : t.Packs) (rest : List UInt8) :
    decodeMany unpackWaiverLink t.wl.length (t.wl.flatMap (encodeFields <| waiverFields ·) ++ rest) = some (t.wl, rest) :=
  decodeMany_flatMap (fun l hm => unpackWaiverLink_fields (h.packable_links.left l hm)) rest

theorem decodeMany_testpoints (h : t.Packs) (rest : List UInt8) :
    decodeMany unpackTestpointLink t.tl.length (t.tl.flatMap (encodeFields <| testpointFields ·) ++ rest) =
      some (t.tl, rest) :=
  decodeMany_flatMap (fun l hm => unpackTestpointLink_fields (h.packable_links.right.left l hm)) rest

theorem decodeMany_coverage (h : t.Packs) :
    decodeMany unpackCoverageLink t.cl.length (t.cl.flatMap (encodeFields <| coverageFields ·)) = some (t.cl, []) := by
  have hc := decodeMany_flatMap (fun l hm => unpackCoverageLink_fields (h.packable_links.right.right l hm)) []
  rwa [List.append_nil] at hc

-- The columns of the rows are those of the tables.
theorem columns_rows (h : t.Packs) : { t with
    idIdxs  := t.rows.map IssueRow.id
    extIdxs := t.rows.map IssueRow.ext
    enums   := t.rows.map IssueRow.enums
    created := t.rows.map IssueRow.created
    updated := t.rows.map IssueRow.updated
    synced  := t.rows.map IssueRow.synced } = t := by
  have hv := h.even
  have hids : t.rows.map IssueRow.id = t.idIdxs := List.map_map.trans (map_range_getD rfl 0)
  have hext : t.rows.map IssueRow.ext = t.extIdxs := List.map_map.trans (map_range_getD hv.ext 0)
  have henums : t.rows.map IssueRow.enums = t.enums := List.map_map.trans (map_range_getD hv.enums 0)
  have hcreated : t.rows.map IssueRow.created = t.created := List.map_map.trans (map_range_getD hv.created 0)
  have hupdated : t.rows.map IssueRow.updated = t.updated := List.map_map.trans (map_range_getD hv.updated 0)
  have hsynced : t.rows.map IssueRow.synced = t.synced := List.map_map.trans (map_range_getD hv.synced 0)
  rw [hids, hext, henums, hcreated, hupdated, hsynced]

theorem fromBytes (h : t.Packs) : fromBytes t.bytes = some t := by
  have hhead := h.packable_header
  simp only [headerFields, packable_cons] at hhead
  obtain ⟨hm, hver, hz, hni, hnw, hnt, hnc, -⟩ := hhead
  have hguard : ∀ n : Nat, (guard (((n : Nat) : Int).toNat = n) : Option Unit) = some () :=
    fun n => if_pos (Int.toNat_natCast n)
  rw [bytes, headerFields, List.append_assoc, List.append_assoc, List.append_assoc, List.append_assoc,
    IssueTables.fromBytes]
  refine (bind_of_eq_some (decodeFixed_encodeFields hm _) _).trans ?_
  refine (bind_of_eq_some (decodeFixed_encodeFields hver _) _).trans ?_
  refine (bind_of_eq_some (decodeFixed_encodeFields hz _) _).trans ?_
  refine (bind_of_eq_some (decodeFixed_encodeFields hni _) _).trans ?_
  refine (bind_of_eq_some (decodeFixed_encodeFields hnw _) _).trans ?_
  refine (bind_of_eq_some (decodeFixed_encodeFields hnt _) _).trans ?_
  refine (bind_of_eq_some (decodeFixed_encodeFields hnc _) _).trans ?_
  refine (bind_of_eq_some (hguard magic) _).trans ?_
  refine (bind_of_eq_some (hguard version) _).trans ?_
  refine (bind_of_eq_some (StringTable.fromBytes_serialize h.nodup _) _).trans ?_
  refine (bind_of_eq_some (StringTable.skip_serialize t.strings _) _).trans ?_
  refine (bind_of_eq_some (h.decodeMany_rows _) _).trans ?_
  refine (bind_of_eq_some (h.decodeMany_waivers _) _).trans ?_
  refine (bind_of_eq_some (h.decodeMany_testpoints _) _).trans ?_
  exact (bind_of_eq_some h.decodeMany_coverage _).trans <| congrArg some h.columns_rows

end Packs

end IssueTables

end Issues
