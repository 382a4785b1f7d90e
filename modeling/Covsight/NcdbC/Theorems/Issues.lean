import Covsight.Ncdb.Theorems.IssuesCodec
import Covsight.NcdbC.Issues
import Covsight.NcdbC.Theorems.HistoryMember

-- The C library reads the issues and the links that the Python library stored, as long as no string
-- has a zero byte in it.

open Decoder StringTable

namespace NcdbIssues

-- The issues and the links of a set, told by the bytes of their strings.

def string (t : Issues.IssueTables) (i : Nat) : CString :=
  utf8 (t.strings.getD i "")

def issue (t : Issues.IssueTables) (row : Issues.IssueTables.IssueRow) : NcdbIssue where
  id         := string t row.id
  ext        := string t row.ext
  severity   := Issues.severityOf row.enums
  kind       := Issues.kindOf row.enums
  state      := Issues.stateOf row.enums
  resolution := Issues.resolutionOf row.enums
  createdAt  := row.created.toNat
  updatedAt  := row.updated.toNat
  syncedAt   := row.synced.toNat

def ofTables (t : Issues.IssueTables) : NcdbIssues where
  strings := t.strings.map utf8
  issues  := t.rows.map (issue t)
  wl      := t.wl.map fun (waiver, issue) => ⟨string t waiver, string t issue⟩
  tl      := t.tl.map fun (tp, issue, linkType) => ⟨string t tp, string t issue, linkType.toNat⟩
  cl      := t.cl.map fun (scope, bin, issue, linkType) =>
    ⟨string t scope, string t bin, string t issue, linkType.toNat⟩

end NcdbIssues

-- Strings that are not cut short.
structure Uncut (strings : List String) : Prop where
  no_zero : ∀ s ∈ strings, 0 ∉ utf8 s
  small   : ∀ s ∈ strings, (utf8 s).length < 2 ^ 64
  count   : strings.length < 2 ^ 64

section Strings

variable {strings : List String}

theorem length_utf8_le {s : String} (h : s ∈ strings) : (utf8 s).length ≤ (serialize strings).length :=
  calc (utf8 s).length
    _ ≤ (encode s).length                  := (List.suffix_append ..).length_le
    _ ≤ (strings.flatMap encode).length    := (List.sublist_flatten_of_mem (List.mem_map_of_mem h)).length_le
    _ ≤ (serialize strings).length         := (List.suffix_append ..).length_le

theorem foldl_stringsAdd (ss : List CString) : ss.foldl stringsAdd [] = internAll ss := by
  refine congrArg (List.foldl · [] ss) (funext fun tab => funext fun s => ?_)
  rw [stringsAdd, intern]
  split <;> rfl

theorem reads_stringsDeserialize {p : NcdbPlatform} (hp : ∀ i, p.stores i) (hn : strings.Nodup)
    (h : Uncut strings) : (stringsDeserialize p).Reads (serialize strings) (strings.map utf8) := by
  have hc := reads_varint (UInt64.ofNat strings.length)
  rw [UInt64.toNat_ofNat_of_lt' h.count] at hc
  have hall : strings.foldl (fun tab s => stringsAdd tab (utf8 s)) [] = strings.map utf8 := by
    rw [← List.foldl_map, foldl_stringsAdd, internAll_of_nodup (hn.map utf8_injective)]
  refine hc.bind (hall ▸ reads_records h.count (fun s hs i tab => ?_) [])
  have hf : CString.Formed (utf8 s) := ⟨h.no_zero s hs, h.small s hs⟩
  have hr : readLpStr.Reads (encode s) (utf8 s) :=
    cString_of_formed hf ▸ (reads_copy (utf8 s) hf.small).map cString
  exact hr.bind_pure ((reads_check (hp i)).bind (reads_pure _))

theorem reads_scanStringTableEnd (h : Uncut strings) : scanStringTableEnd.Reads (serialize strings) () := by
  have hc := reads_varint (UInt64.ofNat strings.length)
  rw [UInt64.toNat_ofNat_of_lt' h.count] at hc
  refine hc.bind ?_
  rw [UInt64.toNat_ofNat_of_lt' h.count]
  have hu : strings.foldl (fun _ _ => ()) () = () := rfl
  refine hu ▸ reads_recordsFrom (fun s hs i _ => ?_) 0 ()
  have hl : (UInt64.ofNat (utf8 s).length).toNat = (utf8 s).length :=
    UInt64.toNat_ofNat_of_lt' (h.small s hs)
  have hv := reads_varint (UInt64.ofNat (utf8 s).length)
  rw [hl] at hv
  exact hv.bind ((reads_skip hl).room hl.le)

theorem reads_getStringChecked {t : Issues.IssueTables} {i : Nat} (hi : i < t.strings.length) :
    (getStringChecked (t.strings.map utf8) i).Reads [] (NcdbIssues.string t i) := by
  have hs : (t.strings.map utf8)[i]? = some (NcdbIssues.string t i) := by
    rw [List.getElem?_map, List.getElem?_eq_getElem hi, NcdbIssues.string, List.getD_eq_getElem _ _ hi]
    rfl
  rw [getStringChecked, hs]
  exact reads_pure _

end Strings

section Records

open Issues.IssueTables

variable {t : Issues.IssueTables}

theorem reads_readIssue {row : IssueRow} (hp : Packable row.fields) (hid : row.id < t.strings.length)
    (hext : row.ext < t.strings.length) :
    (readIssue (t.strings.map utf8)).Reads (encodeFields row.fields) (NcdbIssues.issue t row) := by
  simp only [IssueRow.fields, packable_cons] at hp
  obtain ⟨hi, hx, he, hc, hu, hs, -⟩ := hp
  refine Reads.room (.field hi <| .field hx <| .field he ?_) (Nat.le_refl 18)
  refine (reads_getStringChecked hid).bind <| (reads_getStringChecked hext).bind ?_
  exact .field hc <| .field hu <| .field hs <| reads_pure _

theorem reads_readWaiverLink (h : t.Numbered) {l : Nat × Nat} (hl : l ∈ t.wl) (hp : Packable (waiverFields l)) :
    (readWaiverLink (t.strings.map utf8)).Reads (encodeFields (waiverFields l))
      ⟨NcdbIssues.string t l.fst, NcdbIssues.string t l.snd⟩ := by
  obtain ⟨waiver, issue⟩ := l
  have ⟨hw, hi⟩ := h.wl _ hl
  simp only [waiverFields, packable_cons] at hp
  refine Reads.room (.field hp.left <| .field hp.right.left ?_) (Nat.le_refl 4)
  exact (reads_getStringChecked hw).bind <| (reads_getStringChecked hi).bind <| reads_pure _

theorem reads_readTpLink (h : t.Numbered) {l : Nat × Nat × Int} (hl : l ∈ t.tl) (hp : Packable (testpointFields l)) :
    (readTpLink (t.strings.map utf8)).Reads (encodeFields (testpointFields l))
      ⟨NcdbIssues.string t l.fst, NcdbIssues.string t l.snd.fst, l.snd.snd.toNat⟩ := by
  obtain ⟨tp, issue, linkType⟩ := l
  have ⟨ht, hi⟩ := h.tl _ hl
  simp only [testpointFields, packable_cons] at hp
  refine Reads.room (.field hp.left <| .field hp.right.left ?_) (Nat.le_refl 5)
  refine (reads_getStringChecked ht).bind <| (reads_getStringChecked hi).bind ?_
  exact .field hp.right.right.left <| reads_pure _

theorem reads_readCovLink (h : t.Numbered) {l : Nat × Nat × Nat × Int} (hl : l ∈ t.cl) (hp : Packable (coverageFields l)) :
    (readCovLink (t.strings.map utf8)).Reads (encodeFields (coverageFields l))
      ⟨NcdbIssues.string t l.fst, NcdbIssues.string t l.snd.fst, NcdbIssues.string t l.snd.snd.fst,
        l.snd.snd.snd.toNat⟩ := by
  obtain ⟨scope, bin, issue, linkType⟩ := l
  have ⟨hs, hb, hi⟩ := h.cl _ hl
  simp only [coverageFields, packable_cons] at hp
  refine Reads.room (.field hp.left <| .field hp.right.left <| .field hp.right.right.left ?_) (Nat.le_refl 7)
  refine (reads_getStringChecked hs).bind <| (reads_getStringChecked hb).bind <|
    (reads_getStringChecked hi).bind ?_
  exact .field hp.right.right.right.left <| reads_pure _

end Records

section Parse

open Issues.IssueTables

variable {t : Issues.IssueTables} {p : NcdbPlatform}

theorem reads_checkedCalloc (hp : ∀ n, p.calloc n) (count : Nat) : (checkedCalloc p count).Reads [] () :=
  reads_check (decide_eq_true (.inr (hp _)))

theorem reads_ncdbIssuesParse (h : t.Stored) (hu : Uncut t.strings) (hc : ∀ n, p.calloc n)
    (hp : ∀ i, p.stores i) : (ncdbIssuesParse p).Reads t.bytes (NcdbIssues.ofTables t) := by
  obtain ⟨hw, ht, hcl⟩ := h.packs.packable_links
  have hhead := h.packs.packable_header
  simp only [headerFields, packable_cons] at hhead
  obtain ⟨hm, hver, hz, hni, hnw, hnt, hnc, -⟩ := hhead
  have hrows : t.rows.length = t.idIdxs.length := by rw [rows, List.length_map, List.length_range]
  have hissue : ∀ row ∈ t.rows, (readIssue (t.strings.map utf8)).Reads (encodeFields row.fields)
      (NcdbIssues.issue t row) := by
    intro row hm
    obtain ⟨i, hi, he⟩ := List.mem_map.mp hm
    have hi := List.mem_range.mp hi
    exact reads_readIssue (he ▸ h.packs.packable_row hi) (he ▸ h.packs.row_id hi) (he ▸ h.packs.row_ext hi)
  have hissues := reads_many hissue
  have hwl := reads_many fun l hl => reads_readWaiverLink h.numbered hl (hw l hl)
  have htl := reads_many fun l hl => reads_readTpLink h.numbered hl (ht l hl)
  have hcl := reads_many fun l hl => reads_readCovLink h.numbered hl (hcl l hl)
  rw [hrows] at hissues
  rw [bytes, List.append_assoc, List.append_assoc, List.append_assoc, List.append_assoc]
  refine Reads.room (.field_append hm <| .field_append hver <| .field_append hz <| .field_append hni <|
    .field_append hnw <| .field_append hnt <| .field_append hnc ?_) ?_
  case refine_1 =>
    refine (reads_check (decide_eq_true rfl)).bind <| (reads_check (decide_eq_true rfl)).bind ?_
    refine Reads.aside (reads_stringsDeserialize hp h.nodup hu) ?_
    refine (reads_scanStringTableEnd hu).bind ?_
    refine (reads_checkedCalloc hc _).bind <| (reads_checkedCalloc hc _).bind <|
      (reads_checkedCalloc hc _).bind <| (reads_checkedCalloc hc _).bind ?_
    refine hissues.bind <| hwl.bind <| htl.bind <| hcl.bind_pure <| reads_pure _
  case refine_2 =>
    have hl : (encodeFields t.headerFields).length = 25 := rfl
    rw [List.length_append, hl]
    exact Nat.le_add_right ..

end Parse

-- No string that is kept has a zero byte.
def Issues.IssueStep.ZeroFree (s : Issues.IssueSet) : Issues.IssueStep → Prop
  | addIssue spec                        => s.HasId spec.id ∨ 0 ∉ utf8 spec.id ∧ 0 ∉ utf8 spec.ext
  | updateIssue _ spec                   => 0 ∉ utf8 spec.ext
  | addWaiverLink waiverId issueId       => 0 ∉ utf8 waiverId ∧ 0 ∉ utf8 issueId
  | addTestpointLink tpName issueId _    => 0 ∉ utf8 tpName ∧ 0 ∉ utf8 issueId
  | addCoverageLink scope bin issueId _  => 0 ∉ utf8 scope ∧ 0 ∉ utf8 bin ∧ 0 ∉ utf8 issueId
  | query _                              => True

namespace Issues.IssueSet

variable {s : IssueSet}

def ZeroFree (s : IssueSet) : Prop :=
  ∀ string ∈ s.strings, 0 ∉ utf8 string

theorem ZeroFree.withString (h : s.ZeroFree) {string : String} (hz : 0 ∉ utf8 string) :
    (s.withString string).ZeroFree :=
  fun _ hm => (intern.mem_iff.mp hm).elim (h _) fun he => he ▸ hz

theorem zeroFree_apply (hs : s.Storable) (hz : s.ZeroFree) (step : IssueStep) (hf : step.Fits s)
    (h : step.ZeroFree s) : (step.apply s).ZeroFree := by
  cases step
  case addIssue spec =>
    by_cases hid : s.HasId spec.id
    case pos =>
      obtain ⟨_, ht⟩ := addIssue_known hs hid
      exact fun string hm => hz string (ht ▸ hm)
    case neg =>
      obtain ⟨hr, hst⟩ := hf.resolve_left hid
      obtain ⟨hi, hx⟩ := h.resolve_left hid
      obtain ⟨byId, hb⟩ := hs.stored.numbered.exists_byId
      have hm : spec.id ∉ byId.keys := fun hm => hid ((IssueTables.mem_byId_iff hb).mp hm)
      have hadd := addIssue_stored (ensureById_built hs.builtIds hb) hm hr.head hr.tail.head hst
      rw [IssueStep.apply, hadd]
      exact (hz.withString hi).withString hx
  case updateIssue idx spec =>
    rcases hf with ⟨hi, hr, hst⟩ | ⟨hi, hm⟩
    case inl =>
      rw [IssueStep.apply, updateIssue_stored hr.head hi hst]
      exact hz.withString h
    case inr =>
      rw [IssueStep.apply, updateIssue_foreign hs.stored.even hm hi]
      exact hz
  case addWaiverLink         => exact (hz.withString h.left).withString h.right
  case addTestpointLink      => exact (hz.withString h.left).withString h.right
  case addCoverageLink       => exact ((hz.withString h.left).withString h.right.left).withString h.right.right
  case query q               =>
    obtain ⟨ht, _⟩ := quiet_ask q s ⟨rfl, hs.builtIds⟩
    exact fun string hm => hz string (ht ▸ hm)

-- What the step leaves is stored by the one library and read by both.
theorem stored_read_back
    (h : ReachedBy IssueStep.apply (fun s step => step.Fits s ∧ step.ZeroFree s) {} s) :
    ∃ bytes, s.serialize = some bytes ∧ IssueTables.fromBytes bytes = some s.toIssueTables ∧
      ∀ (p : NcdbPlatform) (r : Reading), (∀ n, p.calloc n) → (∀ i, p.stores i) → (∀ n, r.malloc n) →
        r.buffer.bytes = bytes → (ncdbIssuesParse p r {}).fst = .done (NcdbIssues.ofTables s.toIssueTables) := by
  have hempty : ZeroFree {} := List.forall_mem_singleton.mpr nofun
  obtain ⟨hs, hz⟩ := h.invariant (p := fun s => s.Storable ∧ s.ZeroFree) ⟨storable_empty, hempty⟩
    fun s step ⟨hs, hz⟩ ⟨hf, hn⟩ =>
      ⟨(IssueStep.storable_apply hs step hf).left, zeroFree_apply hs hz step hf hn⟩
  have ht := hs.stored
  refine ⟨_, ht.packs.serialize, ht.packs.fromBytes, fun p r hc hp hm hb => ?_⟩
  have hsmall := r.buffer.small
  have hu : Uncut s.strings := {
    no_zero := hz
    small   := fun string hs => by
      have hl := length_utf8_le hs
      have hle : (StringTable.serialize s.strings).length ≤ s.bytes.length := by
        simp only [IssueTables.bytes, List.length_append]
        omega
      rw [hb] at hsmall
      omega
    count   := Nat.lt_of_le_of_lt ht.pool (by decide) }
  obtain ⟨c, hd, _⟩ := reads_ncdbIssuesParse ht hu hc hp r {} hm ⟨Nat.zero_le _, hb ▸ List.prefix_rfl⟩
  exact congrArg Prod.fst hd

theorem stored_read_back_waiver :
    let s := IssueStep.apply (.addWaiverLink "W" "A") (IssueStep.apply (.addIssue { id := "A" }) {})
    s.serialize.bind IssueTables.fromBytes = some s.toIssueTables := by
  intro s
  have hst : IssueSpec.Stamped { id := "A" } := ⟨by simp, by simp, by simp⟩
  have hadd : IssueStep.Fits {} (.addIssue { id := "A" }) := Or.inr ⟨by decide +kernel, hst⟩
  have hlink : IssueStep.Fits (IssueStep.apply (.addIssue { id := "A" }) {}) (.addWaiverLink "W" "A") :=
    ⟨by decide +kernel, by decide +kernel⟩
  have ⟨bytes, hs, hb, _⟩ := stored_read_back <|
    .step _ (.step _ .start ⟨hadd, Or.inr ⟨by decide +kernel, by decide +kernel⟩⟩)
      ⟨hlink, by decide +kernel, by decide +kernel⟩
  exact Option.bind_eq_some_iff.mpr ⟨bytes, hs, hb⟩

-- An id with a zero byte in it.
def zeroBytes : List UInt8 :=
  [66, 83, 83, 73, 1, 0, 0, 0, 0, 1, 0, 0, 0, 0, 0, 0, 0, 0, 0, 0, 0, 0, 0, 0, 0, 2, 0, 3, 97, 0, 98,
    1, 0, 0, 0, 0, 64, 0, 0, 0, 0, 0, 0, 0, 0, 0, 0, 0, 0]

-- The issue that the C library gives for it has another id.
theorem id_cut_short :
    let s := IssueStep.apply (.addIssue { id := "a\x00b" }) {}
    s.serialize = some zeroBytes ∧ s.ids = some ["a\x00b"] ∧
      (ncdbIssuesParse ⟨fun _ => true, fun _ => true⟩ ⟨⟨zeroBytes, by decide⟩, fun _ => true, true⟩ {}).fst =
        .done ⟨[[], utf8 "a"], [⟨utf8 "a", [], 2, 0, 0, 0, 0, 0, 0⟩], [], [], []⟩ := by
  decide +kernel

end Issues.IssueSet
