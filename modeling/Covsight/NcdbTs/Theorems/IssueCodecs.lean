import Covsight.Ncdb.Theorems.HistoryLayout
import Covsight.Ncdb.Theorems.IssuesCodec
import Covsight.NcdbTs.IssueCodecs
import Covsight.NcdbTs.Theorems.IssueSet
import Covsight.NcdbTs.Theorems.StringTables

-- Issues and their history come back from the bytes that TypeScript writes, as long as all of it fits.

namespace TsIssues

-- What is told of the issues

structure IssueInfo where
  id         : Option JsString
  ext        : Option JsString
  severity   : Nat
  kind       : Nat
  state      : Nat
  resolution : Nat
  createdAt  : JsNumber
  updatedAt  : JsNumber
  syncedAt   : JsNumber
  deriving DecidableEq

structure IssueContents where
  issues         : List IssueInfo
  waiverLinks    : List (Option WaiverIssueLinkInfo)
  testpointLinks : List (Option TestpointIssueLinkInfo)
  coverageLinks  : List (Option CoverageIssueLinkInfo)
  deriving DecidableEq

-- A number that is an integer of so many bits.
def Fits (bits : Nat) (x : JsNumber) : Prop :=
  ∃ n : Int, x.toInt = some n ∧ 0 ≤ n ∧ n < 2 ^ bits

-- Times that are stored as they are.
structure IssueSpec.Stamped (spec : IssueSpec) : Prop where
  created : Fits 32 spec.createdAt
  updated : Fits 32 spec.updatedAt
  synced  : Fits 32 spec.syncedAt

namespace IssueTables

def info (t : IssueTables) (i : Nat) : IssueInfo where
  id         := t.idOf i
  ext        := t.extIdxs[i]?.bind t.string
  severity   := Issues.severityOf (t.enums.getD i 0)
  kind       := Issues.kindOf (t.enums.getD i 0)
  state      := Issues.stateOf (t.enums.getD i 0)
  resolution := Issues.resolutionOf (t.enums.getD i 0)
  createdAt  := t.created.getD i .zero
  updatedAt  := t.updated.getD i .zero
  syncedAt   := t.synced.getD i .zero

def contents (t : IssueTables) : IssueContents where
  issues         := (List.range t.idIdxs.length).map t.info
  waiverLinks    := t.wl.map fun l => (t.waiverLink l).map (·.snd.snd)
  testpointLinks := t.tl.map fun l => (t.testpointLink l).map (·.snd.snd)
  coverageLinks  := t.cl.map t.coverageLink

-- What Python has read, as it would stand in TypeScript.
def ofPython (p : Issues.IssueTables) : IssueTables where
  idIdxs  := p.idIdxs
  extIdxs := p.extIdxs
  enums   := p.enums
  created := p.created.map .ofBigInt
  updated := p.updated.map .ofBigInt
  synced  := p.synced.map .ofBigInt
  strings := p.strings.map .ofString
  wl      := p.wl
  tl      := p.tl.map fun (tp, issue, linkType) => (tp, issue, .ofBigInt linkType)
  cl      := p.cl.map fun (scope, bin, issue, linkType) => (scope, bin, issue, .ofBigInt linkType)

-- Both languages read what was written.
def Recovered (repair : List UInt8 → JsString) (t : IssueTables) : Prop :=
  (∃ t', fromBytes repair t.serialize = some t' ∧ t'.contents = t.contents) ∧
    ∃ p, Issues.IssueTables.fromBytes t.serialize = some p ∧ (ofPython p).contents = t.contents

-- Columns may go on behind the last issue.
def trimmed (t : IssueTables) : IssueTables :=
  { t with
    extIdxs := t.extIdxs.take t.idIdxs.length
    enums   := t.enums.take t.idIdxs.length
    created := t.created.take t.idIdxs.length
    updated := t.updated.take t.idIdxs.length
    synced  := t.synced.take t.idIdxs.length }

section Trimmed

variable {t : IssueTables} {α : Type}

theorem getElem?_take {xs : List α} {i n : Nat} (h : i < n) : (xs.take n)[i]? = xs[i]? := by
  rw [List.getElem?_take, if_pos h]

theorem getD_take {xs : List α} {i n : Nat} (h : i < n) (d : α) : (xs.take n).getD i d = xs.getD i d := by
  rw [List.getD_eq_getElem?_getD, List.getD_eq_getElem?_getD, getElem?_take h]

theorem serialize_trimmed (t : IssueTables) : t.trimmed.serialize = t.serialize := by
  have hf : (List.range t.idIdxs.length).flatMap (wrapFields <| t.trimmed.issueFields ·) =
      (List.range t.idIdxs.length).flatMap (wrapFields <| t.issueFields ·) := by
    refine List.flatMap_congr fun i hi => ?_
    have hi := List.mem_range.mp hi
    simp only [issueFields, trimmed, getD_take hi]
  change _ ++ (List.range t.idIdxs.length).flatMap (wrapFields <| t.trimmed.issueFields ·) ++ _ ++ _ ++ _ = _
  rw [hf]
  rfl

theorem contents_trimmed (t : IssueTables) : t.trimmed.contents = t.contents := by
  have hf : (List.range t.idIdxs.length).map t.trimmed.info = (List.range t.idIdxs.length).map t.info := by
    refine List.map_congr_left fun i hi => ?_
    have hi := List.mem_range.mp hi
    simp only [info, trimmed, getD_take hi, getElem?_take hi]
    rfl
  rw [contents, contents, ← hf]
  rfl

end Trimmed

-- Tables of Python

section OfPython

variable {p : Issues.IssueTables}

theorem trunc_ofBigInt {n : Int} (h : 0 ≤ n ∧ n < 2 ^ 32) : (JsNumber.ofBigInt n).trunc = n :=
  JsNumber.trunc_of_toInt <| JsNumber.toInt_ofBigInt_iff.mpr <| isDouble_of_lt (by omega)

theorem ofBigInt_zero : JsNumber.ofBigInt 0 = .zero :=
  JsNumber.ofBigInt_of_toInt JsNumber.toInt_zero

theorem trunc_getD {xs : List Int} (h : ∀ n ∈ xs, 0 ≤ n ∧ n < 2 ^ 32) (i : Nat) :
    ((xs.map JsNumber.ofBigInt).getD i .zero).trunc = xs.getD i 0 := by
  rw [← ofBigInt_zero, List.getD_map]
  by_cases hi : i < xs.length
  case pos => exact trunc_ofBigInt (Issues.IssueTables.getD_of_forall h hi 0)
  case neg =>
    rw [List.getD_eq_default xs 0 (Nat.le_of_not_lt hi)]
    exact trunc_ofBigInt (by decide)

theorem serialize_ofPython (h : p.Packs) : (ofPython p).serialize = p.bytes := by
  have hrows : (List.range p.idIdxs.length).flatMap (wrapFields <| (ofPython p).issueFields ·) =
      p.rows.flatMap (encodeFields ·.fields) := by
    rw [Issues.IssueTables.rows, List.flatMap_map]
    refine List.flatMap_congr fun i hi => ?_
    have he : (ofPython p).issueFields i = (p.row i).fields := by
      simp only [issueFields, ofPython, trunc_getD h.created, trunc_getD h.updated, trunc_getD h.synced]
      rfl
    rw [he, wrapFields_of_packable (h.packable_row (List.mem_range.mp hi))]
  obtain ⟨hw, ht, hc⟩ := h.packable_links
  have hwl : p.wl.flatMap (wrapFields <| waiverFields ·) =
      p.wl.flatMap (encodeFields <| Issues.IssueTables.waiverFields ·) :=
    List.flatMap_congr fun l hl => wrapFields_of_packable (hw l hl)
  have htl : (ofPython p).tl.flatMap (wrapFields <| testpointFields ·) =
      p.tl.flatMap (encodeFields <| Issues.IssueTables.testpointFields ·) := by
    rw [ofPython, List.flatMap_map]
    refine List.flatMap_congr fun l hl => ?_
    have hb := h.tlTypes l hl
    simp only [testpointFields, trunc_ofBigInt (n := l.snd.snd) (by omega)]
    exact wrapFields_of_packable (ht l hl)
  have hcl : (ofPython p).cl.flatMap (wrapFields <| coverageFields ·) =
      p.cl.flatMap (encodeFields <| Issues.IssueTables.coverageFields ·) := by
    rw [ofPython, List.flatMap_map]
    refine List.flatMap_congr fun l hl => ?_
    have hb := h.clTypes l hl
    simp only [coverageFields, trunc_ofBigInt (n := l.snd.snd.snd) (by omega)]
    exact wrapFields_of_packable (hc l hl)
  have hhead : (ofPython p).headerFields = p.headerFields := by
    simp only [headerFields, ofPython, List.length_map]
    rfl
  rw [serialize, hhead, wrapFields_of_packable h.packable_header, htl, hcl]
  change _ ++ TsStringTable.encode (p.strings.map .ofString) ++ (List.range p.idIdxs.length).flatMap _
    ++ p.wl.flatMap _ ++ _ ++ _ = _
  rw [hrows, hwl, encode_map_ofString]
  rfl

theorem fromBytes_bytes (h : p.Packs) (hb : ∀ s ∈ p.strings, textDecode s = .ofString s)
    (repair : List UInt8 → JsString) : fromBytes repair p.bytes = some (ofPython p) := by
  have hhead := h.packable_header
  simp only [Issues.IssueTables.headerFields, packable_cons] at hhead
  obtain ⟨hm, hver, hz, hni, hnw, hnt, hnc, -⟩ := hhead
  have hguard : ∀ n : Nat, (guard (((n : Nat) : Int).toNat = n) : Option Unit) = some () :=
    fun n => if_pos (Int.toNat_natCast n)
  have hstrings : internAll (p.strings.map textDecode) = p.strings.map .ofString := by
    rw [List.map_congr_left hb, internAll_of_nodup (h.nodup.map JsString.ofString_injective)]
  have hc := congrArg ofPython h.columns_rows
  rw [Issues.IssueTables.bytes, Issues.IssueTables.headerFields, List.append_assoc, List.append_assoc,
    List.append_assoc, List.append_assoc, fromBytes]
  refine (bind_of_eq_some (decodeFixed_encodeFields hm _) _).trans ?_
  refine (bind_of_eq_some (decodeFixed_encodeFields hver _) _).trans ?_
  refine (bind_of_eq_some (decodeFixed_encodeFields hz _) _).trans ?_
  refine (bind_of_eq_some (decodeFixed_encodeFields hni _) _).trans ?_
  refine (bind_of_eq_some (decodeFixed_encodeFields hnw _) _).trans ?_
  refine (bind_of_eq_some (decodeFixed_encodeFields hnt _) _).trans ?_
  refine (bind_of_eq_some (decodeFixed_encodeFields hnc _) _).trans ?_
  refine (bind_of_eq_some (hguard Issues.magic) _).trans ?_
  refine (bind_of_eq_some (hguard Issues.version) _).trans ?_
  refine (bind_of_eq_some (readFrom_serialize repair p.strings _) _).trans ?_
  refine (bind_of_eq_some (h.decodeMany_rows _) _).trans ?_
  refine (bind_of_eq_some (h.decodeMany_waivers _) _).trans ?_
  refine (bind_of_eq_some (h.decodeMany_testpoints _) _).trans ?_
  refine (bind_of_eq_some h.decodeMany_coverage _).trans <| congrArg some ?_
  rw [← hc, ofPython, hstrings]
  simp only [List.map_map]
  rfl

-- What can be packed in Python can be read in both languages.
theorem recovered_of_packs {t : IssueTables} (h : p.Packs) (hb : ∀ s ∈ p.strings, textDecode s = .ofString s)
    (ht : ofPython p = t.trimmed) (repair : List UInt8 → JsString) : Recovered repair t := by
  have hs : t.serialize = p.bytes := by rw [← serialize_trimmed, ← ht, serialize_ofPython h]
  have hc : (ofPython p).contents = t.contents := by rw [ht, contents_trimmed]
  rw [Recovered, hs]
  exact ⟨⟨_, fromBytes_bytes h hb repair, hc⟩, _, h.fromBytes, hc⟩

end OfPython

-- All strings are text, and all numbers fit what they are stored in. The columns after that of the ids have
-- one length.
structure Encodable (t : IssueTables) : Prop where
  numbered : t.Numbered
  nodup    : t.strings.Nodup
  texts    : ∀ s ∈ t.strings, s.IsText
  pool     : t.strings.length ≤ 2 ^ 16
  issues   : t.idIdxs.length < 2 ^ 32
  full     : t.idIdxs.length ≤ t.extIdxs.length
  even     : t.enums.length = t.extIdxs.length ∧ t.created.length = t.extIdxs.length ∧
    t.updated.length = t.extIdxs.length ∧ t.synced.length = t.extIdxs.length
  enums    : ∀ n ∈ t.enums, n < 2 ^ 16
  created  : ∀ x ∈ t.created, Fits 32 x
  updated  : ∀ x ∈ t.updated, Fits 32 x
  synced   : ∀ x ∈ t.synced, Fits 32 x
  tlTypes  : ∀ l ∈ t.tl, Fits 8 l.snd.snd
  clTypes  : ∀ l ∈ t.cl, Fits 8 l.snd.snd.snd
  wlCount  : t.wl.length < 2 ^ 32
  tlCount  : t.tl.length < 2 ^ 32
  clCount  : t.cl.length < 2 ^ 32

section Encodable

variable {t : IssueTables}

theorem exists_ints {bits : Nat} {xs : List JsNumber} (h : ∀ x ∈ xs, Fits bits x) (count : Nat) :
    ∃ ns : List Int, xs.take count = ns.map .ofBigInt ∧ ∀ n ∈ ns, 0 ≤ n ∧ n < 2 ^ bits :=
  exists_eq_map_iff.mpr fun x hx =>
    have ⟨n, hn, hb⟩ := h x (List.mem_of_mem_take hx)
    ⟨n, (JsNumber.ofBigInt_of_toInt hn).symm, hb⟩

-- The tables as Python has them.
theorem Encodable.exists_packs (h : t.Encodable) :
    ∃ p, p.Packs ∧ (∀ s ∈ p.strings, textDecode s = .ofString s) ∧ ofPython p = t.trimmed := by
  obtain ⟨strings, hs, hb⟩ := exists_eq_map_iff.mpr fun s hm => JsString.isText_iff.mp (h.texts s hm)
  have ⟨created, hcreated, hc⟩ := exists_ints h.created t.idIdxs.length
  have ⟨updated, hupdated, hu⟩ := exists_ints h.updated t.idIdxs.length
  have ⟨synced, hsynced, hy⟩ := exists_ints h.synced t.idIdxs.length
  obtain ⟨tl, htl, ht⟩ : ∃ tl : List (Nat × Nat × Int),
      t.tl = tl.map (fun l => (l.fst, l.snd.fst, .ofBigInt l.snd.snd)) ∧ ∀ l ∈ tl, 0 ≤ l.snd.snd ∧ l.snd.snd < 2 ^ 8 :=
    exists_eq_map_iff.mpr fun l hl =>
      have ⟨n, hn, hb⟩ := h.tlTypes l hl
      ⟨(l.fst, l.snd.fst, n), by rw [JsNumber.ofBigInt_of_toInt hn], hb⟩
  obtain ⟨cl, hcl, hl⟩ : ∃ cl : List (Nat × Nat × Nat × Int),
      t.cl = cl.map (fun l => (l.fst, l.snd.fst, l.snd.snd.fst, .ofBigInt l.snd.snd.snd)) ∧
        ∀ l ∈ cl, 0 ≤ l.snd.snd.snd ∧ l.snd.snd.snd < 2 ^ 8 :=
    exists_eq_map_iff.mpr fun l hl =>
      have ⟨n, hn, hb⟩ := h.clTypes l hl
      ⟨(l.fst, l.snd.fst, l.snd.snd.fst, n), by rw [JsNumber.ofBigInt_of_toInt hn], hb⟩
  have hlength : t.strings.length = strings.length := by rw [hs, List.length_map]
  have hn := h.numbered
  have htake {α : Type} {xs : List α} (hx : xs.length = t.extIdxs.length) :
      (xs.take t.idIdxs.length).length = t.idIdxs.length := List.length_take_of_le (hx ▸ h.full)
  have hints {xs : List JsNumber} {ns : List Int} (hx : xs.length = t.extIdxs.length)
      (he : xs.take t.idIdxs.length = ns.map .ofBigInt) : ns.length = t.idIdxs.length := by
    rw [← htake hx, he, List.length_map]
  refine ⟨{
    idIdxs  := t.idIdxs
    extIdxs := t.extIdxs.take t.idIdxs.length
    enums   := t.enums.take t.idIdxs.length
    wl      := t.wl
    strings, created, updated, synced, tl, cl }, ?_, fun s hm => JsString.textDecode_eq_ofString_iff.mpr (hb s hm), ?_⟩
  case refine_1 =>
    have ⟨heven, hec, heu, hes⟩ := h.even
    constructor
    case even     => exact ⟨htake rfl, htake heven, hints hec hcreated, hints heu hupdated, hints hes hsynced⟩
    case numbered =>
      constructor
      case ids => exact hlength ▸ hn.ids
      case ext => exact fun n hm => hlength ▸ hn.exts n (List.mem_of_mem_take hm)
      case wl  => exact hlength ▸ hn.wl
      case tl  => exact fun l hm => hlength ▸ hn.tl _ (htl ▸ List.mem_map_of_mem hm)
      case cl  => exact fun l hm => hlength ▸ hn.cl _ (hcl ▸ List.mem_map_of_mem hm)
    case nodup    => exact .of_map _ (hs ▸ h.nodup)
    case pool     => exact hlength ▸ h.pool
    case issues   => exact h.issues
    case enums    => exact fun n hm => h.enums n (List.mem_of_mem_take hm)
    case created  => exact hc
    case updated  => exact hu
    case synced   => exact hy
    case tlTypes  => exact ht
    case clTypes  => exact hl
    case wlCount  => exact h.wlCount
    case tlCount  => exact (List.length_map _).symm.trans_lt (htl ▸ h.tlCount)
    case clCount  => exact (List.length_map _).symm.trans_lt (hcl ▸ h.clCount)
  case refine_2 =>
    rw [ofPython, trimmed, ← hs, ← hcreated, ← hupdated, ← hsynced, htl, hcl]

theorem Encodable.recovered (h : t.Encodable) (repair : List UInt8 → JsString) : Recovered repair t :=
  have ⟨_, hp, hb, ht⟩ := h.exists_packs
  recovered_of_packs hp hb ht repair

theorem encodable_empty : Encodable {} := by
  constructor
  case numbered => exact ⟨nofun, nofun, nofun, nofun, nofun⟩
  case nodup    => exact List.nodup_singleton []
  case texts    => exact List.forall_mem_singleton.mpr rfl
  all_goals simp

theorem fits_ofBigInt {bits : Nat} (hbits : bits ≤ 32) {n : Int} (h : 0 ≤ n ∧ n < 2 ^ bits) : Fits bits (.ofBigInt n) := by
  have hle : (2 : Int) ^ bits ≤ 2 ^ 32 := by exact_mod_cast Nat.pow_le_pow_right (Nat.succ_pos 1) hbits
  exact ⟨n, JsNumber.toInt_ofBigInt_iff.mpr <| isDouble_of_lt (by omega), h⟩

-- What Python packs is read into tables that can be packed again.
theorem encodable_ofPython {p : Issues.IssueTables} (h : p.Packs) (hb : ∀ s ∈ p.strings, textDecode s = .ofString s) :
    (ofPython p).Encodable := by
  have ⟨hext, hen, hcr, hup, hsy⟩ := h.even
  have hl : (ofPython p).strings.length = p.strings.length := List.length_map _
  constructor
  case numbered =>
    constructor
    case ids  => exact hl ▸ h.numbered.ids
    case exts => exact hl ▸ h.numbered.ext
    case wl   => exact hl ▸ h.numbered.wl
    case tl   => exact hl ▸ List.forall_mem_map.mpr h.numbered.tl
    case cl   => exact hl ▸ List.forall_mem_map.mpr h.numbered.cl
  case nodup    => exact h.nodup.map JsString.ofString_injective
  case texts    =>
    refine List.forall_mem_map.mpr fun s hs => JsString.isText_iff.mpr ⟨s, rfl, ?_⟩
    exact JsString.textDecode_eq_ofString_iff.mp (hb s hs)
  case pool     => exact hl ▸ h.pool
  case issues   => exact h.issues
  case full     => exact hext.ge
  case even     => simp only [ofPython, List.length_map, hext, hen, hcr, hup, hsy, and_self]
  case enums    => exact h.enums
  case created  => exact List.forall_mem_map.mpr fun n hn => fits_ofBigInt (by decide) (h.created n hn)
  case updated  => exact List.forall_mem_map.mpr fun n hn => fits_ofBigInt (by decide) (h.updated n hn)
  case synced   => exact List.forall_mem_map.mpr fun n hn => fits_ofBigInt (by decide) (h.synced n hn)
  case tlTypes  => exact List.forall_mem_map.mpr fun l hm => fits_ofBigInt (by decide) (h.tlTypes l hm)
  case clTypes  => exact List.forall_mem_map.mpr fun l hm => fits_ofBigInt (by decide) (h.clTypes l hm)
  case wlCount  => exact h.wlCount
  case tlCount  => exact (List.length_map _).trans_lt h.tlCount
  case clCount  => exact (List.length_map _).trans_lt h.clCount

-- A string more, if there is room for it.
theorem Encodable.withString (h : t.Encodable) {value : JsString} (hv : value.IsText)
    (hn : (intern t.strings value).fst < 2 ^ 16) : { t with strings := (intern t.strings value).snd }.Encodable :=
  { h with
    numbered := h.numbered.grown (intern.extends_table ..)
    nodup    := intern.nodup h.nodup
    texts    := fun s hs => (intern.mem_iff.mp hs).elim (h.texts s) fun he => he ▸ hv
    pool     := intern.length_le h.pool hn }

end Encodable

end IssueTables

namespace IssueSet

-- The table of ids is the one of the columns once it has been built.
structure Storable (s : IssueSet) : Prop where
  encodable : s.Encodable
  byId      : ∀ i ∈ s.indices.byId, i = s.byId

-- A new set, or one that is read from what can be packed in Python.
inductive Opened (repair : List UInt8 → JsString) : IssueSet → Prop
  | new : Opened repair {}
  | read {p : Issues.IssueTables} {t : IssueTables} (packs : p.Packs)
    (unmarked : ∀ s ∈ p.strings, textDecode s = .ofString s) (read : IssueTables.fromBytes repair p.bytes = some t) :
    Opened repair { toIssueTables := t }

theorem Opened.storable {repair : List UInt8 → JsString} {s : IssueSet} (h : Opened repair s) : s.Storable := by
  cases h with
  | new            => exact ⟨IssueTables.encodable_empty, nofun⟩
  | read hp hu hr  =>
    have ht := Option.some.inj ((IssueTables.fromBytes_bytes hp hu repair).symm.trans hr)
    exact ⟨ht ▸ IssueTables.encodable_ofPython hp hu, nofun⟩

-- A call that leaves the issues and the links alone.
def Quiet {α : Type} (t : IssueTables) (c : Call IssueSet α) : Prop :=
  c.Ensures (fun s => s.toIssueTables = t ∧ ∀ i ∈ s.indices.byId, i = t.byId)
    fun _ s => s.toIssueTables = t ∧ ∀ i ∈ s.indices.byId, i = t.byId

section Quiet

variable {α β : Type} {t : IssueTables} {c : Call IssueSet α} {f : α → Call IssueSet β}

theorem Quiet.bind (hc : Quiet t c) (hf : ∀ a, Quiet t (f a)) : Quiet t (c >>= f) :=
  Call.Ensures.bind hc hf fun _ => id

theorem Quiet.map (hc : Quiet t c) (h : α → β) : Quiet t (do return h (← c)) :=
  hc.bind fun _ _ => id

theorem quiet_ensureById (ht : t.Numbered) : Quiet t ensureById := by
  rintro s ⟨rfl, hb⟩
  rw [ensureById_eq ht hb]
  exact ⟨rfl, fun i hi => (Option.some.inj hi).symm⟩

theorem quiet_ensureSeverityIndex : Quiet t ensureSeverityIndex := by
  intro s hs
  rw [ensureSeverityIndex, Call.bind_get]
  cases s.indices.bySeverity <;> exact hs

theorem quiet_ensureOpenIndex : Quiet t ensureOpenIndex := by
  intro s hs
  rw [ensureOpenIndex, Call.bind_get]
  cases s.indices.openIdxs <;> exact hs

theorem quiet_ensureCoverageLinks : Quiet t ensureCoverageLinks := by
  intro s hs
  rw [ensureCoverageLinks, Call.bind_get]
  cases s.indices.coverageLinks with
  | some links => exact hs
  | none       =>
    simp only [Call.bind_read]
    cases s.cl.mapM s.coverageLink <;> exact hs

theorem quiet_ensureWaiverIndices (ht : t.Numbered) : Quiet t ensureWaiverIndices := by
  intro s hs
  rw [ensureWaiverIndices, Call.bind_get]
  cases s.indices.waiverIndices with
  | some indices => exact hs
  | none         =>
    refine (quiet_ensureById ht).bind (fun byId s hs => ?_) s hs
    simp only [Call.bind_get, Call.bind_modify, Call.bind_check]
    split <;> exact hs

theorem quiet_ensureTpIndices (ht : t.Numbered) : Quiet t ensureTpIndices := by
  intro s hs
  rw [ensureTpIndices, Call.bind_get]
  cases s.indices.tpIndices with
  | some indices => exact hs
  | none         =>
    refine (quiet_ensureById ht).bind (fun byId s hs => ?_) s hs
    simp only [Call.bind_get, Call.bind_modify, Call.bind_check]
    split <;> exact hs

theorem quiet_handleId (idx : Nat) : Quiet t (handleId idx) :=
  fun _ hs => hs

theorem quiet_ask (ht : t.Numbered) (q : IssueQuery) : Quiet t q.ask := by
  cases q with
  | issues             => exact fun _ hs => hs
  | get                => exact ((quiet_ensureById ht).map _).map _
  | openIssues         => exact quiet_ensureOpenIndex.map _
  | issuesBySeverity   => exact (quiet_ensureSeverityIndex.map _).map _
  | issuesForWaiver    => exact ((quiet_ensureWaiverIndices ht).map _).map _
  | issuesForTestpoint => exact ((quiet_ensureTpIndices ht).map _).map _
  | waiversForIssue    => exact ((quiet_ensureWaiverIndices ht).bind fun _ => (quiet_handleId _).map _).map _
  | testpointsForIssue => exact ((quiet_ensureTpIndices ht).bind fun _ => (quiet_handleId _).map _).map _
  | coverageLinks      => exact quiet_ensureCoverageLinks.map _

end Quiet

section Changes

variable {s : IssueSet} {spec : IssueSpec}

-- Strings that are text, and for which there is room.
def Takes (s : IssueSet) (values : List JsString) : Prop :=
  (∀ value ∈ values, value.IsText) ∧ (internInto s.strings values).length ≤ 2 ^ 16

instance (s : IssueSet) (values : List JsString) : Decidable (s.Takes values) :=
  inferInstanceAs (Decidable ((∀ value ∈ values, textDecode (textEncode value) = value) ∧ _))

theorem Storable.withString (h : s.Storable) {value : JsString} {values : List JsString} (ht : s.Takes (value :: values)) :
    (s.withString value).Storable ∧ (s.withString value).Takes values := by
  have ⟨htexts, hroom⟩ := ht
  have ⟨hv, hvs⟩ := List.forall_mem_cons.mp htexts
  have hn : (intern s.strings value).fst < 2 ^ 16 :=
    calc (intern s.strings value).fst
      _ < (intern s.strings value).snd.length          := intern.fst_lt ..
      _ ≤ (internInto s.strings (value :: values)).length :=
        (internInto_extends_table (intern s.strings value).snd values).length_le
      _ ≤ 2 ^ 16                                       := hroom
  refine ⟨⟨h.encodable.withString hv hn, fun i hi => ?_⟩, hvs, hroom⟩
  exact (h.byId i hi).trans (IssueTables.byId_grown (intern.extends_table ..) h.encodable.numbered).symm

theorem Storable.addWaiverLink (h : s.Storable) {waiverId issueId : JsString} (ht : s.Takes [waiverId, issueId])
    (hc : s.wl.length + 1 < 2 ^ 32) : (IssueSet.addWaiverLink waiverId issueId s).snd.Storable := by
  have ⟨hw, ht⟩ := h.withString ht
  have ⟨hi, _⟩ := hw.withString ht
  exact ⟨{ hi.encodable with
    numbered := numbered_addWaiverLink h.encodable.numbered ..
    wlCount  := List.length_append.trans_lt hc }, hi.byId⟩

theorem Storable.addTestpointLink (h : s.Storable) {tpName issueId : JsString} {linkType : JsNumber}
    (ht : s.Takes [tpName, issueId]) (hf : Fits 8 linkType) (hc : s.tl.length + 1 < 2 ^ 32) :
    (IssueSet.addTestpointLink tpName issueId linkType s).snd.Storable := by
  have ⟨hw, ht⟩ := h.withString ht
  have ⟨hi, _⟩ := hw.withString ht
  exact ⟨{ hi.encodable with
    numbered := numbered_addTestpointLink h.encodable.numbered ..
    tlTypes  := List.forall_mem_append.mpr ⟨h.encodable.tlTypes, List.forall_mem_singleton.mpr hf⟩
    tlCount  := List.length_append.trans_lt hc }, hi.byId⟩

theorem Storable.addCoverageLink (h : s.Storable) {scopePath binName issueId : JsString} {linkType : JsNumber}
    (ht : s.Takes [scopePath, binName, issueId]) (hf : Fits 8 linkType) (hc : s.cl.length + 1 < 2 ^ 32) :
    (IssueSet.addCoverageLink scopePath binName issueId linkType s).snd.Storable := by
  have ⟨hs, ht⟩ := h.withString ht
  have ⟨hb, ht⟩ := hs.withString ht
  have ⟨hi, _⟩ := hb.withString ht
  exact ⟨{ hi.encodable with
    numbered := numbered_addCoverageLink h.encodable.numbered ..
    clTypes  := List.forall_mem_append.mpr ⟨h.encodable.clTypes, List.forall_mem_singleton.mpr hf⟩
    clCount  := List.length_append.trans_lt hc }, hi.byId⟩

theorem Storable.withIssue (h : s.Storable) (ht : s.Takes [spec.id, spec.ext]) (hs : spec.Stamped)
    (hc : s.idIdxs.length + 1 < 2 ^ 32) : (s.withIssue spec).Storable := by
  have ⟨hi, ht⟩ := h.withString ht
  have ⟨hx, _⟩ := hi.withString ht
  have ⟨hen, hcr, hup, hsy⟩ := h.encodable.even
  have hmem {α : Type} {p : α → Prop} {xs : List α} {x : α} (hxs : ∀ y ∈ xs, p y) (hx : p x) : ∀ y ∈ xs ++ [x], p y :=
    List.forall_mem_append.mpr ⟨hxs, List.forall_mem_singleton.mpr hx⟩
  have hone {α β : Type} {xs : List α} {ys : List β} {x : α} {y : β} (h : xs.length = ys.length) :
      (xs ++ [x]).length = (ys ++ [y]).length := by
    rw [List.length_append, List.length_append, h]
    rfl
  refine ⟨{ hx.encodable with
    numbered := numbered_withIssue h.encodable.numbered spec
    issues   := List.length_append.trans_lt hc
    full     := ?_
    even     := ⟨hone hen, hone hcr, hone hup, hone hsy⟩
    enums    := hmem h.encodable.enums (Issues.packEnums_lt ..)
    created  := hmem h.encodable.created hs.created
    updated  := hmem h.encodable.updated hs.updated
    synced   := hmem h.encodable.synced hs.synced }, fun i hi => ?_⟩
  case refine_1 =>
    have hf := h.encodable.full
    change (s.idIdxs ++ [_]).length ≤ (s.extIdxs ++ [_]).length
    rw [List.length_append, List.length_append]
    exact Nat.add_le_add_right hf 1
  case refine_2 => exact (Option.some.inj hi).symm.trans (byId_withIssue h.encodable.numbered spec).symm

theorem Storable.addIssue (h : s.Storable)
    (hf : spec.id ∈ s.byId.keys ∨ s.Takes [spec.id, spec.ext] ∧ spec.Stamped ∧ s.idIdxs.length + 1 < 2 ^ 32) :
    (IssueSet.addIssue spec s).snd.Storable := by
  have hbuilt : Storable { s with indices.byId := some s.byId } :=
    ⟨h.encodable, fun _ hi => (Option.some.inj hi).symm⟩
  rw [IssueSet.addIssue, Call.bind_of_some (ensureById_eq h.encodable.numbered h.byId), Call.bind_check]
  by_cases hm : spec.id ∈ s.byId.keys
  case pos =>
    rw [if_neg (by simpa using hm)]
    exact hbuilt
  case neg =>
    obtain ⟨ht, hs, hc⟩ := hf.resolve_left hm
    rw [if_pos (by simpa using hm)]
    exact hbuilt.withIssue ht hs hc

theorem length_writeAt {α : Type} (zero : α) (xs : List α) (i : Nat) (x : α) :
    (writeAt zero xs i x).length = max xs.length (i + 1) := by
  rw [writeAt]
  split
  case isTrue h  => rw [List.length_set, Nat.max_eq_left h]
  case isFalse h =>
    simp only [List.length_append, List.length_replicate, List.length_singleton]
    omega

theorem Storable.updateIssue (h : s.Storable) {idx : Nat} (ht : s.Takes [spec.ext]) (hs : spec.Stamped) :
    (IssueSet.updateIssue idx spec s).snd.Storable := by
  have ⟨hx, _⟩ := h.withString ht
  have ⟨hen, hcr, hup, hsy⟩ := h.encodable.even
  have hmem {α : Type} {p : α → Prop} {zero x : α} {xs : List α} (hxs : ∀ y ∈ xs, p y) (hz : p zero) (hx : p x) :
      ∀ y ∈ writeAt zero xs idx x, p y := by
    intro y hy
    rcases mem_writeAt hy with hy | rfl | rfl
    · exact hxs y hy
    · exact hz
    · exact hx
  have hzero : Fits 32 .zero := ⟨0, rfl, by decide⟩
  refine ⟨{ hx.encodable with
    numbered := numbered_updateIssue h.encodable.numbered idx spec
    full     := ?_
    even     := ?_
    enums    := hmem h.encodable.enums (by decide) (Issues.packEnums_lt ..)
    created  := hmem h.encodable.created hzero hs.created
    updated  := hmem h.encodable.updated hzero hs.updated
    synced   := hmem h.encodable.synced hzero hs.synced }, nofun⟩
  case refine_1 =>
    change _ ≤ (writeAt 0 s.extIdxs idx _).length
    rw [length_writeAt]
    exact h.encodable.full.trans (Nat.le_max_left ..)
  case refine_2 =>
    change (writeAt 0 s.enums idx _).length = (writeAt 0 s.extIdxs idx _).length ∧
      (writeAt .zero s.created idx _).length = (writeAt 0 s.extIdxs idx _).length ∧
      (writeAt .zero s.updated idx _).length = (writeAt 0 s.extIdxs idx _).length ∧
      (writeAt .zero s.synced idx _).length = (writeAt 0 s.extIdxs idx _).length
    simp only [length_writeAt, hen, hcr, hup, hsy, and_self]

end Changes

end IssueSet

namespace IssueStep

-- What is added is text for which there is room, and numbers that fit. An issue that is there is not added, and no
-- gap is left in front of one that is updated.
def Fits (s : IssueSet) : IssueStep → Prop
  | addIssue spec                              =>
    spec.id ∈ s.byId.keys ∨ s.Takes [spec.id, spec.ext] ∧ spec.Stamped ∧ s.idIdxs.length + 1 < 2 ^ 32
  | updateIssue idx spec                       => idx ≤ s.extIdxs.length ∧ s.Takes [spec.ext] ∧ spec.Stamped
  | addWaiverLink waiverId issueId             => s.Takes [waiverId, issueId] ∧ s.wl.length + 1 < 2 ^ 32
  | addTestpointLink tpName issueId linkType   =>
    s.Takes [tpName, issueId] ∧ TsIssues.Fits 8 linkType ∧ s.tl.length + 1 < 2 ^ 32
  | addCoverageLink scope bin issueId linkType =>
    s.Takes [scope, bin, issueId] ∧ TsIssues.Fits 8 linkType ∧ s.cl.length + 1 < 2 ^ 32
  | query _                                    => True

theorem storable_apply {s : IssueSet} (h : s.Storable) (step : IssueStep) (hf : step.Fits s) :
    (step.apply s).Storable := by
  cases step with
  | addIssue         => exact h.addIssue hf
  | updateIssue      => exact h.updateIssue hf.right.left hf.right.right
  | addWaiverLink    => exact h.addWaiverLink hf.left hf.right
  | addTestpointLink => exact h.addTestpointLink hf.left hf.right.left hf.right.right
  | addCoverageLink  => exact h.addCoverageLink hf.left hf.right.left hf.right.right
  | query q          =>
    have ⟨ht, hb⟩ := IssueSet.quiet_ask h.encodable.numbered q s ⟨rfl, h.byId⟩
    exact ⟨ht ▸ h.encodable, ht ▸ hb⟩

theorem recovered_of_reached {repair : List UInt8 → JsString} {opened s : IssueSet} (ho : opened.Opened repair)
    (h : ReachedBy apply Fits opened s) : s.Recovered repair :=
  (h.invariant ho.storable fun _ step hs hf => storable_apply hs step hf).encodable.recovered repair

end IssueStep

end TsIssues
