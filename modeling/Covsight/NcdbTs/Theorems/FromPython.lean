import Covsight.NcdbTs.Theorems.Names

-- What the Python library writes, read by the TypeScript library.

open ScopeRecord (Formed FormedAll)

-- The bytes of the members.

namespace TsScopeTreeReader

theorem decode_encode {fuel : Nat} : ∀ {record : ScopeRecord}, record.Formed →
    record.encode.length ≤ fuel →
    ∀ rest, decode fuel (record.encode ++ rest) = some (record, rest) := by
  induction fuel
  case zero =>
    intro record _ hl
    exact absurd (List.length_eq_zero_iff.mp (Nat.le_zero.mp hl)) (ScopeRecord.encode_ne_nil record)
  case succ fuel hi =>
    intro record hf hl rest
    cases record
    case togglePair nameRef =>
      rw [ScopeRecord.encode, List.cons_append, decode, if_pos rfl, decodeVarint_encodeVarint]
      rfl
    case regular header items scopes =>
      rw [Formed] at hf
      rw [ScopeRecord.encode, List.length_cons] at hl
      have hs : ∀ s ∈ scopes, ∀ rest, decode fuel (s.encode ++ rest) = some (s, rest) := by
        intro s hm
        refine hi (hf.2.of_mem hm) ?_
        have hle := ScopeRecord.length_encode_le hm
        simp only [List.length_append] at hl
        omega
      have hsub := decodeMany_flatMap hs rest
      have hitems := @decodeMany_flatMap _ decodeVarint encodeVarint items
        (fun x _ => decodeVarint_encodeVarint x) (scopes.flatMap ScopeRecord.encode ++ rest)
      rw [ScopeRecord.encode, List.cons_append, decode, if_neg (by decide), if_pos rfl]
      simp only [ScopeRecord.encodeItems, List.append_assoc, ScopeHeader.decode_encode,
        Option.bind_eq_bind, Option.bind_some, decodeVarint_encodeVarint,
        ScopeRecord.decodeCoverType_encode hf.1, hitems, ScopeRecord.encodeAll_eq_flatMap, hsub,
        Option.pure_def]

theorem decodeAll_encodeAll {records : List ScopeRecord} (h : FormedAll records) :
    decodeAll (decode (ScopeRecord.encodeAll records).length) (ScopeRecord.encodeAll records).length
      (ScopeRecord.encodeAll records) = some records := by
  have hd := decodeAll_flatMap
    (fun r hm => decode_encode (h.of_mem hm) (ScopeRecord.length_encode_le hm))
    (fun r _ => ScopeRecord.encode_ne_nil r) (ScopeRecord.length_le_encodeAll records)
  rwa [← ScopeRecord.encodeAll_eq_flatMap] at hd

end TsScopeTreeReader

theorem TsCountsReader.decode_serialize (counts : Counts) :
    decode (CountsWriter.serialize counts) = some counts := by
  have h := CountsReader.deserialize_serialize counts
  rw [CountsWriter.serialize] at h ⊢
  split at h
  case isTrue hc =>
    rw [if_pos hc, decode, ← h, CountsReader.deserialize]
    simp only [CountsReader.decodeVarints_eq, if_true]
  case isFalse hc =>
    have hm : ¬countsModeUint32 = countsModeVarint := by decide
    rw [if_neg hc, decode, ← h, CountsReader.deserialize]
    simp only [hm, if_false, if_true]

-- The members of records that are well formed, as the two libraries take them.

namespace ScopeTreeMembers

variable {m : ScopeTreeMembers} {records : List ScopeRecord} {counts : Counts}

-- Members that hold some records and counts.
structure Holds (m : ScopeTreeMembers) (records : List ScopeRecord) (counts : Counts) : Prop where
  formed    : FormedAll records
  scopeTree : m.scopeTree = ScopeRecord.encodeAll records
  counts    : m.counts = CountsWriter.serialize counts

theorem Holds.readTs_eq (h : m.Holds records counts) :
    m.readTs = ((⟨internAll (m.strings.map textDecode), m.files⟩ : TsScopeTreeReader).readScopes
      records counts).map (·.fst) := by
  rw [readTs, h.counts, TsCountsReader.decode_serialize, h.scopeTree,
    TsScopeTreeReader.decodeAll_encodeAll h.formed]
  simp only [Option.bind_eq_bind, Option.bind_some]
  cases TsScopeTreeReader.readScopes _ records counts <;> rfl

theorem Holds.readPython_eq (h : m.Holds records counts) :
    m.readPython = ((⟨internAll m.strings, m.files⟩ : ScopeTreeReader).readEach
      none records counts).map (·.fst) := by
  rw [readPython, h.counts, CountsReader.deserialize_serialize, h.scopeTree]
  simp only [Option.bind_eq_bind, Option.bind_some, ScopeTreeReader.read,
    ScopeRecord.decodeAll_encodeAll h.formed, ScopeTreeReader.readScopes_eq]
  cases ScopeTreeReader.readEach _ none records counts
  case none => rfl
  case some x =>
    obtain ⟨ss, counts⟩ := x
    simp [ScopeTreeReader.addScopes_of_not_fsm]

end ScopeTreeMembers

-- What is asked of the numbers of a scope.

-- The location as the TypeScript library has it.
def SourceInfo.viewInTs (si : SourceInfo) : Option (Option String × Option Int × Option Int) :=
  if si.file.isSome ∧ 0 ≤ si.line then
    some (si.file, (JsNumber.ofBigInt si.line).toInt, (JsNumber.ofBigInt (max 0 si.token)).toInt)
  else
    none

-- The numbers of a scope below some parent, turned into those of JavaScript, are the ones that the
-- Python library gives it. Goals have 32 bits.
structure ScopeData.ReadsInTs (p : Option ScopeData) (d : ScopeData) : Prop where
  flags  : (JsNumber.ofBigInt d.flags).toInt = some ((d.inherit p).flags : Int)
  weight : (JsNumber.ofBigInt d.weight).toInt = some (d.inherit p).weight
  goal   : d.goal < 2 ^ 31
  source : d.srcinfo.viewInTs = (d.inherit p).srcinfo.stored.view

namespace Scope

mutual

def ReadsInTs (p : Option ScopeData) : Scope → Prop
  | mk d is ss => (mk d is ss).isTogglePair ∨ d.ReadsInTs p ∧ ReadsInTsAll (some d) ss

def ReadsInTsAll (p : Option ScopeData) : List Scope → Prop
  | []      => True
  | s :: ss => s.ReadsInTs p ∧ ReadsInTsAll p ss

end

end Scope

def byteOrderMark : Char := '\uFEFF'

theorem asIntN32_toInt (n : Nat) : (JsNumber.ofBigInt (asIntN32 n)).toInt = some (asIntN32 n) := by
  refine JsNumber.toInt_ofBigInt_iff.mpr (isDouble_of_lt ?_)
  have h₁ : 0 ≤ ((n : Int) + 2 ^ 31) % 2 ^ 32 := Int.emod_nonneg _ (by omega)
  have h₂ : ((n : Int) + 2 ^ 31) % 2 ^ 32 < 2 ^ 32 := Int.emod_lt_of_pos _ (by omega)
  rw [asIntN32]
  omega

theorem asIntN32_eq_iff {n : Nat} : asIntN32 n = (n : Int) ↔ n < 2 ^ 31 := by
  rw [asIntN32]
  omega

theorem getD_ofBigInt {default : JsNumber} {v : Int} {n : Option Nat} {k : Int}
    (hd : default.toInt = some k) (h : presentVarint k v = some n) :
    (n.map fun n : Nat => JsNumber.ofBigInt n).getD default = JsNumber.ofBigInt v := by
  have hv := ScopeTreeReader.presentVarint_getD h
  cases n
  case none => exact hv ▸ (JsNumber.ofBigInt_of_toInt hd).symm
  case some n => exact congrArg JsNumber.ofBigInt hv

-- The data of a parent as it is read, without the name.
def ScopeData.nameless (d : ScopeData) : ScopeData :=
  { d.stored with name := "" }

theorem ScopeData.nameless_inherit (p : Option ScopeData) (d : ScopeData) :
    d.nameless.inherit (p.map nameless) = (d.inherit p).nameless := by
  cases p
  case none => rfl
  case some p =>
    by_cases hc : p.type = .fsm ∧ (d.type = .fsmStates ∨ d.type = .fsmTrans)
    case pos =>
      have hd : d.inherit (some p)
          = { d with srcinfo := p.srcinfo, weight := p.weight, flags := p.flags } := if_pos hc
      rw [hd]
      exact if_pos hc
    case neg =>
      have hd : d.inherit (some p) = d := if_neg hc
      rw [hd]
      exact if_neg hc

theorem ScopeData.inherit_others (p : Option ScopeData) (d : ScopeData) :
    (d.inherit p).source = d.source ∧ (d.inherit p).goal = d.goal := by
  cases p
  case none => exact ⟨rfl, rfl⟩
  case some p =>
    rw [inherit]
    split <;> exact ⟨rfl, rfl⟩

theorem goal_iff {v : Int} {n : Option Nat} (h : presentVarint (-1) v = some n) :
    ((n.map fun n : Nat => JsNumber.ofBigInt (asIntN32 n)).getD .minusOne).toInt = some v ↔ v < 2 ^ 31 := by
  have hv := ScopeTreeReader.presentVarint_getD h
  cases n
  case none =>
    have hv : -1 = v := hv
    subst hv
    exact ⟨fun _ => by omega, fun _ => JsNumber.toInt_minusOne⟩
  case some n =>
    have hv : (n : Int) = v := hv
    subst hv
    rw [Option.map_some, Option.getD_some, asIntN32_toInt, Option.some.injEq, asIntN32_eq_iff]
    omega

section Header

open ScopeTreeReader (Knows)

variable {r : ScopeTreeReader} {t : TsScopeTreeReader} {w w' : ScopeTreeWriter} {s : Scope}
  {header : ScopeHeader}

theorem viewInTs_writeSource {si : SourceInfo} (hk : r.Knows (w.writeSource si).snd)
    (ht : t.files = r.files) (h : header.source = (w.writeSource si).fst) :
    (t.scopeData header []).sourceView = si.viewInTs := by
  have ⟨file, line, token⟩ := si
  rw [ScopeTreeWriter.writeSource] at h hk
  rw [TsScopeData.sourceView, SourceInfo.viewInTs]
  cases file
  case none => simp [TsScopeTreeReader.scopeData, h]
  case some file =>
    simp only at h hk
    split at h
    case isTrue hl =>
      have hn : ¬0 ≤ line := by omega
      simp [TsScopeTreeReader.scopeData, h, hn]
    case isFalse hl =>
      have hp : 0 ≤ line := by omega
      rw [if_neg hl] at hk
      have hf : t.files[(intern w.files file).fst]? = some file := ht ▸ intern.get?_of_prefix hk.2
      simp only [TsScopeTreeReader.scopeData, h, Option.bind_some, TsScopeTreeReader.fileHandle, hf,
        Option.map_some, ScopeTreeWriter.getFileId, hp, Option.isSome_some, true_and, if_true]
      rw [Int.toNat_of_nonneg hp, Int.max_comm 0, ← Int.ofNat_toNat]

theorem scopeData_nameless (h : w.writeHeader s = some (header, w')) (hk : r.Knows w')
    {p : Option ScopeData} (hf : takesFlags (p.map (·.type)) s.type = false → s.data.flags = 0) :
    r.scopeData ((p.map ScopeData.nameless).map (·.type)) header "" = s.data.nameless := by
  have hp : (p.map ScopeData.nameless).map (·.type) = p.map (·.type) := by cases p <;> rfl
  rw [hp, ScopeData.nameless, ← ScopeTreeReader.scopeData_writeHeader h hk hf]
  rfl

theorem headerAgrees_iff (h : w.writeHeader s = some (header, w')) (hk : r.Knows w')
    (ht : t.files = r.files) {p : Option ScopeData}
    (hf : takesFlags (p.map (·.type)) s.type = false → s.data.flags = 0) :
    HeaderAgrees r t (p.map ScopeData.nameless) header ↔ s.data.ReadsInTs p := by
  obtain ⟨weight, atLeast, goal, hw, _, hg, hh, he⟩ := ScopeTreeReader.writeHeader_ok h
  have hn := scopeData_nameless h hk hf
  have hsrc := viewInTs_writeSource (he ▸ hk) ht (congrArg ScopeHeader.source hh)
  have hflags : (t.scopeData header []).flags = .ofBigInt s.data.flags := by
    rw [hh]
    by_cases hz : s.data.flags = 0
    case pos =>
      rw [hz]
      exact (JsNumber.ofBigInt_of_toInt JsNumber.toInt_zero).symm
    case neg => simp [TsScopeTreeReader.scopeData, hz]
  have hweight : (t.scopeData header []).weight = .ofBigInt s.data.weight := by
    rw [hh]
    exact getD_ofBigInt JsNumber.toInt_one hw
  have hgoal : (t.scopeData header []).goal.toInt = some s.data.goal ↔ s.data.goal < 2 ^ 31 := by
    rw [hh]
    exact goal_iff hg
  have hsource : (t.scopeData header []).sourceType = s.data.source := by
    rw [hh]
    by_cases hz : s.data.source = .none <;> simp [TsScopeTreeReader.scopeData, hz]
  have htype : header.type = s.data.type := hh ▸ rfl
  obtain ⟨hi, hig⟩ := ScopeData.inherit_others p s.data
  have ht := ScopeData.inherit_type p s.data
  rw [HeaderAgrees, hn, ScopeData.nameless_inherit, ScopeData.view, TsScopeData.view, ScopeView.mk.injEq]
  constructor
  case mp =>
    rintro ⟨_, _, hvf, hvw, hvg, _, hvs⟩
    refine ⟨?_, ?_, hgoal.mp ?_, ?_⟩
    · rw [← hflags, ← hvf]; rfl
    · rw [← hweight, ← hvw]; rfl
    · rw [← hvg, ← hig]; rfl
    · rw [← hsrc, ← hvs]; rfl
  case mpr =>
    rintro ⟨hvf, hvw, hvg, hvs⟩
    refine ⟨ht.trans htype.symm, rfl, ?_, ?_, ?_, hi.trans hsource.symm, ?_⟩
    · rw [hflags, hvf]; rfl
    · rw [hweight, hvw]; rfl
    · rw [hgoal.mpr hvg, ← hig]; rfl
    · rw [hsrc, hvs]; rfl

theorem ScopeTreeWriter.type_writeScope {record : ScopeRecord} (h : w.writeScope s = some (record, w')) :
    record.type = s.type := by
  obtain ⟨d, is, ss⟩ := s
  rw [writeScope] at h
  split at h
  case isTrue hp =>
    cases h
    simp only [Scope.isTogglePair, decide_eq_true_eq] at hp
    exact hp.left.symm
  case isFalse =>
    simp only [Option.bind_eq_bind, Option.bind_eq_some_iff, Prod.exists, Option.pure_def,
      Option.some.injEq, Prod.mk.injEq] at h
    obtain ⟨_, _, hh, _, _, _, hr, _⟩ := h
    obtain ⟨_, _, _, _, _, _, hh, _⟩ := ScopeTreeReader.writeHeader_ok hh
    rw [← hr, ScopeRecord.type, hh]

theorem ScopeTreeWriter.types_writeScopes {ss : List Scope} {records : List ScopeRecord}
    (h : w.writeScopes ss = some (records, w')) :
    records.map (·.type) = ss.map (·.type) := by
  induction ss generalizing w w' records
  case nil => cases h; rfl
  case cons s ss hi =>
    simp only [writeScopes, Option.bind_eq_bind, Option.bind_eq_some_iff, Prod.exists,
      Option.pure_def, Option.some.injEq, Prod.mk.injEq] at h
    obtain ⟨_, _, h₁, _, _, h₂, hr, _⟩ := h
    rw [← hr, List.map_cons, type_writeScope h₁, hi h₂, List.map_cons]

theorem Scope.FsmFormed.fsmTypes {items : List CoverIndex} {scopes : List Scope}
    (h : FsmFormed items scopes) : FsmTypes (scopes.map (·.type)) := by
  have ⟨_, _, _, others, he, hs, ht, ho⟩ := h
  refine ⟨others.map (·.type), by simp [he, hs, ht], fun type hm => ?_⟩
  have ⟨s, hm, ht⟩ := List.mem_map.mp hm
  exact ht ▸ ho s hm

end Header

section Tree

open ScopeTreeReader (Knows extends_writeScopes addScopes addScopes_of_not_fsm)
open Scope (Built BuiltAll ReadsInTs ReadsInTsAll)

variable {r : ScopeTreeReader} {t : TsScopeTreeReader}

mutual

theorem dataAgrees_iff (ht : t.files = r.files) : (s : Scope) → {w w' : ScopeTreeWriter} →
    {record : ScopeRecord} → {p : Option ScopeData} → s.Built (p.map (·.type)) →
    w.writeScope s = some (record, w') → r.Knows w' →
    (DataAgrees r t (p.map ScopeData.nameless) record ↔ s.ReadsInTs p)
  | .mk d is ss, w, w', record, p, hb, h, hk => by
    rw [ScopeTreeWriter.writeScope] at h
    rw [ReadsInTs]
    split at h
    case isTrue hp =>
      cases h
      exact ⟨fun _ => .inl hp, fun _ => trivial⟩
    case isFalse hp =>
      simp only [Option.bind_eq_bind, Option.bind_eq_some_iff, Prod.exists, Option.pure_def,
        Option.some.injEq, Prod.mk.injEq] at h
      have ⟨header, w₁, hh, records, w₂, hs, hr, he⟩ := h
      rw [Built] at hb
      have ⟨hf, hfsm, hbs⟩ := hb
      rw [← he] at hk
      have hk₁ := hk.of_extends <| extends_writeScopes ss hs
      have hk₀ := hk₁.of_extends (.writeItems ..)
      have hheader := headerAgrees_iff hh hk₀ ht (p := p) hf
      have hdata := scopeData_nameless hh hk₀ (p := p) hf
      have hall := dataAgreesAll_iff ht ss hbs (p := some d) hs hk
      have htype : header.type = d.type := by
        have ⟨_, _, _, _, _, _, hh, _⟩ := ScopeTreeReader.writeHeader_ok hh
        exact hh ▸ rfl
      have hfsm : header.type = .fsm → (w₁.writeItems is).fst = [] ∧ FsmTypes (records.map (·.type)) := by
        intro ht
        have hfsm := hfsm (htype ▸ ht)
        rw [ScopeTreeWriter.types_writeScopes hs, hfsm.left]
        exact ⟨rfl, hfsm.fsmTypes⟩
      rw [← hr, DataAgrees, hheader, hdata]
      refine Iff.trans ?_ (or_iff_right hp).symm
      exact ⟨fun ⟨h, _, hs⟩ => ⟨h, hall.mp hs⟩, fun ⟨h, hs⟩ => ⟨h, hfsm, hall.mpr hs⟩⟩

theorem dataAgreesAll_iff (ht : t.files = r.files) : (ss : List Scope) → {w w' : ScopeTreeWriter} →
    {records : List ScopeRecord} → {p : Option ScopeData} → BuiltAll (p.map (·.type)) ss →
    w.writeScopes ss = some (records, w') → r.Knows w' →
    (DataAgreesAll r t (p.map ScopeData.nameless) records ↔ ReadsInTsAll p ss)
  | [], w, w', records, p, _, h, _ => by
    cases h
    exact Iff.rfl
  | s :: ss, w, w', records, p, hb, h, hk => by
    simp only [ScopeTreeWriter.writeScopes, Option.bind_eq_bind, Option.bind_eq_some_iff,
      Prod.exists, Option.pure_def, Option.some.injEq, Prod.mk.injEq] at h
    have ⟨record, w₁, h₁, records', w₂, h₂, hr, he⟩ := h
    rw [BuiltAll] at hb
    rw [← he] at hk
    have hk₁ := hk.of_extends <| extends_writeScopes ss h₂
    rw [← hr, DataAgreesAll, ReadsInTsAll, dataAgrees_iff ht s hb.left h₁ hk₁,
      dataAgreesAll_iff ht ss hb.right h₂ hk]

end

theorem Numbered.isSome_lookup {α : Type} [DecidableEq α] {start table : List α} {refs : List Nat}
    {names : List α} (h : Numbered start table refs names) {ref : Nat} (hr : ref ∈ refs) :
    ∃ x, table[ref]? = some x := by
  have hm := List.mem_map_of_mem (f := (table[·]?)) hr
  rw [h.lookup table List.prefix_rfl] at hm
  have ⟨x, _, hx⟩ := List.mem_map.mp hm
  exact ⟨x, hx.symm⟩

theorem nameAgrees_iff {ref : Nat} (h : ∃ name, r.strings[ref]? = some name) :
    NameAgrees r t ref ↔ t.strings[ref]? = r.strings[ref]?.map .ofString := by
  have ⟨name, hn⟩ := h
  rw [NameAgrees, hn]
  simp

theorem readEach_of_readScopes {records : List ScopeRecord} {counts rest : Counts} {ss : List Scope}
    (h : r.readScopes none [] records counts = some (addScopes none [] ss, rest)) :
    r.readEach none records counts = some (ss, rest) := by
  have hn : ∀ ss : List Scope, addScopes none [] ss = ss :=
    fun ss => (addScopes_of_not_fsm (by simp) [] ss).trans (List.nil_append ss)
  rw [ScopeTreeReader.readScopes_eq, hn] at h
  have ⟨(_, _), hx, he⟩ := Option.map_eq_some_iff.mp h
  simp only [hn] at he
  exact he ▸ hx

-- What is read of the same records, without a parent.
theorem readScopes_agree_iff {records : List ScopeRecord} (hf : FormedAll records) {counts rest : Counts}
    {ss : List Scope} (h : r.readEach none records counts = some (ss, rest)) :
    (∃ xs, (t.readScopes records counts).map (·.fst) = some xs ∧
      xs.map TsScope.view = ss.map Scope.view) ↔ AgreesAll r t none records := by
  have hr : rest = counts.drop (ScopeRecord.binCountAll records) := ScopeTreeReader.readEach_rest h
  have hi := agreesAll_iff (t := t) records hf (p := none) h
  have he : (ss.map fun s => (s.inherit none).view) = ss.map Scope.view :=
    List.map_congr_left fun ⟨_, _, _⟩ _ => rfl
  rw [he] at hi
  rw [← hi]
  constructor
  case mp =>
    intro ⟨xs, hx, hv⟩
    have ⟨(xs', rest'), hx', hxs⟩ := Option.map_eq_some_iff.mp hx
    have hr' := (TsScopeTreeReader.readScopes_rest records hx').trans hr.symm
    subst hr' hxs
    exact ⟨xs', hx', hv⟩
  case mpr => exact fun ⟨xs, hx, hv⟩ => ⟨xs, congrArg _ hx, hv⟩

-- What the Python library wrote of a database that it built.
theorem ScopeTreeMembers.readTs_writePython_iff {scopes : List Scope} {m : ScopeTreeMembers}
    (hb : BuiltAll none scopes) (h : writePython scopes = some m) :
    (∃ xs ss, m.readTs = some xs ∧ m.readPython = some ss ∧
        xs.map TsScope.view = ss.map Scope.view) ↔
      (∀ name ∈ Scope.namesAll scopes, name.toList.head? ≠ some byteOrderMark) ∧
        ReadsInTsAll none scopes := by
  simp only [writePython, ScopeTreeWriter.write, Option.bind_eq_bind, Option.bind_eq_some_iff,
    Option.pure_def, Option.some.injEq, Prod.exists, Prod.mk.injEq] at h
  obtain ⟨_, w, ⟨records, w', hw, hd, he⟩, hm⟩ := h
  subst he hd hm
  have hnum := ScopeTreeWriter.numbered_writeScopes scopes hw
  have hf := ScopeTreeWriter.formed_writeScopes scopes hw
  have hn : internAll w'.strings = w'.strings := internAll_of_nodup (hnum.nodup List.nodup_nil)
  let r : ScopeTreeReader := ⟨w'.strings, w'.files⟩
  let t : TsScopeTreeReader := ⟨internAll (w'.strings.map textDecode), w'.files⟩
  have hk : r.Knows w' := ⟨List.prefix_rfl, List.prefix_rfl⟩
  obtain ⟨counts, hc, hread⟩ := ScopeTreeReader.readScopes_writeScopes scopes hb hw hk
  have hread := readEach_of_readScopes (hread [] [])
  rw [List.append_nil, ← List.nil_append counts, ← hc] at hread
  have hnames := hnum.lookups_iff (f := textDecode) List.nodup_nil JsString.ofString_injective (by simp) (by simp)
  have hagree : (∀ ref ∈ ScopeRecord.refsAll records, NameAgrees r t ref) ↔ _ :=
    forall₂_congr fun ref hr => nameAgrees_iff (t := t) (hnum.isSome_lookup hr)
  have hdata := dataAgreesAll_iff (t := t) rfl scopes hb hw hk (p := none)
  have hiff := (readScopes_agree_iff (t := t) hf hread).trans (agreesAll_iff_names records)
  have hholds : Holds ⟨w'.strings, w'.files, ScopeRecord.encodeAll records,
      CountsWriter.serialize w'.counts⟩ records w'.counts := ⟨hf, rfl, rfl⟩
  have hmarks : (∀ name ∈ Scope.namesAll scopes, textDecode name = JsString.ofString name) ↔ _ :=
    forall₂_congr fun _ _ => JsString.textDecode_eq_ofString_iff
  rw [hholds.readTs_eq, hholds.readPython_eq, hn, hread]
  refine Iff.trans ?_ (hiff.trans (and_congr (hagree.trans (hnames.trans hmarks)) hdata))
  constructor
  case mp =>
    rintro ⟨xs, _, hx, hs, hv⟩
    exact ⟨xs, hx, hv.trans (congrArg _ (Option.some.inj hs).symm)⟩
  case mpr =>
    rintro ⟨xs, hx, hv⟩
    exact ⟨xs, _, hx, rfl, hv⟩

end Tree
