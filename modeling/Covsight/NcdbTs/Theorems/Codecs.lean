import Covsight.NcdbTs.Theorems.SelfRead

-- What the TypeScript library writes, read by both libraries.

open ScopeRecord (Formed FormedAll)

-- The class of the scope takes its flags, its goal has no sign but that of the default, and what the
-- mandatory sub-scopes of an FSM scope take over is what they have.
structure TsScopeData.ReadsInPython (p : Option TsScopeData) (d : TsScopeData) : Prop where
  flags     : takesFlags (p.map (·.scopeType)) d.scopeType = false → d.flags = .zero
  goal      : ∀ n, d.goal.toInt = some n → -1 ≤ n
  mandatory : ∀ q ∈ p, q.scopeType = .fsm → d.scopeType = .fsmStates ∨ d.scopeType = .fsmTrans →
    d.flags = q.flags ∧ d.weight = q.weight ∧ d.sourceView = q.sourceView

namespace TsScope

mutual

-- The items of an FSM scope are those of its sub-scopes, of which the two mandatory ones come first.
def ReadsInPython (p : Option TsScopeData) : TsScope → Prop
  | mk d is ss => (mk d is ss).isTogglePair ∨
    d.ReadsInPython p ∧ (d.scopeType = .fsm → is = [] ∧ FsmTypes (ss.map (·.data.scopeType))) ∧
      ReadsInPythonAll (some d) ss

def ReadsInPythonAll (p : Option TsScopeData) : List TsScope → Prop
  | []      => True
  | s :: ss => s.ReadsInPython p ∧ ReadsInPythonAll p ss

end

end TsScope

-- A database that both libraries read as it is.
structure TsUCIS.Portable (db : TsUCIS) : Prop where
  names         : ∀ name ∈ TsScope.namesAll db.children, name.IsText
  readsBack     : TsScope.ReadsBackAll db.filePaths db.children
  readsInPython : TsScope.ReadsInPythonAll none db.children

theorem toInt_writeUnless {default x : JsNumber} {n : Option Nat} {k : Nat}
    (hd : default.toInt = some (k : Int)) (h : writeUnless default writeNumber x = some n) :
    x.toInt = some ((n.getD k : Nat) : Int) := by
  rw [writeUnless] at h
  split at h
  case isTrue hx =>
    cases h
    exact hx ▸ hd
  case isFalse =>
    obtain ⟨k, hk, hn⟩ := Option.map_eq_some_iff.mp h
    subst hn
    exact writeNumber_eq_some_iff.mp hk

-- Python takes the lowest 32 bits of a goal for the goal itself.
theorem goal_getD_iff {x : JsNumber} {n : Option Nat} {g : Int} (hg : x.toInt = some g)
    (hb : -2 ^ 31 ≤ g ∧ g < 2 ^ 31)
    (h : writeUnless .minusOne (fun goal => goal.toInt.map asUintN32) x = some n) :
    (n.map Int.ofNat).getD (-1) = g ↔ -1 ≤ g := by
  rw [writeUnless, hg] at h
  split at h
  case isTrue hx =>
    cases h
    have he : -1 = g := Option.some.inj <| JsNumber.toInt_minusOne.symm.trans <| hx ▸ hg
    exact ⟨fun _ => by omega, fun _ => he⟩
  case isFalse hx =>
    cases h
    have hne : g ≠ -1 := fun he => hx <| JsNumber.toInt_inj (he ▸ hg) JsNumber.toInt_minusOne
    simp only [Option.map_some, Option.getD_some, Int.ofNat_eq_natCast, asUintN32]
    omega

section Header

open TsScopeTreeWriter (writeHeader writeSource writeHeader_ok)

variable {r : ScopeTreeReader} {t : TsScopeTreeReader} {d : TsScopeData} {items : List TsCoverItem}
  {nameRef : Nat} {header : ScopeHeader}

theorem sourceInfo_view (ht : t.files = r.files) (hd : SourceReadsBack t.files d.fileHandle d.sourceInfo)
    {source : Option SourceRef} (h : writeSource d.fileHandle d.sourceInfo = some source) :
    (r.sourceInfo source).view = d.sourceView := by
  rw [TsScopeData.sourceView]
  cases hf : d.fileHandle <;> cases hs : d.sourceInfo <;> rw [hf, hs] at h hd
  case none.none =>
    cases h
    rfl
  case some.some handle info =>
    obtain ⟨fileId, line, token, hi, hl, hk, hp⟩ := hd
    simp only [writeSource, Option.bind_eq_bind, writeNumber_eq_some_iff.mpr hi,
      writeNumber_eq_some_iff.mpr hl, writeNumber_eq_some_iff.mpr hk, Option.bind_some,
      Option.pure_def, Option.some.injEq] at h
    subst h
    simp [ScopeTreeReader.sourceInfo, SourceInfo.view, ← ht, hp, hl, hk]
  all_goals exact hd.elim

-- What Python has of a scope before an FSM scope above it is looked at.
structure ReadAs (parent : Option ScopeTypeT) (q : ScopeData) (d : TsScopeData) : Prop where
  type   : q.type = d.scopeType
  name   : q.name = ""
  flags  : some (q.flags : Int)
    = if takesFlags parent d.scopeType then d.flags.toInt else JsNumber.zero.toInt
  weight : some q.weight = d.weight.toInt
  goal   : some q.goal = d.goal.toInt ↔ ∀ n, d.goal.toInt = some n → -1 ≤ n
  source : q.source = d.sourceType
  view   : q.srcinfo.view = d.sourceView

theorem readAs_scopeData (h : writeHeader d items nameRef = some header) (hd : d.ReadsBack t.files)
    (ht : t.files = r.files) (parent : Option ScopeTypeT) :
    ReadAs parent (r.scopeData parent header "") d := by
  have ⟨flags, source, weight, atLeast, goal, hf, hs, hw, _, hg, hh⟩ := writeHeader_ok h
  have hflags := toInt_writeUnless JsNumber.toInt_zero hf
  have hweight := toInt_writeUnless JsNumber.toInt_one hw
  have ⟨g, hgoal, hb⟩ := hd.goal
  have hiff := goal_getD_iff hgoal hb hg
  have hview := sourceInfo_view ht hd.source hs
  subst hh
  refine ⟨rfl, rfl, ?_, ?_, ?_, ?_, hview⟩
  · rw [hflags]
    simp only [ScopeTreeReader.scopeData]
    split <;> rfl
  · rw [hweight]
    cases weight <;> rfl
  · rw [hgoal]
    simp only [ScopeTreeReader.scopeData, hiff, Option.some.injEq, forall_eq']
  · simp only [ScopeTreeReader.scopeData]
    by_cases hz : d.sourceType = .none <;> simp [hz]

-- The data of a parent, as far as sub-scopes take it over.
structure Mirrors (q : ScopeData) (d : TsScopeData) : Prop where
  type : q.type = d.scopeType
  fsm  : d.scopeType = .fsm → some (q.flags : Int) = d.flags.toInt ∧ some q.weight = d.weight.toInt ∧
    q.srcinfo.view = d.sourceView

theorem JsNumber.toInt_eq_iff {x y : JsNumber} {n : Int} (hx : x.toInt = some n) :
    y.toInt = x.toInt ↔ x = y :=
  ⟨fun h => JsNumber.toInt_inj hx (h.trans hx), fun h => h ▸ rfl⟩

theorem ReadAs.flags_iff {parent : Option ScopeTypeT} {q : ScopeData} (h : ReadAs parent q d)
    {n : Int} (hn : d.flags.toInt = some n) :
    some (q.flags : Int) = d.flags.toInt ↔ (takesFlags parent d.scopeType = false → d.flags = .zero) := by
  rw [h.flags]
  by_cases hc : takesFlags parent d.scopeType = true
  case pos => simp [hc]
  case neg =>
    rw [if_neg hc, JsNumber.toInt_eq_iff hn]
    simp [hc]

theorem view_iff (hd : d.ReadsBack t.files) (h : writeHeader d items nameRef = some header)
    {q : ScopeData} (hn : q.name = "") (ht : q.type = d.scopeType) (hs : q.source = d.sourceType) :
    q.view = (t.scopeData header []).view ↔
      some (q.flags : Int) = d.flags.toInt ∧ some q.weight = d.weight.toInt ∧
        some q.goal = d.goal.toInt ∧ q.srcinfo.view = d.sourceView := by
  have hv := (TsScopeTreeReader.view_scopeData_writeHeader_iff h).mpr ⟨rfl, hd⟩
  have hv : (t.scopeData header []).view = { d.view with name := [] } :=
    congrArg (fun v : ScopeView => { v with name := [] }) hv
  rw [hv, ScopeData.view, TsScopeData.view, ScopeView.mk.injEq, ht, hn, hs]
  constructor
  case mp  => rintro ⟨_, _, hf, hw, hg, _, hs⟩; exact ⟨hf, hw, hg, hs⟩
  case mpr => rintro ⟨hf, hw, hg, hs⟩; exact ⟨rfl, rfl, hf, hw, hg, rfl, hs⟩

theorem headerAgrees_writeHeader_iff (h : writeHeader d items nameRef = some header)
    (hd : d.ReadsBack t.files) (ht : t.files = r.files) {q : Option ScopeData} {p : Option TsScopeData}
    (hm : Option.Rel Mirrors q p) : HeaderAgrees r t q header ↔ d.ReadsInPython p := by
  obtain ⟨flags, hflags⟩ := hd.flags
  obtain ⟨weight, hweight⟩ := hd.weight
  have hp : q.map (·.type) = p.map (·.scopeType) := by
    cases hm
    case some hm => exact congrArg some hm.type
    case none    => rfl
  have hr := readAs_scopeData (r := r) h hd ht (p.map (·.scopeType))
  have hi := ScopeData.inherit_others q (r.scopeData (p.map (·.scopeType)) header "")
  rw [HeaderAgrees, hp, view_iff hd h ((ScopeData.inherit_name _).trans hr.name)
    ((ScopeData.inherit_type ..).trans hr.type) (hi.left.trans hr.source), hi.right, hr.goal]
  by_cases hc : ∃ q ∈ p, q.scopeType = .fsm ∧ (d.scopeType = .fsmStates ∨ d.scopeType = .fsmTrans)
  case neg =>
    have hn : (r.scopeData (p.map (·.scopeType)) header "").inherit q
        = r.scopeData (p.map (·.scopeType)) header "" := by
      cases hm
      case none    => rfl
      case some hm => exact if_neg fun hf => hc ⟨_, rfl, hm.type ▸ hf.left, hr.type ▸ hf.right⟩
    rw [hn, hr.flags_iff hflags]
    constructor
    case mp =>
      rintro ⟨hf, _, hg, _⟩
      exact ⟨hf, hg, fun q hq ht hd => absurd ⟨q, hq, ht, hd⟩ hc⟩
    case mpr => exact fun h => ⟨h.flags, hr.weight, h.goal, hr.view⟩
  case pos =>
    obtain ⟨p', hp, hfsm, htype⟩ := hc
    obtain rfl : p = some p' := hp
    cases hm
    case some q hm =>
      obtain ⟨hqf, hqw, hqs⟩ := hm.fsm hfsm
      have hs : (r.scopeData ((some p').map (·.scopeType)) header "").inherit (some q) = _ :=
        if_pos ⟨hm.type.trans hfsm, hr.type ▸ htype⟩
      have htakes : takesFlags ((some p').map (·.scopeType)) d.scopeType = true := by
        cases htype <;> simp [takesFlags, *]
      rw [hs]
      simp only [hqf, hqw, hqs, JsNumber.toInt_eq_iff hflags, JsNumber.toInt_eq_iff hweight]
      constructor
      case mp =>
        rintro ⟨hf, hw, hg, hs⟩
        refine ⟨fun hn => absurd (hn.symm.trans htakes) Bool.false_ne_true, hg, fun q hq _ _ => ?_⟩
        obtain rfl : p' = q := Option.some.inj hq
        exact ⟨hf, hw, hs.symm⟩
      case mpr =>
        intro h
        obtain ⟨hf, hw, hs⟩ := h.mandatory p' rfl hfsm htype
        exact ⟨hf, hw, h.goal, hs.symm⟩

-- An FSM scope has no FSM scope that it takes anything over from.
theorem mirrors_of_headerAgrees (h : writeHeader d items nameRef = some header)
    (hd : d.ReadsBack t.files) (ht : t.files = r.files) {q : Option ScopeData}
    (ha : HeaderAgrees r t q header) :
    Mirrors (r.scopeData (q.map (·.type)) header "") d := by
  have hr := readAs_scopeData (r := r) h hd ht (q.map (·.type))
  refine ⟨hr.type, fun hfsm => ?_⟩
  have hn : (r.scopeData (q.map (·.type)) header "").type ≠ .fsmStates ∧
      (r.scopeData (q.map (·.type)) header "").type ≠ .fsmTrans := by
    rw [hr.type, hfsm]
    exact ⟨nofun, nofun⟩
  rw [HeaderAgrees, ScopeData.inherit_of_ne hn, view_iff hd h hr.name hr.type hr.source] at ha
  exact ⟨ha.left, ha.right.left, hr.view⟩

end Header

section Tree

open TsScopeTreeWriter (numbered_writeScopes)

variable {r : ScopeTreeReader} {t : TsScopeTreeReader}

theorem TsScopeTreeWriter.type_writeScope {w w' : TsScopeTreeWriter} {s : TsScope} {record : ScopeRecord}
    (h : w.writeScope s = some (record, w')) : record.type = s.data.scopeType := by
  obtain ⟨d, is, ss⟩ := s
  rw [writeScope] at h
  split at h
  case isTrue hp =>
    cases h
    exact (of_decide_eq_true hp).left.symm
  case isFalse =>
    simp only [Option.bind_eq_bind, Option.bind_eq_some_iff, Prod.exists, Option.pure_def,
      Option.some.injEq, Prod.mk.injEq] at h
    obtain ⟨_, hh, _, _, _, hr, _⟩ := h
    obtain ⟨_, _, _, _, _, _, _, _, _, _, hh⟩ := writeHeader_ok hh
    rw [← hr, ScopeRecord.type, hh]
    rfl

theorem TsScopeTreeWriter.types_writeScopes {w w' : TsScopeTreeWriter} {ss : List TsScope}
    {records : List ScopeRecord} (h : w.writeScopes ss = some (records, w')) :
    records.map (·.type) = ss.map (·.data.scopeType) := by
  induction ss generalizing w w' records
  case nil => cases h; rfl
  case cons s ss hi =>
    simp only [writeScopes, Option.bind_eq_bind, Option.bind_eq_some_iff, Prod.exists,
      Option.pure_def, Option.some.injEq, Prod.mk.injEq] at h
    obtain ⟨_, _, h₁, _, _, h₂, hr, _⟩ := h
    rw [← hr, List.map_cons, type_writeScope h₁, hi h₂, List.map_cons]

mutual

theorem dataAgrees_writeScope_iff (ht : t.files = r.files) : (s : TsScope) →
    {w w' : TsScopeTreeWriter} → {record : ScopeRecord} → w.writeScope s = some (record, w') →
    s.ReadsBack t.files → {q : Option ScopeData} → {p : Option TsScopeData} → Option.Rel Mirrors q p →
    (DataAgrees r t q record ↔ s.ReadsInPython p)
  | .mk d is ss, w, w', record, h, hb, q, p, hm => by
    rw [TsScopeTreeWriter.writeScope] at h
    rw [TsScope.ReadsInPython]
    rw [TsScope.ReadsBack] at hb
    split at h
    case isTrue hp =>
      cases h
      exact ⟨fun _ => .inl hp, fun _ => trivial⟩
    case isFalse hp =>
      simp only [Option.bind_eq_bind, Option.bind_eq_some_iff, Prod.exists, Option.pure_def,
        Option.some.injEq, Prod.mk.injEq] at h
      have ⟨header, hh, records, w₂, hs, hr, _⟩ := h
      rw [if_neg hp] at hb
      have ⟨_, hd, _, hbs⟩ := hb
      have hheader := headerAgrees_writeHeader_iff hh hd ht hm
      have htype : header.type = d.scopeType := by
        have ⟨_, _, _, _, _, _, _, _, _, _, hh⟩ := TsScopeTreeWriter.writeHeader_ok hh
        exact hh ▸ rfl
      have hrefs : ((w.internString d.logicalName).snd.writeItems is).fst = [] ↔ is = [] := by
        rw [← List.length_eq_zero_iff, ← List.length_eq_zero_iff, TsScopeTreeReader.length_writeItems]
      rw [← hr, DataAgrees, htype, hrefs, TsScopeTreeWriter.types_writeScopes hs, hheader]
      refine Iff.trans (and_congr_right fun hp => and_congr_right fun _ => ?_) (or_iff_right hp).symm
      have hm := mirrors_of_headerAgrees hh hd ht (hheader.mpr hp)
      exact dataAgreesAll_writeScopes_iff ht ss hs hbs (.some hm)

theorem dataAgreesAll_writeScopes_iff (ht : t.files = r.files) : (ss : List TsScope) →
    {w w' : TsScopeTreeWriter} → {records : List ScopeRecord} →
    w.writeScopes ss = some (records, w') → TsScope.ReadsBackAll t.files ss →
    {q : Option ScopeData} → {p : Option TsScopeData} → Option.Rel Mirrors q p →
    (DataAgreesAll r t q records ↔ TsScope.ReadsInPythonAll p ss)
  | [], w, w', records, h, _, q, p, _ => by
    cases h
    exact Iff.rfl
  | s :: ss, w, w', records, h, hb, q, p, hm => by
    simp only [TsScopeTreeWriter.writeScopes, Option.bind_eq_bind, Option.bind_eq_some_iff,
      Prod.exists, Option.pure_def, Option.some.injEq, Prod.mk.injEq] at h
    have ⟨_, _, h₁, _, _, h₂, hr, _⟩ := h
    rw [TsScope.ReadsBackAll] at hb
    rw [← hr, DataAgreesAll, TsScope.ReadsInPythonAll, dataAgrees_writeScope_iff ht s h₁ hb.left hm,
      dataAgreesAll_writeScopes_iff ht ss h₂ hb.right hm]

end

end Tree

namespace TsScopeTreeWriter

mutual

theorem formed_writeScope : (s : TsScope) → {w w' : TsScopeTreeWriter} → {record : ScopeRecord} →
    w.writeScope s = some (record, w') → record.Formed
  | .mk d is ss, w, w', record, h => by
    rw [writeScope] at h
    split at h
    case isTrue =>
      cases h
      trivial
    case isFalse =>
      simp only [Option.bind_eq_bind, Option.bind_eq_some_iff, Prod.exists, Option.pure_def,
        Option.some.injEq, Prod.mk.injEq] at h
      have ⟨header, hh, records, w₂, hs, hr, _⟩ := h
      have ⟨_, _, _, _, _, _, _, _, _, _, hh⟩ := writeHeader_ok hh
      rw [← hr, ScopeRecord.Formed, hh]
      refine ⟨?_, formed_writeScopes ss hs⟩
      cases is <;> simp [writeItems]

theorem formed_writeScopes : (ss : List TsScope) → {w w' : TsScopeTreeWriter} →
    {records : List ScopeRecord} → w.writeScopes ss = some (records, w') → FormedAll records
  | [], w, w', records, h => by
    cases h
    trivial
  | s :: ss, w, w', records, h => by
    simp only [writeScopes, Option.bind_eq_bind, Option.bind_eq_some_iff, Prod.exists,
      Option.pure_def, Option.some.injEq, Prod.mk.injEq] at h
    have ⟨_, _, h₁, _, _, h₂, hr, _⟩ := h
    rw [← hr]
    exact ⟨formed_writeScope s h₁, formed_writeScopes ss h₂⟩

end

end TsScopeTreeWriter

-- The Python library reads every record whose strings it finds.

namespace ScopeTreeReader

variable {r : ScopeTreeReader}

theorem exists_readItems {type : CoverTypeT} {atLeast : Nat} {refs : List Nat}
    (h : ∀ ref ∈ refs, ∃ name, r.strings[ref]? = some name) (counts : Counts) :
    ∃ items rest, r.readItems type atLeast refs counts = some (items, rest) := by
  induction refs generalizing counts
  case nil => exact ⟨[], counts, rfl⟩
  case cons ref refs hi =>
    rw [List.forall_mem_cons] at h
    have ⟨name, hn⟩ := h.left
    have ⟨items, rest, hr⟩ := hi h.right counts.tail
    simp [readItems, hn, hr]

mutual

theorem exists_readScope : (record : ScopeRecord) →
    (∀ ref ∈ record.refs, ∃ name, r.strings[ref]? = some name) → (parent : Option ScopeTypeT) →
    (counts : Counts) → ∃ s rest, r.readScope parent record counts = some (s, rest)
  | .togglePair ref, h, parent, counts => by
    have ⟨name, hn⟩ := h ref (.head _)
    simp [readScope, hn]
  | .regular header refs records, h, parent, counts => by
    rw [ScopeRecord.refs, List.forall_mem_cons, List.forall_mem_append] at h
    have ⟨⟨name, hn⟩, hi, hs⟩ := h
    have ⟨items, rest, hi⟩ : ∃ items rest, r.readHeaderItems header refs counts = some (items, rest) := by
      rw [readHeaderItems]
      split
      case h_1 => exact ⟨[], counts, rfl⟩
      case h_2 => exact exists_readItems hi counts
    have ⟨ss, rest', hs⟩ := exists_readEach records hs (some header.type) rest
    simp [readScope, hn, hi, readScopes_eq, hs]

theorem exists_readEach : (records : List ScopeRecord) →
    (∀ ref ∈ ScopeRecord.refsAll records, ∃ name, r.strings[ref]? = some name) →
    (parent : Option ScopeTypeT) → (counts : Counts) →
    ∃ ss rest, r.readEach parent records counts = some (ss, rest)
  | [], _, parent, counts => ⟨[], counts, rfl⟩
  | record :: records, h, parent, counts => by
    rw [ScopeRecord.refsAll, List.forall_mem_append] at h
    have ⟨s, rest, hs⟩ := exists_readScope record h.left parent counts
    have ⟨ss, rest', hss⟩ := exists_readEach records h.right parent rest
    simp [readEach, hs, hss]

end

end ScopeTreeReader

-- The members that the TypeScript library writes.

namespace TsUCIS

open TsScope (namesAll countsAll ReadsBackAll ReadsInPythonAll)

variable {db : TsUCIS} {m : ScopeTreeMembers} {records : List ScopeRecord} {w : TsScopeTreeWriter}
  {counts : Counts}

structure Wrote (db : TsUCIS) (m : ScopeTreeMembers) (records : List ScopeRecord)
    (w : TsScopeTreeWriter) (counts : Counts) : Prop where
  scopes  : TsScopeTreeWriter.writeScopes {} db.children = some (records, w)
  written : counts.map Int.ofNat = countsAll db.children
  strings : m.strings = w.strings.map textEncode
  files   : m.files = db.filePaths
  holds   : m.Holds records counts

theorem wrote_of_write (h : db.write = some m) : ∃ records w counts, db.Wrote m records w counts := by
  simp only [write, Option.bind_eq_bind, Option.bind_eq_some_iff, Option.pure_def,
    Option.some.injEq, Prod.exists] at h
  have ⟨records, w, hw, counts, hc, hm⟩ := h
  have hc := TsScopeTreeReader.mapM_writeBigInt_iff.mp hc
  rw [TsScopeTreeWriter.counts_writeScopes db.children hw] at hc
  subst hm
  exact ⟨records, w, counts, hw, hc, rfl, rfl, TsScopeTreeWriter.formed_writeScopes _ hw, rfl, rfl⟩

theorem exists_write (h : ReadsBackAll db.filePaths db.children) : ∃ m, db.write = some m := by
  have ⟨records, w, hw⟩ := TsScopeTreeReader.exists_writeScopes db.children h {}
  have ⟨counts, hc⟩ := TsScopeTreeReader.exists_counts (TsScopeTreeReader.countsAll_nonneg _ h)
  have hn : w.counts = countsAll db.children := TsScopeTreeWriter.counts_writeScopes db.children hw
  have hc := TsScopeTreeReader.mapM_writeBigInt_iff.mpr hc
  simp [write, hw, hn, hc]

namespace Wrote

theorem numbered (h : db.Wrote m records w counts) :
    Numbered [[]] w.strings (ScopeRecord.refsAll records) (namesAll db.children) :=
  TsScopeTreeWriter.numbered_writeScopes db.children h.scopes

theorem readTs_iff (h : db.Wrote m records w counts) :
    (∃ xs, m.readTs = some xs ∧ xs.map TsScope.view = db.children.map TsScope.view) ↔
      (∀ name ∈ namesAll db.children, name.IsText) ∧ ReadsBackAll db.filePaths db.children := by
  have hz : textDecode (textEncode []) = [] := by simp [textEncode, textDecode]
  have hstart : w.strings = [] :: w.strings.tail := by
    obtain ⟨_, he⟩ := h.numbered.extends_table
    rw [← he]
    rfl
  have hnames := h.numbered.lookups_iff (f := textDecode ∘ textEncode) (g := id) (List.nodup_singleton _)
    Function.injective_id (List.forall_mem_singleton.mpr hz) <| by
      intro i x hx
      obtain ⟨hi, hx⟩ := List.getElem?_eq_some_iff.mp hx
      obtain rfl : i = 0 := Nat.lt_one_iff.mp hi
      subst hx
      rw [hstart, List.map_cons, getElem?_internAll_zero]
      exact congrArg some hz
  rw [h.holds.readTs_eq, h.strings, List.map_map, h.files]
  have hread := TsScopeTreeReader.readScopes_writeScopes_iff (t := ⟨internAll
    (w.strings.map (textDecode ∘ textEncode)), db.filePaths⟩) db.children h.scopes List.prefix_rfl
    h.written []
  simp only [Option.map_id_fun, id_eq] at hnames
  rw [hnames, List.append_nil] at hread
  refine Iff.trans ?_ hread
  constructor
  case mp =>
    rintro ⟨xs, hx, hv⟩
    obtain ⟨⟨xs', rest⟩, hx', he⟩ := Option.map_eq_some_iff.mp hx
    have hl : counts.length = (countsAll db.children).length := by
      simpa using congrArg List.length h.written
    have hr := TsScopeTreeReader.readScopes_rest records hx'
    rw [TsScopeTreeReader.binCountAll_writeScopes _ h.scopes, ← hl, List.drop_length] at hr
    subst hr he
    exact ⟨xs', hx', hv⟩
  case mpr =>
    rintro ⟨xs, hx, hv⟩
    exact ⟨xs, congrArg _ hx, hv⟩

theorem isText_strings (h : db.Wrote m records w counts)
    (hn : ∀ name ∈ namesAll db.children, name.IsText) : ∀ x ∈ w.strings, x.IsText := by
  intro x hx
  cases h.numbered.mem x hx
  case inl hm => exact List.mem_singleton.mp hm ▸ (by simp [JsString.IsText, textEncode, textDecode])
  case inr hm => exact hn x hm

-- The strings that both libraries find.
theorem strings_eq (h : db.Wrote m records w counts)
    (hn : ∀ name ∈ namesAll db.children, name.IsText) :
    internAll m.strings = w.strings.map textEncode ∧
      internAll (m.strings.map textDecode) = w.strings := by
  have hnodup : w.strings.Nodup := h.numbered.nodup (List.nodup_singleton _)
  have hback : (w.strings.map textEncode).map textDecode = w.strings := by
    rw [List.map_map]
    exact (List.map_congr_left fun x hx => h.isText_strings hn x hx).trans (List.map_id' _)
  have hencode : (w.strings.map textEncode).Nodup := by
    refine List.Nodup.of_map textDecode ?_
    rwa [hback]
  rw [h.strings, hback]
  exact ⟨internAll_of_nodup hencode, internAll_of_nodup hnodup⟩

theorem readPython_iff (h : db.Wrote m records w counts)
    (hn : ∀ name ∈ namesAll db.children, name.IsText) (hb : ReadsBackAll db.filePaths db.children) :
    (∃ xs ss, m.readTs = some xs ∧ m.readPython = some ss ∧
        xs.map TsScope.view = ss.map Scope.view) ↔ ReadsInPythonAll none db.children := by
  have ⟨hpython, hts⟩ := h.strings_eq hn
  let r : ScopeTreeReader := ⟨w.strings.map textEncode, db.filePaths⟩
  let t : TsScopeTreeReader := ⟨w.strings, db.filePaths⟩
  have hnames : ∀ ref ∈ ScopeRecord.refsAll records, NameAgrees r t ref := by
    intro ref hr
    have ⟨x, hx⟩ := h.numbered.isSome_lookup hr
    have ht := h.isText_strings hn x (List.mem_of_getElem? hx)
    refine ⟨textEncode x, ?_, ?_⟩
    · rw [List.getElem?_map, hx, Option.map_some]
    · rw [hx, JsString.ofString_textEncode ht]
  have ⟨ss, rest, hread⟩ := ScopeTreeReader.exists_readEach (r := r) records
    (fun ref hr => (hnames ref hr).imp fun _ h => h.left) none counts
  have hiff := (readScopes_agree_iff (t := t) h.holds.formed hread).trans (agreesAll_iff_names records)
  have hdata := dataAgreesAll_writeScopes_iff (r := r) (t := t) rfl db.children h.scopes hb .none
  rw [h.holds.readTs_eq, h.holds.readPython_eq, hpython, hts, h.files, hread]
  refine Iff.trans ?_ (hiff.trans ((and_iff_right hnames).trans hdata))
  constructor
  case mp => exact fun ⟨xs, _, hx, hs, hv⟩ => ⟨xs, hx, hv.trans (congrArg _ (Option.some.inj hs).symm)⟩
  case mpr => exact fun ⟨xs, hx, hv⟩ => ⟨xs, _, hx, rfl, hv⟩

end Wrote

-- What the TypeScript library wrote of a database that it built.
theorem portable_iff (db : TsUCIS) :
    (∃ m xs ss, db.write = some m ∧ m.readTs = some xs ∧ m.readPython = some ss ∧
        xs.map TsScope.view = db.children.map TsScope.view ∧
        ss.map Scope.view = db.children.map TsScope.view) ↔ db.Portable := by
  constructor
  case mp =>
    intro ⟨m, xs, ss, hm, hx, hs, hvx, hvs⟩
    have ⟨records, w, counts, h⟩ := wrote_of_write hm
    have ⟨hn, hb⟩ := h.readTs_iff.mp ⟨xs, hx, hvx⟩
    exact ⟨hn, hb, (h.readPython_iff hn hb).mp ⟨xs, ss, hx, hs, hvx.trans hvs.symm⟩⟩
  case mpr =>
    intro ⟨hn, hb, hp⟩
    have ⟨m, hm⟩ := exists_write hb
    have ⟨records, w, counts, h⟩ := wrote_of_write hm
    have ⟨xs, hx, hvx⟩ := h.readTs_iff.mpr ⟨hn, hb⟩
    have ⟨xs', ss, hx', hs, hv⟩ := (h.readPython_iff hn hb).mpr hp
    obtain rfl : xs = xs' := Option.some.inj (hx.symm.trans hx')
    exact ⟨m, xs, ss, hm, hx, hs, hvx, hv.symm.trans hvx⟩

end TsUCIS

-- The two codecs agree on a database that the Python library built if and only if no name starts
-- with a byte order mark and the numbers of its scopes are those of JavaScript; on one that the
-- TypeScript library built if and only if it is portable.
theorem codecs_agree_iff (scopes : List Scope) (db : TsUCIS) :
    (∀ m, Scope.BuiltAll none scopes → ScopeTreeMembers.writePython scopes = some m →
      ((∃ xs ss, m.readTs = some xs ∧ m.readPython = some ss ∧
          xs.map TsScope.view = ss.map Scope.view) ↔
        (∀ name ∈ Scope.namesAll scopes, name.toList.head? ≠ some byteOrderMark) ∧
          Scope.ReadsInTsAll none scopes)) ∧
    ((∃ m xs ss, db.write = some m ∧ m.readTs = some xs ∧ m.readPython = some ss ∧
        xs.map TsScope.view = db.children.map TsScope.view ∧
        ss.map Scope.view = db.children.map TsScope.view) ↔ db.Portable) :=
  ⟨fun _ => ScopeTreeMembers.readTs_writePython_iff, db.portable_iff⟩

-- A goal of 2 ^ 31 that Python wrote has a sign in TypeScript; a goal of -5 that TypeScript wrote has
-- none in Python.
def largeGoal : List Scope :=
  [.mk { type := .block, name := "top", goal := 2 ^ 31 } [] []]

def negativeGoal : TsUCIS where
  filePaths := []
  children  := [.mk {
    scopeType   := .block
    logicalName := .ofString "top"
    goal        := .integer (-5) (by decide)
  } [] []]

def TreeView.goal : TreeView → Option Int
  | mk scope _ _ => scope.goal

def TreeView.goals (views : List TreeView) : List (Option Int) :=
  views.map goal

theorem codecs_disagree :
    (Scope.BuiltAll none largeGoal ∧ ∃ m, ScopeTreeMembers.writePython largeGoal = some m ∧
      ¬∃ xs ss, m.readTs = some xs ∧ m.readPython = some ss ∧
        xs.map TsScope.view = ss.map Scope.view) ∧
    ¬∃ m xs ss, negativeGoal.write = some m ∧ m.readTs = some xs ∧ m.readPython = some ss ∧
      xs.map TsScope.view = negativeGoal.children.map TsScope.view ∧
      ss.map Scope.view = negativeGoal.children.map TsScope.view := by
  refine ⟨⟨?_, ?_⟩, ?_⟩
  · simp [largeGoal, Scope.BuiltAll, Scope.Built, takesFlags]
  · have hm : (ScopeTreeMembers.writePython largeGoal).isSome = true := by decide +kernel
    have hts : ((ScopeTreeMembers.writePython largeGoal).bind (·.readTs)).map
        (fun xs => TreeView.goals (xs.map TsScope.view)) = some [some (-2 ^ 31)] := by decide +kernel
    have hpython : ((ScopeTreeMembers.writePython largeGoal).bind (·.readPython)).map
        (fun ss => TreeView.goals (ss.map Scope.view)) = some [some (2 ^ 31)] := by decide +kernel
    obtain ⟨m, hm⟩ := Option.isSome_iff_exists.mp hm
    refine ⟨m, hm, ?_⟩
    rintro ⟨xs, ss, hx, hs, hv⟩
    rw [hm, Option.bind_some, hx, Option.map_some, hv] at hts
    rw [hm, Option.bind_some, hs, Option.map_some, hts] at hpython
    exact absurd hpython (by decide)
  · have hpython : (negativeGoal.write.bind (·.readPython)).map
        (fun ss => TreeView.goals (ss.map Scope.view)) = some [some (2 ^ 32 - 5)] := by decide +kernel
    have hgoals : TreeView.goals (negativeGoal.children.map TsScope.view) = [some (-5)] := by
      decide +kernel
    rintro ⟨m, xs, ss, hm, _, hs, _, hv⟩
    rw [hm, Option.bind_some, hs, Option.map_some, hv, hgoals] at hpython
    exact absurd hpython (by decide)
