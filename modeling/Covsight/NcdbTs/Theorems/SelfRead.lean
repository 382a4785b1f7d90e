import Covsight.NcdbTs.Theorems.FromPython

-- What the TypeScript library reads of what it wrote itself.

-- Numbers.

theorem writeBigInt_eq_some_iff {n : Int} {k : Nat} : writeBigInt n = some k ↔ n = k := by
  rw [writeBigInt]
  split
  case isTrue hn =>
    refine ⟨nofun, fun h => ?_⟩
    omega
  case isFalse hn =>
    rw [Option.some.injEq]
    omega

theorem writeNumber_eq_some_iff {x : JsNumber} {k : Nat} : writeNumber x = some k ↔ x.toInt = some (k : Int) := by
  rw [writeNumber, Option.bind_eq_some_iff]
  constructor
  case mp =>
    intro ⟨n, hx, hn⟩
    rw [hx, writeBigInt_eq_some_iff.mp hn]
  case mpr => exact fun h => ⟨k, h, writeBigInt_eq_some_iff.mpr rfl⟩

theorem ofBigInt_writeUnless {default x : JsNumber} {n : Option Nat}
    (h : writeUnless default writeNumber x = some n) :
    (n.map fun n : Nat => JsNumber.ofBigInt n).getD default = x := by
  rw [writeUnless] at h
  split at h
  case isTrue hx =>
    cases h
    exact hx.symm
  case isFalse =>
    have ⟨k, hk, hn⟩ := Option.map_eq_some_iff.mp h
    subst hn
    exact JsNumber.ofBigInt_of_toInt (writeNumber_eq_some_iff.mp hk)

-- A default value that is a natural number is as good as a number that is written.
theorem writeUnless_number_iff {default x : JsNumber} {k : Nat} (hd : default.toInt = some (k : Int)) :
    (∃ n, writeUnless default writeNumber x = some n) ↔ ∃ n : Nat, x.toInt = some (n : Int) := by
  rw [writeUnless]
  split
  case isTrue hx => exact ⟨fun _ => ⟨k, hx ▸ hd⟩, fun _ => ⟨_, rfl⟩⟩
  case isFalse =>
    simp only [Option.map_eq_some_iff, writeNumber_eq_some_iff]
    constructor
    case mp  => rintro ⟨_, n, h, _⟩; exact ⟨n, h⟩
    case mpr => rintro ⟨n, h⟩; exact ⟨_, n, h, rfl⟩

theorem asIntN32_asUintN32_iff {n : Int} : asIntN32 (asUintN32 n) = n ↔ -2 ^ 31 ≤ n ∧ n < 2 ^ 31 := by
  rw [asIntN32, asUintN32]
  omega

-- A goal keeps its lowest 32 bits.
theorem goal_writeUnless_iff {x : JsNumber} {n : Option Nat}
    (h : writeUnless .minusOne (fun goal => goal.toInt.map asUintN32) x = some n) :
    ((n.map fun n : Nat => JsNumber.ofBigInt (asIntN32 n)).getD .minusOne).toInt = x.toInt ↔
      ∃ g, x.toInt = some g ∧ -2 ^ 31 ≤ g ∧ g < 2 ^ 31 := by
  rw [writeUnless] at h
  split at h
  case isTrue hx =>
    cases h
    subst hx
    exact ⟨fun _ => ⟨-1, rfl, by omega, by omega⟩, fun _ => rfl⟩
  case isFalse =>
    have ⟨k, hk, hn⟩ := Option.map_eq_some_iff.mp h
    have ⟨g, hg, hk⟩ := Option.map_eq_some_iff.mp hk
    subst hn hk
    rw [hg, Option.map_some, Option.getD_some, asIntN32_toInt, Option.some.injEq,
      asIntN32_asUintN32_iff]
    simp

-- The data of a scope.

-- The location is complete, its numbers are natural ones and that of the file leads to its path; or
-- there is none at all.
def SourceReadsBack (files : List String) : Option TsFileHandle → Option TsSourceInfo → Prop
  | none,        none      => True
  | some handle, some info => ∃ fileId line token : Nat,
    handle.fileId.toInt = some (fileId : Int) ∧ info.line.toInt = some (line : Int) ∧
      info.token.toInt = some (token : Int) ∧ files[fileId]? = some handle.filePath
  | _,           _         => False

structure TsScopeData.ReadsBack (files : List String) (d : TsScopeData) : Prop where
  flags  : ∃ n : Nat, d.flags.toInt = some (n : Int)
  weight : ∃ n : Nat, d.weight.toInt = some (n : Int)
  goal   : ∃ n, d.goal.toInt = some n ∧ -2 ^ 31 ≤ n ∧ n < 2 ^ 31
  source : SourceReadsBack files d.fileHandle d.sourceInfo

-- All items are of one type and have one at_least, which is not negative.
def ItemsReadBack (items : List TsCoverItem) : Prop :=
  ∀ first ∈ items.head?, 0 ≤ first.atLeast ∧
    ∀ item ∈ items, item.coverType = first.coverType ∧ item.atLeast = first.atLeast

-- A toggle pair has a name and two counts and nothing else.
def TogglePairReadsBack (d : TsScopeData) (items : List TsCoverItem) : Prop :=
  d = { scopeType := .branch, logicalName := d.logicalName } ∧
    items.map ({ · with count := 0 })
      = [⟨.toggleBin, .ofString toggleBin0To1, 0, 0⟩, ⟨.toggleBin, .ofString toggleBin1To0, 0, 0⟩]

namespace TsScope

mutual

def ReadsBack (files : List String) : TsScope → Prop
  | mk d is ss =>
    (∀ item ∈ is, 0 ≤ item.count) ∧
    if (mk d is ss).isTogglePair then
      TogglePairReadsBack d is
    else
      d.ReadsBack files ∧ ItemsReadBack is ∧ ReadsBackAll files ss

def ReadsBackAll (files : List String) : List TsScope → Prop
  | []      => True
  | s :: ss => s.ReadsBack files ∧ ReadsBackAll files ss

end

mutual

-- The counts that are stored for a scope.
def counts : TsScope → List Int
  | mk d is ss =>
    if (mk d is ss).isTogglePair then
      [TsScopeTreeWriter.countNamed is toggleBin0To1, TsScopeTreeWriter.countNamed is toggleBin1To0]
    else
      is.map (·.count) ++ countsAll ss

def countsAll : List TsScope → List Int
  | []      => []
  | s :: ss => s.counts ++ countsAll ss

end

end TsScope

namespace TsScopeTreeWriter

variable {w w' : TsScopeTreeWriter}

theorem counts_writeItems (w : TsScopeTreeWriter) (items : List TsCoverItem) :
    (w.writeItems items).snd.counts = w.counts ++ items.map (·.count) := by
  induction items generalizing w
  case nil => exact (List.append_nil _).symm
  case cons item items hi =>
    refine (hi _).trans ?_
    simp [pushCounts]

mutual

theorem counts_writeScope : (s : TsScope) → {w w' : TsScopeTreeWriter} → {record : ScopeRecord} →
    w.writeScope s = some (record, w') → w'.counts = w.counts ++ s.counts
  | .mk d is ss, w, w', record, h => by
    rw [writeScope] at h
    rw [TsScope.counts]
    split at h
    case isTrue hp =>
      cases h
      rw [if_pos hp]
      rfl
    case isFalse hp =>
      simp only [Option.bind_eq_bind, Option.bind_eq_some_iff, Prod.exists, Option.pure_def,
        Option.some.injEq, Prod.mk.injEq] at h
      have ⟨_, _, _, w₂, hs, _, he⟩ := h
      rw [if_neg hp, ← he, counts_writeScopes ss hs, counts_writeItems, List.append_assoc]
      rfl

theorem counts_writeScopes : (ss : List TsScope) → {w w' : TsScopeTreeWriter} →
    {records : List ScopeRecord} → w.writeScopes ss = some (records, w') →
    w'.counts = w.counts ++ TsScope.countsAll ss
  | [], w, w', records, h => by
    cases h
    exact (List.append_nil _).symm
  | s :: ss, w, w', records, h => by
    simp only [writeScopes, Option.bind_eq_bind, Option.bind_eq_some_iff, Prod.exists,
      Option.pure_def, Option.some.injEq, Prod.mk.injEq] at h
    have ⟨_, _, h₁, _, _, h₂, _, he⟩ := h
    rw [← he, counts_writeScopes ss h₂, counts_writeScope s h₁, List.append_assoc, TsScope.countsAll]

end

-- What a successful write of a header went through.
theorem writeHeader_ok {d : TsScopeData} {items : List TsCoverItem} {nameRef : Nat}
    {header : ScopeHeader} (h : writeHeader d items nameRef = some header) :
    ∃ flags source weight atLeast goal,
      writeUnless .zero writeNumber d.flags = some flags ∧
      writeSource d.fileHandle d.sourceInfo = some source ∧
      writeUnless .one writeNumber d.weight = some weight ∧
      atLeastOverride items = some atLeast ∧
      writeUnless .minusOne (fun goal => goal.toInt.map asUintN32) d.goal = some goal ∧
      header = {
        type       := d.scopeType
        nameRef    := nameRef
        flags      := flags
        source     := source
        weight     := weight
        atLeast    := atLeast
        goal       := goal
        sourceType := if d.sourceType = .none then none else some d.sourceType
        coverType  := items.head?.map (·.coverType)
      } := by
  simp only [writeHeader, Option.bind_eq_bind, Option.bind_eq_some_iff, Option.pure_def,
    Option.some.injEq] at h
  have ⟨flags, hf, source, hs, weight, hw, atLeast, ha, goal, hg, hh⟩ := h
  exact ⟨flags, source, weight, atLeast, goal, hf, hs, hw, ha, hg, hh.symm⟩

end TsScopeTreeWriter

namespace TsScopeTreeReader

open TsScopeTreeWriter

variable {t : TsScopeTreeReader} {w w' : TsScopeTreeWriter}

theorem sourceView_writeSource_iff {header : ScopeHeader} {d : TsScopeData}
    (h : writeSource d.fileHandle d.sourceInfo = some header.source) :
    (t.scopeData header []).sourceView = d.sourceView ↔
      SourceReadsBack t.files d.fileHandle d.sourceInfo := by
  rw [TsScopeData.sourceView, TsScopeData.sourceView]
  cases hf : d.fileHandle <;> cases hs : d.sourceInfo <;> rw [hf, hs] at h
  case some.some handle info =>
    simp only [writeSource, Option.bind_eq_bind, Option.bind_eq_some_iff, Option.pure_def,
      Option.some.injEq, writeNumber_eq_some_iff] at h
    obtain ⟨fileId, hi, line, hl, token, ht, hh⟩ := h
    have hline := JsNumber.ofBigInt_of_toInt hl
    have htoken := JsNumber.ofBigInt_of_toInt ht
    simp only [scopeData, ← hh, Option.bind_some, Option.map_some, SourceReadsBack, hline, htoken,
      fileHandle, hi, hl, ht]
    cases hp : t.files[fileId]? <;> simp [hp]
  all_goals
    have hh : header.source = none := (Option.some.inj h).symm
    simp [scopeData, SourceReadsBack, hh]

theorem view_writeHeader_iff {d : TsScopeData} {items : List TsCoverItem} {nameRef : Nat}
    {header : ScopeHeader} (h : writeHeader d items nameRef = some header) :
    (t.scopeData header d.logicalName).view = d.view ↔ d.ReadsBack t.files := by
  obtain ⟨flags, source, weight, atLeast, goal, hf, hs, hw, _, hg, hh⟩ := writeHeader_ok h
  have hflags := ofBigInt_writeUnless hf
  have hweight := ofBigInt_writeUnless hw
  have hgoal := goal_writeUnless_iff hg
  have hs : writeSource d.fileHandle d.sourceInfo = some header.source := hs.trans (by rw [hh])
  have hsource := sourceView_writeSource_iff (t := t) hs
  have htype : (t.scopeData header d.logicalName).sourceType = d.sourceType := by
    rw [hh]
    by_cases hz : d.sourceType = .none <;> simp [scopeData, hz]
  have hf' : (t.scopeData header d.logicalName).flags = d.flags := hh ▸ hflags
  have hw' : (t.scopeData header d.logicalName).weight = d.weight := hh ▸ hweight
  have hg' : (t.scopeData header d.logicalName).goal
      = (goal.map fun n : Nat => JsNumber.ofBigInt (asIntN32 n)).getD .minusOne := hh ▸ rfl
  have ht : (t.scopeData header d.logicalName).scopeType = d.scopeType := hh ▸ rfl
  have hs' : (t.scopeData header d.logicalName).sourceView = (t.scopeData header []).sourceView := rfl
  have hn : (t.scopeData header d.logicalName).logicalName = d.logicalName := rfl
  rw [TsScopeData.view, TsScopeData.view, ScopeView.mk.injEq, hf', hw', hg', hgoal, hs', hsource, htype,
    ht, hn]
  have hfn := (writeUnless_number_iff JsNumber.toInt_zero).mp ⟨_, hf⟩
  have hwn := (writeUnless_number_iff JsNumber.toInt_one).mp ⟨_, hw⟩
  constructor
  case mp =>
    rintro ⟨_, _, _, _, hg, _, hs⟩
    exact ⟨hfn, hwn, hg, hs⟩
  case mpr =>
    rintro ⟨_, _, hg, hs⟩
    exact ⟨rfl, rfl, rfl, rfl, hg, rfl, hs⟩

-- Reading the items of a scope takes exactly their counts.
theorem readItems_writeItems_iff {type : CoverTypeT} {atLeast : Nat} {items : List TsCoverItem}
    {all : List JsString} (ha : (w.writeItems items).snd.strings <+: all) {counts : Counts}
    (hc : counts.map Int.ofNat = items.map (·.count)) (rest : Counts) :
    (∃ items', t.readItems type atLeast (w.writeItems items).fst (counts ++ rest) = some (items', rest) ∧
        items'.map (·.view) = items.map (·.view)) ↔
      (∀ ref ∈ (w.writeItems items).fst, t.strings[ref]? = all[ref]?) ∧
        ∀ item ∈ items, item.coverType = type ∧ item.atLeast = atLeast := by
  induction items generalizing w counts
  case nil =>
    have hn : counts = [] := List.map_eq_nil_iff.mp hc
    subst hn
    exact ⟨fun _ => ⟨nofun, nofun⟩, fun _ => ⟨[], rfl, rfl⟩⟩
  case cons item items hi =>
    obtain ⟨count, counts, rfl, hcount, hc⟩ := List.map_eq_cons_iff.mp hc
    have hi := hi (w := (w.internString item.name).snd.pushCounts [item.count]) ha hc
    have hp := (numbered_writeItems ((w.internString item.name).snd.pushCounts [item.count]) items).extends_table
    have hname : all[(w.internString item.name).fst]? = some item.name :=
      intern.get?_of_prefix (hp.trans ha)
    rw [writeItems, List.forall_mem_cons, List.forall_mem_cons, hname]
    simp only [readItems, Option.bind_eq_bind, Option.bind_eq_some_iff, Option.pure_def,
      Option.some.injEq, Prod.mk.injEq, Prod.exists, List.cons_append, List.tail_cons, List.headD_cons]
    constructor
    case mp =>
      rintro ⟨_, ⟨name, hn, items', rest', hr, he, hrest⟩, hv⟩
      subst he hrest
      obtain ⟨hv, hvs⟩ := List.cons.inj hv
      obtain ⟨hname, htype, hat, _⟩ := (ItemView.mk.injEq ..).mp hv
      obtain ⟨hrefs, hitems⟩ := hi.mp ⟨items', hr, hvs⟩
      exact ⟨⟨hname ▸ hn, hrefs⟩, ⟨htype.symm, hat.symm⟩, hitems⟩
    case mpr =>
      rintro ⟨⟨hn, hrefs⟩, ⟨htype, hat⟩, hitems⟩
      obtain ⟨items', hr, hvs⟩ := hi.mpr ⟨hrefs, hitems⟩
      refine ⟨_, ⟨_, hn, items', rest, hr, rfl, rfl⟩, ?_⟩
      rw [List.map_cons, List.map_cons, hvs]
      refine congrArg (· :: _) ?_
      have hcount : (count : Int) = item.count := hcount
      rw [TsCoverItem.view, TsCoverItem.view, htype, hat, ← hcount]

theorem atLeast_override {items : List TsCoverItem} {first : TsCoverItem} {atLeast : Option Nat}
    (h : TsScopeTreeWriter.atLeastOverride (first :: items) = some atLeast) :
    ((atLeast.getD (defaultAtLeast first.coverType) : Nat) : Int) = first.atLeast := by
  rw [TsScopeTreeWriter.atLeastOverride, writeUnless] at h
  split at h
  case isTrue ha =>
    cases h
    exact ha.symm
  case isFalse =>
    have ⟨k, hk, hn⟩ := Option.map_eq_some_iff.mp h
    subst hn
    exact (writeBigInt_eq_some_iff.mp hk).symm

theorem readHeaderItems_writeItems_iff {d : TsScopeData} {items : List TsCoverItem} {nameRef : Nat}
    {header : ScopeHeader} (h : writeHeader d items nameRef = some header) {all : List JsString}
    (ha : (w.writeItems items).snd.strings <+: all) {counts : Counts}
    (hc : counts.map Int.ofNat = items.map (·.count)) (rest : Counts) :
    (∃ items', t.readHeaderItems header (w.writeItems items).fst (counts ++ rest) = some (items', rest) ∧
        items'.map (·.view) = items.map (·.view)) ↔
      (∀ ref ∈ (w.writeItems items).fst, t.strings[ref]? = all[ref]?) ∧ ItemsReadBack items := by
  obtain ⟨_, _, _, atLeast, _, _, _, _, hat, _, hh⟩ := writeHeader_ok h
  cases items
  case nil =>
    have hn : counts = [] := List.map_eq_nil_iff.mp hc
    subst hn
    simp only [readHeaderItems, hh, List.head?_nil, Option.map_none]
    exact ⟨fun _ => ⟨List.forall_mem_nil _, by simp [ItemsReadBack]⟩, fun _ => ⟨[], rfl, rfl⟩⟩
  case cons first items =>
    have hat := atLeast_override hat
    simp only [readHeaderItems, hh, List.head?_cons, Option.map_some]
    rw [readItems_writeItems_iff ha hc rest, hat]
    refine and_congr Iff.rfl ?_
    constructor
    case mp =>
      intro hm first' hf
      cases hf
      exact ⟨by omega, hm⟩
    case mpr => exact fun hm => (hm first rfl).right

theorem view_plain_iff {d : TsScopeData} {name : JsString} :
    ({ scopeType := .branch, logicalName := name } : TsScopeData).view = d.view ↔
      name = d.logicalName ∧ d = { scopeType := .branch, logicalName := d.logicalName } := by
  obtain ⟨type, name', handle, info, flags, weight, goal, source⟩ := d
  constructor
  case mp =>
    intro h
    simp only [TsScopeData.view, ScopeView.mk.injEq] at h
    obtain ⟨ht, hn, hf, hw, hg, hs, hv⟩ := h
    subst ht hn hs
    have hf := JsNumber.toInt_inj hf.symm JsNumber.toInt_zero
    have hw := JsNumber.toInt_inj hw.symm JsNumber.toInt_one
    have hg := JsNumber.toInt_inj hg.symm JsNumber.toInt_minusOne
    subst hf hw hg
    cases handle <;> cases info <;> first | exact ⟨rfl, rfl⟩ | cases hv
  case mpr =>
    rintro ⟨hn, hd⟩
    rw [hd, hn]

theorem items_togglePair_iff {i j : TsCoverItem} {count0To1 count1To0 : Nat}
    (h₀ : (count0To1 : Int) = countNamed [i, j] toggleBin0To1)
    (h₁ : (count1To0 : Int) = countNamed [i, j] toggleBin1To0) :
    (togglePair [] count0To1 count1To0).items.map (·.view) = [i, j].map (·.view) ↔
      [i, j].map ({ · with count := 0 })
        = [⟨.toggleBin, .ofString toggleBin0To1, 0, 0⟩, ⟨.toggleBin, .ofString toggleBin1To0, 0, 0⟩] := by
  have hne : JsString.ofString toggleBin0To1 ≠ .ofString toggleBin1To0 :=
    JsString.ofString_injective.ne (by decide)
  obtain ⟨type, name, count, atLeast⟩ := i
  obtain ⟨type', name', count', atLeast'⟩ := j
  simp only [togglePair, TsScope.items, TsCoverItem.view, List.map_cons, List.map_nil, List.cons.injEq,
    ItemView.mk.injEq, TsCoverItem.mk.injEq, and_true, true_and]
  constructor
  case mp =>
    rintro ⟨⟨hn, ht, ha, _⟩, hn', ht', ha', _⟩
    exact ⟨⟨ht.symm, hn.symm, ha.symm⟩, ht'.symm, hn'.symm, ha'.symm⟩
  case mpr =>
    rintro ⟨⟨ht, hn, ha⟩, ht', hn', ha'⟩
    subst ht hn ha ht' hn' ha'
    simp only [countNamed, List.find?_cons, decide_true, Option.map_some, Option.getD_some,
      decide_eq_false hne] at h₀ h₁
    exact ⟨⟨rfl, rfl, rfl, h₀⟩, rfl, rfl, rfl, h₁⟩

theorem view_scopeData_writeHeader_iff {d : TsScopeData} {items : List TsCoverItem} {nameRef : Nat}
    {header : ScopeHeader} (h : writeHeader d items nameRef = some header) {name : JsString} :
    (t.scopeData header name).view = d.view ↔ name = d.logicalName ∧ d.ReadsBack t.files := by
  rw [← view_writeHeader_iff h]
  constructor
  case mp =>
    intro hv
    have hn : name = d.logicalName := congrArg ScopeView.name hv
    exact ⟨hn, hn ▸ hv⟩
  case mpr => exact fun ⟨hn, hv⟩ => hn ▸ hv

theorem readTogglePair_iff {d : TsScopeData} {items : List TsCoverItem} {scopes : List TsScope}
    (hp : (TsScope.mk d items scopes).isTogglePair = true) {ref : Nat} {counts rest : Counts}
    (hc : counts.map Int.ofNat = [countNamed items toggleBin0To1, countNamed items toggleBin1To0]) :
    (∃ x, t.readScope (.togglePair ref) (counts ++ rest) = some (x, rest) ∧
        x.view = (TsScope.mk d items scopes).view) ↔
      t.strings[ref]? = some d.logicalName ∧ TogglePairReadsBack d items := by
  have ⟨_, hl, hi, _⟩ := of_decide_eq_true hp
  have hn := List.length_eq_zero_iff.mp hl
  have ⟨i, j, hij⟩ := List.length_eq_two.mp hi
  subst hn hij
  obtain ⟨count₀, counts, rfl, h₀, hc⟩ := List.map_eq_cons_iff.mp hc
  obtain ⟨count₁, counts, rfl, h₁, hc⟩ := List.map_eq_cons_iff.mp hc
  have hn := List.map_eq_nil_iff.mp hc
  subst hn
  have hitems := items_togglePair_iff h₀ h₁
  simp only [readScope, Option.bind_eq_bind, Option.bind_eq_some_iff, Option.pure_def,
    Option.some.injEq, Prod.mk.injEq]
  constructor
  case mp =>
    intro ⟨x, ⟨name, hn, hx, _⟩, hv⟩
    subst hx
    have ⟨hd, hv, _⟩ := TreeView.mk.inj hv
    have ⟨hname, hd⟩ := view_plain_iff.mp hd
    exact ⟨hname ▸ hn, hd, hitems.mp hv⟩
  case mpr =>
    intro ⟨hn, hd, hv⟩
    refine ⟨_, ⟨_, hn, rfl, rfl⟩, ?_⟩
    exact (TreeView.mk.injEq ..).mpr ⟨view_plain_iff.mpr ⟨rfl, hd⟩, hitems.mpr hv, rfl⟩

theorem length_writeItems (w : TsScopeTreeWriter) (items : List TsCoverItem) :
    (w.writeItems items).fst.length = items.length := by
  induction items generalizing w
  case nil             => rfl
  case cons item items hi => exact congrArg (· + 1) (hi _)

theorem readHeaderItems_writeItems_rest {d : TsScopeData} {items items' : List TsCoverItem}
    {nameRef : Nat} {header : ScopeHeader} (h : writeHeader d items nameRef = some header)
    {counts rest rest' : Counts} (hc : counts.map Int.ofNat = items.map (·.count))
    (hr : t.readHeaderItems header (w.writeItems items).fst (counts ++ rest) = some (items', rest')) :
    rest' = rest := by
  have ⟨_, _, _, _, _, _, _, _, _, _, hh⟩ := writeHeader_ok h
  have hl : counts.length = items.length := by simpa using congrArg List.length hc
  have hr := readHeaderItems_rest hr
  rw [hh, length_writeItems, ← hl] at hr
  cases items
  case nil =>
    obtain rfl := List.length_eq_zero_iff.mp hl
    exact hr
  case cons => exact hr.trans (List.drop_left ..)

mutual

theorem binCount_writeScope : (s : TsScope) → {w w' : TsScopeTreeWriter} → {record : ScopeRecord} →
    w.writeScope s = some (record, w') → record.binCount = s.counts.length
  | .mk d is ss, w, w', record, h => by
    rw [writeScope] at h
    rw [TsScope.counts]
    split at h
    case isTrue hp =>
      cases h
      rw [if_pos hp]
      rfl
    case isFalse hp =>
      simp only [Option.bind_eq_bind, Option.bind_eq_some_iff, Prod.exists, Option.pure_def,
        Option.some.injEq, Prod.mk.injEq] at h
      have ⟨header, hh, records, w₂, hs, hr, _⟩ := h
      have ⟨_, _, _, _, _, _, _, _, _, _, hh⟩ := writeHeader_ok hh
      rw [if_neg hp, ← hr, ScopeRecord.binCount, binCountAll_writeScopes ss hs, hh, length_writeItems,
        List.length_append, List.length_map]
      cases is <;> rfl

theorem binCountAll_writeScopes : (ss : List TsScope) → {w w' : TsScopeTreeWriter} →
    {records : List ScopeRecord} → w.writeScopes ss = some (records, w') →
    ScopeRecord.binCountAll records = (TsScope.countsAll ss).length
  | [], w, w', records, h => by
    cases h
    rfl
  | s :: ss, w, w', records, h => by
    simp only [writeScopes, Option.bind_eq_bind, Option.bind_eq_some_iff, Prod.exists,
      Option.pure_def, Option.some.injEq, Prod.mk.injEq] at h
    have ⟨_, _, h₁, _, _, h₂, hr, _⟩ := h
    rw [← hr, ScopeRecord.binCountAll, binCount_writeScope s h₁, binCountAll_writeScopes ss h₂,
      TsScope.countsAll, List.length_append]

end

theorem count_nonneg {counts : Counts} {items : List TsCoverItem}
    (h : counts.map Int.ofNat = items.map (·.count)) : ∀ item ∈ items, 0 ≤ item.count := by
  intro item hm
  have ⟨n, _, hn⟩ := List.mem_map.mp (h ▸ List.mem_map_of_mem hm)
  exact hn ▸ Int.natCast_nonneg n

theorem counts_of_readsBack {d : TsScopeData} {items : List TsCoverItem}
    (h : TogglePairReadsBack d items) :
    [countNamed items toggleBin0To1, countNamed items toggleBin1To0] = items.map (·.count) := by
  have hne : JsString.ofString toggleBin0To1 ≠ .ofString toggleBin1To0 :=
    JsString.ofString_injective.ne (by decide)
  obtain ⟨i, _, rfl, hi, ht⟩ := List.map_eq_cons_iff.mp h.right
  obtain ⟨j, _, rfl, hj, hn⟩ := List.map_eq_cons_iff.mp ht
  obtain rfl := List.map_eq_nil_iff.mp hn
  have hi : i.name = .ofString toggleBin0To1 := congrArg TsCoverItem.name hi
  have hj : j.name = .ofString toggleBin1To0 := congrArg TsCoverItem.name hj
  simp [countNamed, hi, hj, hne]

mutual

-- What is written is read back as it was, if and only if the strings are found and each scope is one
-- that reads back.
theorem readScope_writeScope_iff : (s : TsScope) → {w w' : TsScopeTreeWriter} →
    {record : ScopeRecord} → w.writeScope s = some (record, w') → {all : List JsString} →
    w'.strings <+: all → {counts : Counts} → counts.map Int.ofNat = s.counts → (rest : Counts) →
    ((∃ x, t.readScope record (counts ++ rest) = some (x, rest) ∧ x.view = s.view) ↔
      (∀ ref ∈ record.refs, t.strings[ref]? = all[ref]?) ∧ s.ReadsBack t.files)
  | .mk d is ss, w, w', record, h, all, ha, counts, hc, rest => by
    rw [writeScope] at h
    rw [TsScope.counts] at hc
    rw [TsScope.ReadsBack]
    split at h
    case isTrue hp =>
      cases h
      rw [if_pos hp] at hc
      have hn : all[(w.internString d.logicalName).fst]? = some d.logicalName :=
        intern.get?_of_prefix ha
      refine (readTogglePair_iff hp hc).trans ?_
      have hcount : TogglePairReadsBack d is → ∀ item ∈ is, 0 ≤ item.count :=
        fun h => count_nonneg (hc.trans (counts_of_readsBack h))
      have hrefs : (∀ ref ∈ [(w.internString d.logicalName).fst], t.strings[ref]? = all[ref]?) ↔
          t.strings[(w.internString d.logicalName).fst]? = some d.logicalName := by
        rw [List.forall_mem_singleton, hn]
      refine Iff.trans ?_ (and_congr hrefs.symm Iff.rfl)
      rw [if_pos hp]
      exact ⟨fun ⟨hs, h⟩ => ⟨hs, hcount h, h⟩, fun ⟨hs, _, h⟩ => ⟨hs, h⟩⟩
    case isFalse hp =>
      rw [if_neg hp] at hc
      simp only [Option.bind_eq_bind, Option.bind_eq_some_iff, Prod.exists, Option.pure_def,
        Option.some.injEq, Prod.mk.injEq] at h
      have ⟨header, hh, records, w₂, hs, hr, he⟩ := h
      subst hr he
      obtain ⟨counts, rest', rfl, hci, hcs⟩ := List.map_eq_append_iff.mp hc
      have hp₂ := (numbered_writeScopes ss hs).extends_table
      have hp₁ := (numbered_writeItems (w.internString d.logicalName).snd is).extends_table
      have hn : all[header.nameRef]? = some d.logicalName := by
        have ⟨_, _, _, _, _, _, _, _, _, _, hh⟩ := writeHeader_ok hh
        rw [hh]
        exact intern.get?_of_prefix (hp₁.trans (hp₂.trans ha))
      have hitems := readHeaderItems_writeItems_iff (t := t) hh (hp₂.trans ha) hci (rest' ++ rest)
      have hscopes := readScopes_writeScopes_iff ss hs ha hcs rest
      rw [if_neg hp, ScopeRecord.refs, List.forall_mem_cons, List.forall_mem_append, hn]
      simp only [readScope, Option.bind_eq_bind, Option.bind_eq_some_iff, Option.pure_def,
        Option.some.injEq, Prod.mk.injEq, Prod.exists, List.append_assoc]
      constructor
      case mp =>
        intro ⟨_, ⟨name, hname, items, rest₁, hi, children, _, hch, hx, hrest⟩, hv⟩
        obtain rfl := readHeaderItems_writeItems_rest hh hci hi
        subst hx hrest
        have ⟨hd, hiv, hcv⟩ := TreeView.mk.inj hv
        rw [TsScope.viewAll_eq_map, TsScope.viewAll_eq_map] at hcv
        have ⟨hname', hd⟩ := (view_scopeData_writeHeader_iff hh).mp hd
        have ⟨hir, hib⟩ := hitems.mp ⟨items, hi, hiv⟩
        have ⟨hsr, hsb⟩ := hscopes.mp ⟨children, hch, hcv⟩
        exact ⟨⟨hname' ▸ hname, hir, hsr⟩, count_nonneg hci, hd, hib, hsb⟩
      case mpr =>
        intro ⟨⟨hname, hir, hsr⟩, _, hd, hib, hsb⟩
        have ⟨items, hi, hiv⟩ := hitems.mpr ⟨hir, hib⟩
        have ⟨children, hch, hcv⟩ := hscopes.mpr ⟨hsr, hsb⟩
        refine ⟨_, ⟨_, hname, items, _, hi, children, _, hch, rfl, rfl⟩, ?_⟩
        rw [← TsScope.viewAll_eq_map, ← TsScope.viewAll_eq_map] at hcv
        exact (TreeView.mk.injEq ..).mpr ⟨(view_scopeData_writeHeader_iff hh).mpr ⟨rfl, hd⟩, hiv, hcv⟩

theorem readScopes_writeScopes_iff : (ss : List TsScope) → {w w' : TsScopeTreeWriter} →
    {records : List ScopeRecord} → w.writeScopes ss = some (records, w') → {all : List JsString} →
    w'.strings <+: all → {counts : Counts} → counts.map Int.ofNat = TsScope.countsAll ss →
    (rest : Counts) →
    ((∃ xs, t.readScopes records (counts ++ rest) = some (xs, rest) ∧
        xs.map TsScope.view = ss.map TsScope.view) ↔
      (∀ ref ∈ ScopeRecord.refsAll records, t.strings[ref]? = all[ref]?) ∧
        TsScope.ReadsBackAll t.files ss)
  | [], w, w', records, h, all, ha, counts, hc, rest => by
    cases h
    have hn : counts = [] := List.map_eq_nil_iff.mp hc
    subst hn
    exact ⟨fun _ => ⟨nofun, trivial⟩, fun _ => ⟨[], rfl, rfl⟩⟩
  | s :: ss, w, w', records, h, all, ha, counts, hc, rest => by
    simp only [writeScopes, Option.bind_eq_bind, Option.bind_eq_some_iff, Prod.exists,
      Option.pure_def, Option.some.injEq, Prod.mk.injEq] at h
    have ⟨record, w₁, h₁, records', w₂, h₂, hr, he⟩ := h
    subst hr he
    obtain ⟨counts, rest', rfl, hc₁, hc₂⟩ := List.map_eq_append_iff.mp hc
    have hp₂ := (numbered_writeScopes ss h₂).extends_table
    have hs := readScope_writeScope_iff s h₁ (hp₂.trans ha) hc₁ (rest' ++ rest)
    have hss := readScopes_writeScopes_iff ss h₂ ha hc₂ rest
    rw [ScopeRecord.refsAll, List.forall_mem_append, TsScope.ReadsBackAll, List.append_assoc]
    simp only [readScopes, Option.bind_eq_bind, Option.bind_eq_some_iff, Option.pure_def,
      Option.some.injEq, Prod.mk.injEq, Prod.exists]
    constructor
    case mp =>
      intro ⟨_, ⟨x, rest₁, hx, xs, _, hxs, he, hrest⟩, hv⟩
      have hl : counts.length = s.counts.length := by simpa using congrArg List.length hc₁
      have hr₁ := readScope_rest record hx
      rw [binCount_writeScope s h₁, ← hl, List.drop_left] at hr₁
      subst hr₁
      subst he hrest
      have ⟨hv, hvs⟩ := List.cons.inj hv
      have ⟨hr, hb⟩ := hs.mp ⟨x, hx, hv⟩
      have ⟨hrs, hbs⟩ := hss.mp ⟨xs, hxs, hvs⟩
      exact ⟨⟨hr, hrs⟩, hb, hbs⟩
    case mpr =>
      intro ⟨⟨hr, hrs⟩, hb, hbs⟩
      have ⟨x, hx, hv⟩ := hs.mpr ⟨hr, hb⟩
      have ⟨xs, hxs, hvs⟩ := hss.mpr ⟨hrs, hbs⟩
      exact ⟨_, ⟨x, _, hx, xs, _, hxs, rfl, rfl⟩, congrArg₂ List.cons hv hvs⟩

end

mutual

theorem counts_nonneg {files : List String} : (s : TsScope) → s.ReadsBack files → ∀ n ∈ s.counts, 0 ≤ n
  | .mk d is ss, h => by
    rw [TsScope.ReadsBack] at h
    rw [TsScope.counts]
    have ⟨hc, h⟩ := h
    have hi : ∀ n ∈ is.map (·.count), 0 ≤ n := List.forall_mem_map.mpr hc
    split at h
    case isTrue hp => rwa [if_pos hp, counts_of_readsBack h]
    case isFalse hp =>
      rw [if_neg hp, List.forall_mem_append]
      exact ⟨hi, countsAll_nonneg ss h.right.right⟩

theorem countsAll_nonneg {files : List String} : (ss : List TsScope) → TsScope.ReadsBackAll files ss →
    ∀ n ∈ TsScope.countsAll ss, 0 ≤ n
  | [], _ => nofun
  | s :: ss, h => by
    rw [TsScope.ReadsBackAll] at h
    rw [TsScope.countsAll, List.forall_mem_append]
    exact ⟨counts_nonneg s h.left, countsAll_nonneg ss h.right⟩

end

theorem exists_writeSource {files : List String} {handle : Option TsFileHandle}
    {info : Option TsSourceInfo} (h : SourceReadsBack files handle info) :
    ∃ source, writeSource handle info = some source := by
  cases handle <;> cases info
  case some.some =>
    have ⟨_, _, _, hi, hl, ht, _⟩ := h
    simp [writeSource, writeNumber_eq_some_iff.mpr hi, writeNumber_eq_some_iff.mpr hl,
      writeNumber_eq_some_iff.mpr ht]
  all_goals exact ⟨_, rfl⟩

theorem exists_writeHeader {files : List String} {d : TsScopeData} {items : List TsCoverItem}
    (hd : d.ReadsBack files) (hi : ItemsReadBack items) (nameRef : Nat) :
    ∃ header, writeHeader d items nameRef = some header := by
  have ⟨flags, hf⟩ := (writeUnless_number_iff JsNumber.toInt_zero).mpr hd.flags
  have ⟨weight, hw⟩ := (writeUnless_number_iff JsNumber.toInt_one).mpr hd.weight
  have ⟨source, hs⟩ := exists_writeSource hd.source
  have ⟨goal, hg⟩ : ∃ n, writeUnless .minusOne (fun goal => goal.toInt.map asUintN32) d.goal = some n := by
    have ⟨g, hg, _⟩ := hd.goal
    rw [writeUnless, hg]
    split <;> exact ⟨_, rfl⟩
  have ⟨atLeast, ha⟩ : ∃ atLeast, TsScopeTreeWriter.atLeastOverride items = some atLeast := by
    cases items
    case nil => exact ⟨_, rfl⟩
    case cons first items =>
      have ⟨ha, _⟩ := hi first rfl
      have hw := writeBigInt_eq_some_iff.mpr (Int.toNat_of_nonneg ha).symm
      rw [TsScopeTreeWriter.atLeastOverride, writeUnless, hw]
      split <;> exact ⟨_, rfl⟩
  simp [writeHeader, hf, hs, hw, ha, hg]

mutual

theorem exists_writeScope {files : List String} : (s : TsScope) → s.ReadsBack files →
    (w : TsScopeTreeWriter) → ∃ record w', w.writeScope s = some (record, w')
  | .mk d is ss, h, w => by
    rw [TsScope.ReadsBack] at h
    rw [writeScope]
    have ⟨_, h⟩ := h
    split at h
    case isTrue hp => exact ⟨_, _, if_pos hp⟩
    case isFalse hp =>
      have ⟨hd, hi, hs⟩ := h
      have ⟨header, hh⟩ := exists_writeHeader hd hi (w.internString d.logicalName).fst
      have ⟨records, w₂, hr⟩ := exists_writeScopes ss hs ((w.internString d.logicalName).snd.writeItems is).snd
      rw [if_neg hp]
      simp [hh, hr]

theorem exists_writeScopes {files : List String} : (ss : List TsScope) → TsScope.ReadsBackAll files ss →
    (w : TsScopeTreeWriter) → ∃ records w', w.writeScopes ss = some (records, w')
  | [], _, w => ⟨[], w, rfl⟩
  | s :: ss, h, w => by
    rw [TsScope.ReadsBackAll] at h
    have ⟨_, w₁, h₁⟩ := exists_writeScope s h.left w
    have ⟨_, _, h₂⟩ := exists_writeScopes ss h.right w₁
    simp [writeScopes, h₁, h₂]

end

theorem mapM_writeBigInt_iff {ns : List Int} {counts : Counts} :
    ns.mapM writeBigInt = some counts ↔ counts.map Int.ofNat = ns := by
  induction ns generalizing counts
  case nil => simp [eq_comm]
  case cons n ns hi =>
    simp only [List.mapM_cons, Option.bind_eq_bind, Option.bind_eq_some_iff, Option.pure_def,
      Option.some.injEq, hi, writeBigInt_eq_some_iff, List.map_eq_cons_iff]
    constructor
    case mp => exact fun ⟨k, hk, ks, hks, he⟩ => ⟨k, ks, he.symm, hk.symm, hks⟩
    case mpr => exact fun ⟨k, ks, he, hk, hks⟩ => ⟨k, hk.symm, ks, hks, he.symm⟩

theorem exists_counts {ns : List Int} (h : ∀ n ∈ ns, 0 ≤ n) : ∃ counts : Counts, counts.map Int.ofNat = ns := by
  refine ⟨ns.map Int.toNat, ?_⟩
  rw [List.map_map]
  exact (List.map_congr_left fun n hm => Int.toNat_of_nonneg (h n hm)).trans (List.map_id' ns)

end TsScopeTreeReader
