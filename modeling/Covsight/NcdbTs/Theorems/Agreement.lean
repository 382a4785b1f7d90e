import Covsight.Ncdb.Theorems.ScopeTreeCodec
import Covsight.NcdbTs.ScopeTree

-- When the readers of the two libraries make the same of the same records.

open ScopeTreeReader (addScopes addScopes_of_not_fsm addScopes_fsm)

namespace ScopeRecord

def type : ScopeRecord → ScopeTypeT
  | togglePair _         => .branch
  | regular header _ _ => header.type

end ScopeRecord

-- The mandatory sub-scopes of an FSM scope take over its location, weight and flags.
def ScopeData.inherit (p : Option ScopeData) (d : ScopeData) : ScopeData :=
  match p with
  | none   => d
  | some p =>
    if p.type = .fsm ∧ (d.type = .fsmStates ∨ d.type = .fsmTrans) then
      { d with srcinfo := p.srcinfo, weight := p.weight, flags := p.flags }
    else
      d

def Scope.inherit (p : Option ScopeData) (s : Scope) : Scope :=
  .mk (s.data.inherit p) s.coverItems s.scopes

theorem ScopeData.inherit_type (p : Option ScopeData) (d : ScopeData) : (d.inherit p).type = d.type := by
  cases p
  case none => rfl
  case some p =>
    rw [inherit]
    split <;> rfl

@[simp]
theorem Scope.inherit_type (p : Option ScopeData) (s : Scope) : (s.inherit p).type = s.type :=
  ScopeData.inherit_type ..

theorem ScopeData.inherit_named {p : Option ScopeData} (d : ScopeData) (name : String) :
    { d with name := name }.inherit p = { d.inherit p with name := name } := by
  cases p
  case none => rfl
  case some p =>
    by_cases hc : p.type = .fsm ∧ (d.type = .fsmStates ∨ d.type = .fsmTrans)
    case pos =>
      have hd : d.inherit (some p)
          = { d with srcinfo := p.srcinfo, weight := p.weight, flags := p.flags } := if_pos hc
      rw [hd]
      exact if_pos hc
    case neg =>
      have hd : d.inherit (some p) = d := if_neg hc
      rw [hd]
      exact if_neg hc

theorem ScopeData.inherit_name {p : Option ScopeData} (d : ScopeData) : (d.inherit p).name = d.name := by
  cases p
  case none => rfl
  case some p =>
    rw [inherit]
    split <;> rfl

theorem ScopeData.inherit_of_ne {p : Option ScopeData} {d : ScopeData}
    (h : d.type ≠ .fsmStates ∧ d.type ≠ .fsmTrans) : d.inherit p = d := by
  cases p
  case none => rfl
  case some p => exact if_neg fun hc => hc.right.elim h.left h.right

theorem Scope.inherit_of_ne {p : Option ScopeData} {s : Scope}
    (h : s.type ≠ .fsmStates ∧ s.type ≠ .fsmTrans) : s.inherit p = s := by
  have ⟨_, _, _⟩ := s
  exact congrArg (Scope.mk · _ _) (ScopeData.inherit_of_ne h)

theorem Scope.inherit_of_not_fsm {p : ScopeData} (s : Scope) (h : p.type ≠ .fsm) :
    s.inherit (some p) = s := by
  obtain ⟨_, _, _⟩ := s
  exact congrArg (Scope.mk · _ _) (if_neg fun hc => h hc.left)

-- The types of the sub-scopes of an FSM scope: first the two mandatory ones, and these only once.
def FsmTypes (types : List ScopeTypeT) : Prop :=
  ∃ others, types = .fsmStates :: .fsmTrans :: others ∧
    ∀ type ∈ others, type ≠ .fsmStates ∧ type ≠ .fsmTrans

namespace ScopeTreeReader

variable {r : ScopeTreeReader} {t : TsScopeTreeReader} {counts rest : Counts}

-- Scopes as they are read, before they are added to a parent.
def readEach (r : ScopeTreeReader) (parent : Option ScopeTypeT) :
    List ScopeRecord → Counts → Option (List Scope × Counts)
  | [],                counts => some ([], counts)
  | record :: records, counts => do
    let (s, counts) ← r.readScope parent record counts
    let (ss, counts) ← r.readEach parent records counts
    return (s :: ss, counts)

theorem readScopes_eq (parent : Option ScopeTypeT) (siblings : List Scope)
    (records : List ScopeRecord) (counts : Counts) :
    r.readScopes parent siblings records counts
      = (r.readEach parent records counts).map fun (ss, counts) =>
          (addScopes parent siblings ss, counts) := by
  induction records generalizing siblings counts
  case nil => rfl
  case cons record records hi =>
    rw [readScopes, readEach]
    cases r.readScope parent record counts
    case none => rfl
    case some x =>
      have ⟨s, counts⟩ := x
      simp only [Option.bind_eq_bind, Option.bind_some, hi]
      cases r.readEach parent records counts <;> rfl

theorem type_readScope {parent : Option ScopeTypeT} {record : ScopeRecord} {s : Scope}
    (h : r.readScope parent record counts = some (s, rest)) : s.type = record.type := by
  cases record
  case togglePair ref =>
    simp only [readScope, Option.bind_eq_bind, Option.bind_eq_some_iff, Option.pure_def,
      Option.some.injEq, Prod.mk.injEq] at h
    obtain ⟨_, _, hs, _⟩ := h
    exact hs ▸ rfl
  case regular header refs records =>
    simp only [readScope, Option.bind_eq_bind, Option.bind_eq_some_iff, Option.pure_def,
      Option.some.injEq, Prod.mk.injEq, Prod.exists] at h
    obtain ⟨_, _, _, _, _, _, _, _, hs, _⟩ := h
    rw [← hs, Scope.create]
    split <;> rfl

theorem types_readEach {parent : Option ScopeTypeT} {records : List ScopeRecord} {ss : List Scope}
    (h : r.readEach parent records counts = some (ss, rest)) :
    ss.map (·.type) = records.map (·.type) := by
  induction records generalizing counts rest ss
  case nil => cases h; rfl
  case cons record records hi =>
    simp only [readEach, Option.bind_eq_bind, Option.bind_eq_some_iff, Option.pure_def,
      Option.some.injEq, Prod.mk.injEq, Prod.exists] at h
    obtain ⟨_, _, hs, _, _, hss, he, _⟩ := h
    rw [← he, List.map_cons, List.map_cons, type_readScope hs, hi hss]

theorem readEach_rest {parent : Option ScopeTypeT} {records : List ScopeRecord} {ss : List Scope}
    (h : r.readEach parent records counts = some (ss, rest)) :
    rest = counts.drop (ScopeRecord.binCountAll records) := by
  induction records generalizing counts rest ss
  case nil => cases h; rfl
  case cons record records hi =>
    simp only [readEach, Option.bind_eq_bind, Option.bind_eq_some_iff, Option.pure_def,
      Option.some.injEq, Prod.mk.injEq, Prod.exists] at h
    obtain ⟨_, _, hs, _, _, hss, _, hr⟩ := h
    rw [← hr, hi hss, readScope_rest hs, List.drop_drop, ScopeRecord.binCountAll]

end ScopeTreeReader

namespace TsScopeTreeReader

variable {t : TsScopeTreeReader} {counts rest : Counts}

theorem type_readScope {record : ScopeRecord} {s : TsScope}
    (h : t.readScope record counts = some (s, rest)) : s.data.scopeType = record.type := by
  cases record
  case togglePair ref =>
    simp only [readScope, Option.bind_eq_bind, Option.bind_eq_some_iff, Option.pure_def,
      Option.some.injEq, Prod.mk.injEq] at h
    obtain ⟨_, _, hs, _⟩ := h
    exact hs ▸ rfl
  case regular header refs records =>
    simp only [readScope, Option.bind_eq_bind, Option.bind_eq_some_iff, Option.pure_def,
      Option.some.injEq, Prod.mk.injEq, Prod.exists] at h
    obtain ⟨_, _, _, _, _, _, _, _, hs, _⟩ := h
    exact hs ▸ rfl

theorem types_readScopes {records : List ScopeRecord} {ss : List TsScope}
    (h : t.readScopes records counts = some (ss, rest)) :
    ss.map (·.data.scopeType) = records.map (·.type) := by
  induction records generalizing counts rest ss
  case nil => cases h; rfl
  case cons record records hi =>
    simp only [readScopes, Option.bind_eq_bind, Option.bind_eq_some_iff, Option.pure_def,
      Option.some.injEq, Prod.mk.injEq, Prod.exists] at h
    obtain ⟨_, _, hs, _, _, hss, he, _⟩ := h
    rw [← he, List.map_cons, List.map_cons, type_readScope hs, hi hss]

end TsScopeTreeReader

-- The sub-scopes of an FSM scope.

namespace ScopeTreeReader

variable {d : ScopeData}

-- Whatever is added below an FSM scope, the two mandatory sub-scopes come first and only once.
theorem types_absorbIn (new : Scope) {ss : List Scope} (h : ∃ s ∈ ss, s.type = new.type) :
    (absorbIn new ss).map (·.type) = ss.map (·.type) := by
  induction ss
  case nil =>
    obtain ⟨_, hm, _⟩ := h
    cases hm
  case cons s ss hi =>
    rw [absorbIn]
    split
    case isTrue => rfl
    case isFalse hn =>
      obtain ⟨s', hm, ht⟩ := h
      have hm : s' ∈ ss := (List.mem_cons.mp hm).resolve_left fun he => hn (he ▸ ht)
      rw [List.map_cons, hi ⟨s', hm, ht⟩, List.map_cons]

def mandatory (type : ScopeTypeT) : Bool :=
  type = .fsmStates ∨ type = .fsmTrans

theorem types_addScopes_fsm (siblings news : List Scope)
    (hs : ∃ s ∈ siblings, s.type = .fsmStates) (ht : ∃ s ∈ siblings, s.type = .fsmTrans) :
    (addScopes (some .fsm) siblings news).map (·.type)
      = siblings.map (·.type) ++ (news.map (·.type)).filter (!mandatory ·) := by
  induction news generalizing siblings
  case nil => exact (List.append_nil _).symm
  case cons s news hi =>
    have hmem : ∀ {type}, (∃ s ∈ siblings, s.type = type) ↔ type ∈ siblings.map (·.type) :=
      List.mem_map.symm
    rw [addScopes, List.foldl_cons, addScope]
    split
    case isTrue hc =>
      have hn : ∃ s' ∈ siblings, s'.type = s.type := hc.right.elim (· ▸ hs) (· ▸ ht)
      have hty := types_absorbIn s hn
      have hm : mandatory s.type = true := decide_eq_true hc.right
      rw [List.map_cons, List.filter_cons, hm]
      refine (hi _ ?_ ?_).trans (by rw [hty]; rfl)
      · exact List.mem_map.mp (hty ▸ hmem.mp hs)
      · exact List.mem_map.mp (hty ▸ hmem.mp ht)
    case isFalse hc =>
      have hm : mandatory s.type = false := decide_eq_false fun h => hc ⟨rfl, h⟩
      obtain ⟨s₁, hm₁, h₁⟩ := hs
      obtain ⟨s₂, hm₂, h₂⟩ := ht
      rw [List.map_cons, List.filter_cons, hm]
      refine (hi _ ⟨s₁, List.mem_append_left _ hm₁, h₁⟩ ⟨s₂, List.mem_append_left _ hm₂, h₂⟩).trans ?_
      simp

theorem fsmTypes_of_eq {types : List ScopeTypeT}
    (h : types = .fsmStates :: .fsmTrans :: types.filter (!mandatory ·)) : FsmTypes types := by
  refine ⟨_, h, fun type hm => ?_⟩
  have := (List.mem_filter.mp hm).right
  simp only [mandatory, Bool.not_eq_true', decide_eq_false_iff_not, not_or] at this
  exact this

theorem view_absorb {s : Scope} (name : String) (hd : d.type = .fsm)
    (ht : s.type = .fsmStates ∨ s.type = .fsmTrans) :
    (Scope.absorb (.mk {
      type    := s.type
      name    := name
      srcinfo := d.srcinfo
      weight  := d.weight
      flags   := d.flags
    } [] []) s).view = (s.inherit (some d)).view := by
  have ⟨sd, is, ss⟩ := s
  have hi : sd.inherit (some d)
      = { sd with srcinfo := d.srcinfo, weight := d.weight, flags := d.flags } :=
    if_pos ⟨hd, ht⟩
  simp only [Scope.absorb, Scope.inherit, Scope.data_mk, Scope.coverItems_mk, Scope.scopes_mk,
    Scope.type, Scope.name, List.nil_append, hi, Scope.view, ScopeData.view]
  congr 2
  case e_goal => by_cases hg : sd.goal = -1 <;> simp [hg]
  case e_sourceType => by_cases hs : sd.source = .none <;> simp [hs]

-- With the two in front, the sub-scopes are those that were read, but for what is taken over.
theorem addScopes_fsmSubScopes {news : List Scope} (hd : d.type = .fsm)
    (h : FsmTypes (news.map (·.type))) :
    (addScopes (some .fsm) (fsmSubScopes { d with source := .none } []) news).map Scope.view
      = news.map fun s => (s.inherit (some d)).view := by
  have ⟨types, he, ho⟩ := h
  obtain ⟨states, _, rfl, hst, he⟩ := List.map_eq_cons_iff.mp he
  obtain ⟨trans, others, rfl, htr, rfl⟩ := List.map_eq_cons_iff.mp he
  have ho : ∀ s ∈ others, s.type ≠ .fsmStates ∧ s.type ≠ .fsmTrans :=
    fun s hm => ho _ (List.mem_map_of_mem hm)
  have h₁ := view_absorb (d := d) (s := states) "UCIS:STATE" hd (.inl hst)
  have h₂ := view_absorb (d := d) (s := trans) "UCIS:TRANSITION" hd (.inr htr)
  have hne : Scope.type (Scope.absorb (.mk {
      type := .fsmStates, name := "UCIS:STATE", srcinfo := d.srcinfo, weight := d.weight
      flags := d.flags } [] []) states) ≠ trans.type := by
    rw [htr]
    exact nofun
  rw [addScopes, List.foldl_cons, List.foldl_cons, fsmSubScopes]
  simp only [List.filter_nil]
  rw [addScope_states rfl hst, addScope_transitions hne rfl htr]
  refine (congrArg (List.map Scope.view) (addScopes_fsm ho)).trans ?_
  rw [hst] at h₁
  rw [htr] at h₂
  simp only [List.cons_append, List.nil_append, List.map_cons, h₁, h₂, List.cons.injEq, true_and]
  exact List.map_congr_left fun s hm => by rw [Scope.inherit_of_ne (ho s hm)]

end ScopeTreeReader

-- How many counts are taken.

namespace TsScopeTreeReader

open ScopeRecord (binCountAll)

variable {t : TsScopeTreeReader} {counts rest : Counts}

theorem readItems_ok {type : CoverTypeT} {atLeast : Nat} {refs : List Nat} {items : List TsCoverItem}
    (h : t.readItems type atLeast refs counts = some (items, rest)) :
    rest = counts.drop refs.length ∧ items.length = refs.length := by
  induction refs generalizing counts rest items
  case nil => cases h; exact ⟨rfl, rfl⟩
  case cons ref refs hi =>
    simp only [readItems, Option.bind_eq_bind, Option.bind_eq_some_iff, Option.pure_def,
      Option.some.injEq, Prod.mk.injEq, Prod.exists] at h
    obtain ⟨_, _, _, _, hs, he, hr⟩ := h
    obtain ⟨hd, hl⟩ := hi hs
    rw [← he, ← hr, hd, List.drop_tail]
    exact ⟨rfl, congrArg (· + 1) hl⟩

theorem readHeaderItems_rest {h : ScopeHeader} {refs : List Nat} {items : List TsCoverItem}
    (hr : t.readHeaderItems h refs counts = some (items, rest)) :
    rest = counts.drop (if h.coverType.isNone then 0 else refs.length) := by
  rw [readHeaderItems] at hr
  split at hr
  case h_1 hn => rw [hn]; cases hr; rfl
  case h_2 hs => rw [hs]; exact (readItems_ok hr).left

mutual

theorem readScope_rest : (record : ScopeRecord) → {counts rest : Counts} → {s : TsScope} →
    t.readScope record counts = some (s, rest) → rest = counts.drop record.binCount
  | .togglePair ref, counts, rest, s, h => by
    simp only [readScope, Option.bind_eq_bind, Option.bind_eq_some_iff, Option.pure_def,
      Option.some.injEq, Prod.mk.injEq] at h
    have ⟨_, _, _, hr⟩ := h
    exact hr.symm
  | .regular header refs records, counts, rest, s, h => by
    simp only [readScope, Option.bind_eq_bind, Option.bind_eq_some_iff, Option.pure_def,
      Option.some.injEq, Prod.mk.injEq, Prod.exists] at h
    have ⟨_, _, _, _, hi, _, _, hs, _, hr⟩ := h
    rw [← hr, readScopes_rest records hs, readHeaderItems_rest hi, List.drop_drop,
      ScopeRecord.binCount]

theorem readScopes_rest : (records : List ScopeRecord) → {counts rest : Counts} →
    {ss : List TsScope} → t.readScopes records counts = some (ss, rest) →
    rest = counts.drop (binCountAll records)
  | [], counts, rest, ss, h => by
    cases h
    rfl
  | record :: records, counts, rest, ss, h => by
    simp only [readScopes, Option.bind_eq_bind, Option.bind_eq_some_iff, Option.pure_def,
      Option.some.injEq, Prod.mk.injEq, Prod.exists] at h
    have ⟨_, _, hs, _, _, hss, _, hr⟩ := h
    rw [← hr, readScopes_rest records hss, readScope_rest record hs, List.drop_drop, binCountAll]

end

end TsScopeTreeReader

-- When two readers agree.

variable (r : ScopeTreeReader) (t : TsScopeTreeReader)

-- Both find the same string.
def NameAgrees (ref : Nat) : Prop :=
  ∃ name, r.strings[ref]? = some name ∧ t.strings[ref]? = some (.ofString name)

-- But for its name, the data of a scope is the same. The name plays no part in it.
def HeaderAgrees (p : Option ScopeData) (h : ScopeHeader) : Prop :=
  ((r.scopeData (p.map (·.type)) h "").inherit p).view = (t.scopeData h []).view

mutual

def Agrees (p : Option ScopeData) : ScopeRecord → Prop
  | .togglePair ref         => NameAgrees r t ref
  | .regular h refs records =>
    NameAgrees r t h.nameRef ∧ HeaderAgrees r t p h ∧ (∀ ref ∈ refs, NameAgrees r t ref) ∧
      (h.type = .fsm → refs = [] ∧ FsmTypes (records.map (·.type))) ∧
      AgreesAll (some (r.scopeData (p.map (·.type)) h "")) records

def AgreesAll (p : Option ScopeData) : List ScopeRecord → Prop
  | []                => True
  | record :: records => Agrees p record ∧ AgreesAll p records

end

variable {r : ScopeTreeReader} {t : TsScopeTreeReader} {counts rest : Counts}

theorem view_scopeData_iff {p : Option ScopeData} {h : ScopeHeader} {name : String} {name' : JsString} :
    (t.scopeData h name').view = ((r.scopeData (p.map (·.type)) h name).inherit p).view ↔
      name' = .ofString name ∧ HeaderAgrees r t p h := by
  have hs : r.scopeData (p.map (·.type)) h name
      = { r.scopeData (p.map (·.type)) h "" with name := name } := rfl
  have hz : (r.scopeData (p.map (·.type)) h "").name = "" := rfl
  rw [HeaderAgrees, hs]
  generalize r.scopeData (p.map (·.type)) h "" = d at hz ⊢
  have hr : ({ d with name := name }.inherit p).view
      = { (d.inherit p).view with name := .ofString name } := by
    rw [ScopeData.inherit_named]
    rfl
  have hn : (d.inherit p).view.name = [] := by
    change JsString.ofString (d.inherit p).name = []
    rw [ScopeData.inherit_name, hz]
    rfl
  have ht : (t.scopeData h name').view = { (t.scopeData h []).view with name := name' } := rfl
  have htn : (t.scopeData h []).view.name = [] := rfl
  rw [hr, ht]
  generalize (d.inherit p).view = a at hn ⊢
  generalize (t.scopeData h []).view = b at htn ⊢
  have ⟨_, _, _, _, _, _, _⟩ := a
  have ⟨_, _, _, _, _, _, _⟩ := b
  simp only [ScopeView.mk.injEq] at hn htn ⊢
  subst hn
  subst htn
  constructor
  case mp => exact fun ⟨h₁, h₂, h₃, h₄, h₅, h₆, h₇⟩ =>
    ⟨h₂, h₁.symm, rfl, h₃.symm, h₄.symm, h₅.symm, h₆.symm, h₇.symm⟩
  case mpr => exact fun ⟨h₂, h₁, _, h₃, h₄, h₅, h₆, h₇⟩ =>
    ⟨h₁.symm, h₂, h₃.symm, h₄.symm, h₅.symm, h₆.symm, h₇.symm⟩

theorem readItems_iff {type : CoverTypeT} {atLeast : Nat} {refs : List Nat} {items : List CoverIndex}
    (h : r.readItems type atLeast refs counts = some (items, rest)) :
    (∃ items', t.readItems type atLeast refs counts = some (items', rest) ∧
      items'.map (·.view) = items.map (·.view)) ↔ ∀ ref ∈ refs, NameAgrees r t ref := by
  induction refs generalizing counts rest items
  case nil =>
    cases h
    exact ⟨fun _ => nofun, fun _ => ⟨[], rfl, rfl⟩⟩
  case cons ref refs hi =>
    simp only [ScopeTreeReader.readItems, Option.bind_eq_bind, Option.bind_eq_some_iff, Option.pure_def,
      Option.some.injEq, Prod.mk.injEq, Prod.exists] at h
    obtain ⟨name, hn, items, _, hs, he, hr⟩ := h
    subst he
    subst hr
    simp only [TsScopeTreeReader.readItems, Option.bind_eq_bind, Option.bind_eq_some_iff, Option.pure_def,
      Option.some.injEq, Prod.mk.injEq, Prod.exists, List.forall_mem_cons]
    rw [← hi hs]
    constructor
    case mp =>
      rintro ⟨_, ⟨name', hn', items', _, hs', he, hr⟩, hv⟩
      subst he
      subst hr
      obtain ⟨hv, hvs⟩ := List.cons.inj hv
      have hname : name' = .ofString name := congrArg ItemView.name hv
      exact ⟨⟨name, hn, hname ▸ hn'⟩, items', hs', hvs⟩
    case mpr =>
      rintro ⟨⟨name', hn', ht⟩, items', hs', hvs⟩
      cases hn.symm.trans hn'
      exact ⟨_, ⟨_, ht, items', _, hs', rfl, rfl⟩, congrArg₂ List.cons rfl hvs⟩

theorem readHeaderItems_iff {h : ScopeHeader} {refs : List Nat} {items : List CoverIndex}
    (hf : h.coverType = none → refs = [])
    (hr : r.readHeaderItems h refs counts = some (items, rest)) :
    (∃ items', t.readHeaderItems h refs counts = some (items', rest) ∧
      items'.map (·.view) = items.map (·.view)) ↔ ∀ ref ∈ refs, NameAgrees r t ref := by
  cases ht : h.coverType
  case none =>
    simp only [ScopeTreeReader.readHeaderItems, ht] at hr
    cases hr
    simp only [hf ht, TsScopeTreeReader.readHeaderItems, ht]
    exact ⟨fun _ _ hm => absurd hm List.not_mem_nil, fun _ => ⟨[], rfl, rfl⟩⟩
  case some type =>
    simp only [ScopeTreeReader.readHeaderItems, ht] at hr
    simp only [TsScopeTreeReader.readHeaderItems, ht]
    exact readItems_iff hr

-- A scope without items has no names of items.
theorem readHeaderItems_nil_iff {h : ScopeHeader} {refs : List Nat} {items : List TsCoverItem}
    (hf : h.coverType = none → refs = [])
    (hr : t.readHeaderItems h refs counts = some (items, rest)) : items = [] ↔ refs = [] := by
  rw [TsScopeTreeReader.readHeaderItems] at hr
  split at hr
  case h_1 hn =>
    cases hr
    simp [hf hn]
  case h_2 =>
    rw [← List.length_eq_zero_iff, ← List.length_eq_zero_iff, (TsScopeTreeReader.readItems_ok hr).right]

-- The sub-scopes that a scope ends up with agree if each one does that was read, and those of an FSM
-- scope are of the right types.
theorem view_scopes_iff {d : ScopeData} {news : List Scope} {xs : List TreeView}
    (hx : xs.map TreeView.type = news.map (·.type)) :
    xs = (addScopes (some d.type) (ScopeTreeReader.initialScopes d []) news).map Scope.view ↔
      (d.type = .fsm → FsmTypes (news.map (·.type))) ∧
        xs = news.map fun s => (s.inherit (some d)).view := by
  by_cases hd : d.type = .fsm
  case neg =>
    rw [addScopes_of_not_fsm (by simpa using hd), ScopeTreeReader.initialScopes, if_neg hd,
      List.nil_append]
    simp only [hd, false_imp_iff, true_and, Scope.inherit_of_not_fsm _ hd]
  case pos =>
    rw [ScopeTreeReader.initialScopes, if_pos hd, congrArg some hd]
    simp only [hd, true_imp_iff]
    constructor
    case mp =>
      intro he
      have ht := ScopeTreeReader.types_addScopes_fsm (fsmSubScopes { d with source := .none } []) news
        ⟨_, .head _, rfl⟩ ⟨_, .tail _ (.head _), rfl⟩
      have hv := congrArg (List.map TreeView.type) he
      rw [hx, List.map_map, Function.comp_def] at hv
      simp only [Scope.view_type] at hv
      have hf := ScopeTreeReader.fsmTypes_of_eq (hv.trans ht)
      exact ⟨hf, he.trans (ScopeTreeReader.addScopes_fsmSubScopes hd hf)⟩
    case mpr => exact fun ⟨hf, he⟩ => he.trans (ScopeTreeReader.addScopes_fsmSubScopes hd hf).symm

open ScopeRecord (Formed FormedAll)

theorem togglePair_agrees {ref : Nat} {p : Option ScopeData} {s : Scope}
    (h : r.readScope (p.map (·.type)) (.togglePair ref) counts = some (s, rest)) :
    (∃ x, t.readScope (.togglePair ref) counts = some (x, rest) ∧ x.view = (s.inherit p).view) ↔
      Agrees r t p (.togglePair ref) := by
  simp only [ScopeTreeReader.readScope, Option.bind_eq_bind, Option.bind_eq_some_iff, Option.pure_def,
    Option.some.injEq, Prod.mk.injEq] at h
  have ⟨name, hn, hs, hr⟩ := h
  subst hs
  subst hr
  have hb : (ScopeTreeReader.togglePair name (counts.getD 0 0) (counts.getD 1 0)).type = .branch := rfl
  rw [Scope.inherit_of_ne (by rw [hb]; exact ⟨nofun, nofun⟩), Agrees]
  simp only [TsScopeTreeReader.readScope, Option.bind_eq_bind, Option.bind_eq_some_iff, Option.pure_def,
    Option.some.injEq, Prod.mk.injEq]
  constructor
  case mp =>
    intro ⟨x, ⟨name', hn', hx, _⟩, hv⟩
    subst hx
    have ⟨hv, _, _⟩ := TreeView.mk.inj hv
    have hname : name' = .ofString name := congrArg ScopeView.name hv
    exact ⟨name, hn, hname ▸ hn'⟩
  case mpr =>
    intro ⟨name', hn', ht⟩
    cases hn.symm.trans hn'
    exact ⟨_, ⟨_, ht, rfl, trivial⟩, rfl⟩

-- The items of a scope that is no FSM scope are compared, an FSM scope has to have none.
theorem items_agree_iff {h : ScopeHeader} {refs : List Nat} {items : List CoverIndex}
    {items' : List TsCoverItem} (hf : h.coverType = none → refs = [])
    (hi : r.readHeaderItems h refs counts = some (items, rest))
    (hi' : t.readHeaderItems h refs counts = some (items', rest)) :
    items'.map (·.view) = (if h.type = .fsm then [] else items).map (·.view) ↔
      (∀ ref ∈ refs, NameAgrees r t ref) ∧ (h.type = .fsm → refs = []) := by
  have hiff := readHeaderItems_iff (t := t) hf hi
  split
  case isTrue ht =>
    rw [List.map_nil, List.map_eq_nil_iff, readHeaderItems_nil_iff hf hi']
    simp only [ht, true_imp_iff]
    exact ⟨fun he => ⟨he ▸ nofun, he⟩, fun h => h.right⟩
  case isFalse ht =>
    simp only [ht, false_imp_iff, and_true]
    constructor
    case mp => exact fun he => hiff.mp ⟨items', hi', he⟩
    case mpr =>
      intro ha
      have ⟨_, hi'', he⟩ := hiff.mpr ha
      cases hi'.symm.trans hi''
      exact he

theorem Scope.view_inherit (p : Option ScopeData) (d : ScopeData) (items : List CoverIndex)
    (scopes : List Scope) : ((mk d items scopes).inherit p).view
      = .mk (d.inherit p).view (items.map (·.view)) (scopes.map view) := by
  rw [← viewAll_eq_map]
  rfl

theorem Scope.create_eq (d : ScopeData) (items : List CoverIndex) (scopes : List Scope) :
    create d items scopes = mk d (if d.type = .fsm then [] else items) scopes := by
  rw [create]
  split <;> rfl

theorem ScopeTreeReader.initialScopes_eq {d : ScopeData} {h : ScopeHeader} {refs : List Nat}
    {items : List CoverIndex} (hd : d.type = h.type)
    (hr : h.type = .fsm → refs = []) (hi : r.readHeaderItems h refs counts = some (items, rest)) :
    initialScopes d items = initialScopes d [] := by
  by_cases ht : h.type = .fsm
  case neg => rw [initialScopes, initialScopes, if_neg (hd ▸ ht), if_neg (hd ▸ ht)]
  case pos =>
    rw [hr ht, readHeaderItems] at hi
    split at hi <;> cases hi <;> rfl

-- The data, the items and the sub-scopes of a scope are compared one after the other.
theorem regular_agrees {header : ScopeHeader} {refs : List Nat} {records : List ScopeRecord}
    {p : Option ScopeData} {name : String} {items : List CoverIndex} {news : List Scope}
    {counts₁ : Counts} (hf : header.coverType = none → refs = [])
    (hn : r.strings[header.nameRef]? = some name)
    (hi : r.readHeaderItems header refs counts = some (items, counts₁))
    (hnews : r.readEach (some header.type) records counts₁ = some (news, rest))
    (hall : (∃ xs, t.readScopes records counts₁ = some (xs, rest) ∧ xs.map TsScope.view
        = news.map fun s => (s.inherit (some (r.scopeData (p.map (·.type)) header ""))).view) ↔
      AgreesAll r t (some (r.scopeData (p.map (·.type)) header "")) records) :
    (∃ x, t.readScope (.regular header refs records) counts = some (x, rest) ∧
      x.view = (Scope.inherit p <| .create (r.scopeData (p.map (·.type)) header name) items <|
        addScopes (some header.type)
          (ScopeTreeReader.initialScopes (r.scopeData (p.map (·.type)) header name) items) news).view) ↔
      Agrees r t p (.regular header refs records) := by
  have hsc {xs : List TsScope} (hx : t.readScopes records counts₁ = some (xs, rest)) :=
    @view_scopes_iff (r.scopeData (p.map (·.type)) header "") news (xs.map TsScope.view) <| by
        rw [List.map_map, Function.comp_def]
        simp only [TsScope.view_type]
        rw [TsScopeTreeReader.types_readScopes hx, ScopeTreeReader.types_readEach hnews]
  rw [Scope.create_eq, Scope.view_inherit, Agrees, ← hall, ← ScopeTreeReader.types_readEach hnews]
  simp only [TsScopeTreeReader.readScope, Option.bind_eq_bind, Option.bind_eq_some_iff, Option.pure_def,
    Option.some.injEq, Prod.mk.injEq, Prod.exists]
  constructor
  case mp =>
    intro ⟨_, ⟨name', hn', items', _, hi', xs, _, hx, he, hr⟩, hv⟩
    subst he hr
    rw [TsScope.view, TreeView.mk.injEq, TsScope.viewAll_eq_map, view_scopeData_iff] at hv
    have ⟨⟨hname, hh⟩, hitems, hscopes⟩ := hv
    have hc : _ = counts₁ := (TsScopeTreeReader.readHeaderItems_rest hi').trans
      (ScopeTreeReader.readHeaderItems_rest hi).left.symm
    subst hc
    have ⟨hrefs, hfsm⟩ := (items_agree_iff hf hi hi').mp hitems
    rw [ScopeTreeReader.initialScopes_eq rfl hfsm hi] at hscopes
    have ⟨htypes, hv⟩ := (hsc hx).mp hscopes
    exact ⟨⟨name, hn, hname ▸ hn'⟩, hh, hrefs, fun ht => ⟨hfsm ht, htypes ht⟩, xs, hx, hv⟩
  case mpr =>
    intro ⟨⟨name', hn', hname⟩, hh, hrefs, hfsm, xs, hx, hv⟩
    cases hn.symm.trans hn'
    have ⟨items', hi', _⟩ := (readHeaderItems_iff (t := t) hf hi).mpr hrefs
    refine ⟨_, ⟨_, hname, items', _, hi', xs, _, hx, rfl, rfl⟩, ?_⟩
    rw [TsScope.view, TreeView.mk.injEq, TsScope.viewAll_eq_map, view_scopeData_iff,
      ScopeTreeReader.initialScopes_eq rfl (fun ht => (hfsm ht).left) hi]
    refine ⟨⟨rfl, hh⟩, ?_, (hsc hx).mpr ⟨fun ht => (hfsm ht).right, hv⟩⟩
    exact (items_agree_iff hf hi hi').mpr ⟨hrefs, fun ht => (hfsm ht).left⟩

mutual

theorem agrees_iff : (record : ScopeRecord) → record.Formed → {p : Option ScopeData} →
    {counts rest : Counts} → {s : Scope} →
    r.readScope (p.map (·.type)) record counts = some (s, rest) →
    ((∃ x, t.readScope record counts = some (x, rest) ∧ x.view = (s.inherit p).view) ↔
      Agrees r t p record)
  | .togglePair ref, _, p, counts, rest, s, h => togglePair_agrees h
  | .regular header refs records, hf, p, counts, rest, s, h => by
    rw [Formed] at hf
    simp only [ScopeTreeReader.readScope, Option.bind_eq_bind, Option.bind_eq_some_iff, Option.pure_def,
      Option.some.injEq, Prod.mk.injEq, Prod.exists, ScopeTreeReader.readScopes_eq,
      Option.map_eq_some_iff] at h
    have ⟨name, hn, items, counts₁, hi, scopes, counts₂, ⟨news, _, hnews, ha, hc⟩, hs, hr⟩ := h
    subst hc hr hs ha
    exact regular_agrees hf.left.mp hn hi hnews <|
      agreesAll_iff records hf.right (p := some (r.scopeData (p.map (·.type)) header "")) hnews

theorem agreesAll_iff : (records : List ScopeRecord) → FormedAll records → {p : Option ScopeData} →
    {counts rest : Counts} → {ss : List Scope} →
    r.readEach (p.map (·.type)) records counts = some (ss, rest) →
    ((∃ xs, t.readScopes records counts = some (xs, rest) ∧
      xs.map TsScope.view = ss.map fun s => (s.inherit p).view) ↔ AgreesAll r t p records)
  | [], _, p, counts, rest, ss, h => by
    cases h
    exact ⟨fun _ => trivial, fun _ => ⟨[], rfl, rfl⟩⟩
  | record :: records, hf, p, counts, rest, ss, h => by
    rw [FormedAll] at hf
    simp only [ScopeTreeReader.readEach, Option.bind_eq_bind, Option.bind_eq_some_iff, Option.pure_def,
      Option.some.injEq, Prod.mk.injEq, Prod.exists] at h
    have ⟨s, counts₁, hs, ss, _, hss, he, hr⟩ := h
    subst he hr
    rw [AgreesAll, ← agrees_iff record hf.left hs, ← agreesAll_iff records hf.right hss]
    simp only [TsScopeTreeReader.readScopes, Option.bind_eq_bind, Option.bind_eq_some_iff, Option.pure_def,
      Option.some.injEq, Prod.mk.injEq, Prod.exists]
    constructor
    case mp =>
      intro ⟨_, ⟨x, counts₂, hx, xs, _, hxs, he, hr⟩, hv⟩
      subst he hr
      have ⟨hv, hvs⟩ := List.cons.inj hv
      have hc : counts₂ = counts₁ :=
        (TsScopeTreeReader.readScope_rest record hx).trans (ScopeTreeReader.readScope_rest hs).symm
      subst hc
      exact ⟨⟨x, hx, hv⟩, xs, hxs, hvs⟩
    case mpr =>
      intro ⟨⟨x, hx, hv⟩, xs, hxs, hvs⟩
      exact ⟨_, ⟨x, _, hx, xs, _, hxs, rfl, rfl⟩, congrArg₂ List.cons hv hvs⟩

end
