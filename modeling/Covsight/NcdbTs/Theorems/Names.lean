import Covsight.NcdbTs.Theorems.Agreement

-- The strings of a tree: the numbers they have in the records, and what becomes of them on the way
-- through the table.

namespace ScopeRecord

mutual

def refs : ScopeRecord → List Nat
  | togglePair ref              => [ref]
  | regular header items scopes => header.nameRef :: (items ++ refsAll scopes)

def refsAll : List ScopeRecord → List Nat
  | []                => []
  | record :: records => record.refs ++ refsAll records

end

end ScopeRecord

namespace Scope

mutual

-- The strings that are stored for a scope. A toggle pair only has its name.
def names : Scope → List String
  | mk d is ss =>
    if (mk d is ss).isTogglePair then [d.name] else d.name :: (is.map (·.name) ++ namesAll ss)

def namesAll : List Scope → List String
  | []      => []
  | s :: ss => s.names ++ namesAll ss

end

end Scope

namespace TsScope

mutual

def names : TsScope → List JsString
  | mk d is ss =>
    if (mk d is ss).isTogglePair then
      [d.logicalName]
    else
      d.logicalName :: (is.map (·.name) ++ namesAll ss)

def namesAll : List TsScope → List JsString
  | []      => []
  | s :: ss => s.names ++ namesAll ss

end

end TsScope

-- Numbers that are handed out for strings: they stay good while the table grows, and the table has
-- the strings that were there and those that were added.
structure Numbered {α : Type} [DecidableEq α] (table table' : List α) (refs : List Nat)
    (names : List α) : Prop where
  extends_table : table <+: table'
  nodup         : table.Nodup → table'.Nodup
  mem           : ∀ x ∈ table', x ∈ table ∨ x ∈ names
  lookup        : ∀ all, table' <+: all → refs.map (all[·]?) = names.map some

namespace Numbered

variable {α : Type} [DecidableEq α] {table table₁ table₂ : List α} {refs refs' : List Nat}
  {names names' : List α}

theorem nil (table : List α) : Numbered table table [] [] :=
  ⟨List.prefix_rfl, id, fun _ => .inl, fun _ _ => rfl⟩

theorem of_intern (table : List α) (x : α) :
    Numbered table (intern table x).snd [(intern table x).fst] [x] where
  extends_table := intern.extends_table table x
  nodup         := intern.nodup
  mem _ hy      := (intern.mem_iff.mp hy).imp_right List.mem_singleton.mpr
  lookup _ ha   := congrArg ([·]) (intern.get?_of_prefix ha)

theorem append (h : Numbered table table₁ refs names) (h' : Numbered table₁ table₂ refs' names') :
    Numbered table table₂ (refs ++ refs') (names ++ names') where
  extends_table := h.extends_table.trans h'.extends_table
  nodup         := h'.nodup ∘ h.nodup
  mem x hx      := by
    rw [List.mem_append]
    cases h'.mem x hx
    case inl hm => exact (h.mem x hm).imp_right .inl
    case inr hm => exact .inr (.inr hm)
  lookup all ha := by
    rw [List.map_append, List.map_append, h.lookup all (h'.extends_table.trans ha), h'.lookup all ha]

end Numbered

-- A table that starts empty holds the strings of the names and nothing else.
theorem Numbered.mem_refs {α : Type} [DecidableEq α] {start table : List α} {refs : List Nat}
    {names : List α} (h : Numbered start table refs names) (hs : start.Nodup) {i : Nat} {x : α}
    (hi : table[i]? = some x) (hx : x ∉ start) : i ∈ refs := by
  have hm := (h.mem x (List.mem_of_getElem? hi)).resolve_left hx
  have hl := h.lookup table List.prefix_rfl
  have ⟨ref, hr, he⟩ := List.mem_map.mp (hl ▸ List.mem_map_of_mem hm)
  have hn := h.nodup hs
  have ⟨h₁, he₁⟩ := List.getElem?_eq_some_iff.mp hi
  have ⟨h₂, he₂⟩ := List.getElem?_eq_some_iff.mp he
  exact (hn.getElem_inj_iff.mp (he₁.trans he₂.symm)) ▸ hr

namespace ScopeTreeWriter

theorem strings_writeSource (w : ScopeTreeWriter) (si : SourceInfo) :
    (w.writeSource si).snd.strings = w.strings := by
  rw [writeSource]
  split
  case h_1 => rfl
  case h_2 => split <;> rfl

theorem numbered_writeItems (w : ScopeTreeWriter) (items : List CoverIndex) :
    Numbered w.strings (w.writeItems items).snd.strings (w.writeItems items).fst
      (items.map (·.name)) := by
  induction items generalizing w
  case nil => exact .nil _
  case cons item items hi =>
    have hs := hi ((w.addString item.name).snd.addCounts [item.data.data])
    exact (Numbered.of_intern w.strings item.name).append hs

mutual

theorem numbered_writeScope : (s : Scope) → {w w' : ScopeTreeWriter} → {record : ScopeRecord} →
    w.writeScope s = some (record, w') → Numbered w.strings w'.strings record.refs s.names
  | .mk d is ss, w, w', record, h => by
    rw [writeScope] at h
    rw [Scope.names]
    split at h
    case isTrue hp =>
      rw [if_pos hp]
      cases h
      exact .of_intern w.strings d.name
    case isFalse hp =>
      simp only [Option.bind_eq_bind, Option.bind_eq_some_iff, Prod.exists, Option.pure_def,
        Option.some.injEq, Prod.mk.injEq] at h
      have ⟨header, w₁, hh, records, w₂, hs, hr, he⟩ := h
      have ⟨_, _, _, _, _, _, hh, hw⟩ := ScopeTreeReader.writeHeader_ok hh
      have hn : Numbered w.strings w₁.strings [header.nameRef] [d.name] := by
        rw [hw, strings_writeSource, hh]
        exact .of_intern w.strings d.name
      have hss := (numbered_writeItems w₁ is).append (numbered_writeScopes ss hs)
      rw [if_neg hp, ← hr, ← he, ScopeRecord.refs]
      exact hn.append hss

theorem numbered_writeScopes : (ss : List Scope) → {w w' : ScopeTreeWriter} →
    {records : List ScopeRecord} → w.writeScopes ss = some (records, w') →
    Numbered w.strings w'.strings (ScopeRecord.refsAll records) (Scope.namesAll ss)
  | [], w, w', records, h => by
    cases h
    exact .nil _
  | s :: ss, w, w', records, h => by
    simp only [writeScopes, Option.bind_eq_bind, Option.bind_eq_some_iff, Prod.exists,
      Option.pure_def, Option.some.injEq, Prod.mk.injEq] at h
    have ⟨_, _, h₁, _, _, h₂, hr, hw⟩ := h
    rw [← hr, ← hw]
    exact (numbered_writeScope s h₁).append (numbered_writeScopes ss h₂)

end

end ScopeTreeWriter

namespace TsScopeTreeWriter

theorem numbered_writeItems (w : TsScopeTreeWriter) (items : List TsCoverItem) :
    Numbered w.strings (w.writeItems items).snd.strings (w.writeItems items).fst
      (items.map (·.name)) := by
  induction items generalizing w
  case nil => exact .nil _
  case cons item items hi =>
    have hs := hi ((w.internString item.name).snd.pushCounts [item.count])
    exact (Numbered.of_intern w.strings item.name).append hs

mutual

theorem numbered_writeScope : (s : TsScope) → {w w' : TsScopeTreeWriter} → {record : ScopeRecord} →
    w.writeScope s = some (record, w') → Numbered w.strings w'.strings record.refs s.names
  | .mk d is ss, w, w', record, h => by
    rw [writeScope] at h
    rw [TsScope.names]
    split at h
    case isTrue hp =>
      rw [if_pos hp]
      cases h
      exact .of_intern w.strings d.logicalName
    case isFalse hp =>
      simp only [Option.bind_eq_bind, Option.bind_eq_some_iff, Prod.exists, Option.pure_def,
        Option.some.injEq, Prod.mk.injEq] at h
      have ⟨header, hh, records, w₂, hs, hr, he⟩ := h
      have hn : header.nameRef = (intern w.strings d.logicalName).fst := by
        simp only [writeHeader, Option.bind_eq_bind, Option.bind_eq_some_iff, Option.pure_def,
          Option.some.injEq] at hh
        have ⟨_, _, _, _, _, _, _, _, _, _, hh⟩ := hh
        rw [← hh]
        rfl
      have hss := (numbered_writeItems (w.internString d.logicalName).snd is).append
        (numbered_writeScopes ss hs)
      rw [if_neg hp, ← hr, ← he, ScopeRecord.refs, hn]
      exact (Numbered.of_intern w.strings d.logicalName).append hss

theorem numbered_writeScopes : (ss : List TsScope) → {w w' : TsScopeTreeWriter} →
    {records : List ScopeRecord} → w.writeScopes ss = some (records, w') →
    Numbered w.strings w'.strings (ScopeRecord.refsAll records) (TsScope.namesAll ss)
  | [], w, w', records, h => by
    cases h
    exact .nil _
  | s :: ss, w, w', records, h => by
    simp only [writeScopes, Option.bind_eq_bind, Option.bind_eq_some_iff, Prod.exists,
      Option.pure_def, Option.some.injEq, Prod.mk.injEq] at h
    have ⟨_, _, h₁, _, _, h₂, hr, hw⟩ := h
    rw [← hr, ← hw]
    exact (numbered_writeScope s h₁).append (numbered_writeScopes ss h₂)

end

end TsScopeTreeWriter

-- Strings that are changed on the way to another table are found there under their numbers if and
-- only if the way changes none of them. The strings that the table starts with keep their place.
theorem Numbered.lookups_iff {α β : Type} [DecidableEq α] [DecidableEq β] {start table : List α}
    {refs : List Nat} {names : List α} {f g : α → β} (h : Numbered start table refs names)
    (hs : start.Nodup) (hg : Function.Injective g) (hf : ∀ x ∈ start, f x = g x)
    (hk : ∀ (i : Nat) (x : α), start[i]? = some x → (internAll (table.map f))[i]? = some (g x)) :
    (∀ ref ∈ refs, (internAll (table.map f))[ref]? = table[ref]?.map g) ↔
      ∀ x ∈ names, f x = g x := by
  have hn := h.nodup hs
  have hi := getElem?_internAll_map_iff (f := f) (hn.map hg)
  constructor
  case mp =>
    intro hl x hx
    have ⟨ref, _, he⟩ := List.mem_map.mp (h.lookup table List.prefix_rfl ▸ List.mem_map_of_mem hx)
    refine hi.mp (fun i hi => ?_) x (List.mem_of_getElem? he)
    have hy := List.getElem?_eq_getElem hi
    by_cases hm : table[i] ∈ start
    case neg => exact hl i (h.mem_refs hs hy hm)
    case pos =>
      have ⟨j, hj, hjx⟩ := List.mem_iff_getElem.mp hm
      have hjt := h.extends_table.getElem hj
      have hji : j = i := hn.getElem_inj_iff.mp (hjt.symm.trans hjx)
      subst hji
      rw [hy]
      exact hk j _ (List.getElem?_eq_some_iff.mpr ⟨hj, hjx⟩)
  case mpr =>
    intro hx ref hr
    have ⟨x, _, he⟩ := List.mem_map.mp (h.lookup table List.prefix_rfl ▸ List.mem_map_of_mem hr)
    have ⟨hlt, _⟩ := List.getElem?_eq_some_iff.mp he.symm
    exact hi.mpr (fun x hm => (h.mem x hm).elim (hf x) (hx x)) ref hlt

section Split

variable (r : ScopeTreeReader) (t : TsScopeTreeReader)

mutual

-- What is left of an agreement when strings are not looked at.
def DataAgrees (p : Option ScopeData) : ScopeRecord → Prop
  | .togglePair _           => True
  | .regular h refs records =>
    HeaderAgrees r t p h ∧ (h.type = .fsm → refs = [] ∧ FsmTypes (records.map (·.type))) ∧
      DataAgreesAll (some (r.scopeData (p.map (·.type)) h "")) records

def DataAgreesAll (p : Option ScopeData) : List ScopeRecord → Prop
  | []                => True
  | record :: records => DataAgrees p record ∧ DataAgreesAll p records

end

variable {r t}

mutual

theorem agrees_iff_names : (record : ScopeRecord) → {p : Option ScopeData} →
    (Agrees r t p record ↔ (∀ ref ∈ record.refs, NameAgrees r t ref) ∧ DataAgrees r t p record)
  | .togglePair ref, p => by
    simp [Agrees, ScopeRecord.refs, DataAgrees]
  | .regular h refs records, p => by
    rw [Agrees, agreesAll_iff_names records, ScopeRecord.refs, DataAgrees, List.forall_mem_cons,
      List.forall_mem_append]
    constructor
    case mp => exact fun ⟨hn, hh, hr, hf, hs, hd⟩ => ⟨⟨hn, hr, hs⟩, hh, hf, hd⟩
    case mpr => exact fun ⟨⟨hn, hr, hs⟩, hh, hf, hd⟩ => ⟨hn, hh, hr, hf, hs, hd⟩

theorem agreesAll_iff_names : (records : List ScopeRecord) → {p : Option ScopeData} →
    (AgreesAll r t p records ↔
      (∀ ref ∈ ScopeRecord.refsAll records, NameAgrees r t ref) ∧ DataAgreesAll r t p records)
  | [], p => by
    simp [AgreesAll, ScopeRecord.refsAll, DataAgreesAll]
  | record :: records, p => by
    rw [AgreesAll, agrees_iff_names record, agreesAll_iff_names records, ScopeRecord.refsAll,
      DataAgreesAll, List.forall_mem_append]
    constructor
    case mp => exact fun ⟨⟨h₁, h₂⟩, h₃, h₄⟩ => ⟨⟨h₁, h₃⟩, h₂, h₄⟩
    case mpr => exact fun ⟨⟨h₁, h₃⟩, h₂, h₄⟩ => ⟨⟨h₁, h₂⟩, h₃, h₄⟩

end

end Split
