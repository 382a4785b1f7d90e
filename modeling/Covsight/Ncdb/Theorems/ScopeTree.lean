import Covsight.Ncdb.ScopeTree
import Covsight.Ncdb.Theorems.DfsUtil
import Mathlib.Data.List.Perm.Basic

def CoverIndex.recount (φ : Nat → Nat) (ci : CoverIndex) : CoverIndex :=
  { ci with data.data := φ ci.data.data }

namespace Scope

mutual

-- A scope without the source locations of the scopes and with other items.
def outline (g : CoverIndex → CoverIndex) : Scope → Scope
  | mk d is ss => mk { d with srcinfo := ⟨none, -1, -1⟩ } (is.map g) (outlineAll g ss)

def outlineAll (g : CoverIndex → CoverIndex) : List Scope → List Scope
  | []      => []
  | s :: ss => s.outline g :: outlineAll g ss

end

theorem outlineAll_eq_map (g : CoverIndex → CoverIndex) (ss : List Scope) :
    outlineAll g ss = ss.map (outline g) := by
  induction ss
  case nil          => rfl
  case cons s ss hi => rw [outlineAll, hi, List.map_cons]

variable {g : CoverIndex → CoverIndex}

@[simp]
theorem outline_data (s : Scope) : (s.outline g).data = { s.data with srcinfo := ⟨none, -1, -1⟩ } := by
  cases s; rfl

@[simp]
theorem outline_coverItems (s : Scope) : (s.outline g).coverItems = s.coverItems.map g := by
  cases s; rfl

@[simp]
theorem outline_scopes (s : Scope) : (s.outline g).scopes = s.scopes.map (outline g) := by
  obtain ⟨_, _, ss⟩ := s
  exact outlineAll_eq_map g ss

@[simp]
theorem outline_type (s : Scope) : (s.outline g).type = s.type := by
  cases s; rfl

theorem outline_mk (d : ScopeData) (is : List CoverIndex) (ss : List Scope) :
    (mk d is ss).outline g
      = mk { d with srcinfo := ⟨none, -1, -1⟩ } (is.map g) (ss.map (outline g)) := by
  rw [outline, outlineAll_eq_map]

mutual

theorem dfs_outline : (s : Scope) → (s.outline g).dfs = s.dfs.map (outline g)
  | mk d is ss => by
    rw [dfs_eq, dfs_eq (mk d is ss), List.map_cons, outline_scopes, dfsAll_outline, scopes_mk]

theorem dfsAll_outline : (ss : List Scope) → dfsAll (ss.map (outline g)) = (dfsAll ss).map (outline g)
  | []      => rfl
  | s :: ss => by rw [List.map_cons, dfsAll, dfsAll, List.map_append, dfs_outline, dfsAll_outline]

end

-- The items of some scopes and all that is below them.
def itemsAll (ss : List Scope) : List CoverIndex :=
  (dfsAll ss).flatMap (·.coverItems)

@[simp]
theorem itemsAll_nil : itemsAll [] = [] :=
  rfl

theorem itemsAll_append (ss ss' : List Scope) : itemsAll (ss ++ ss') = itemsAll ss ++ itemsAll ss' := by
  simp only [itemsAll, dfsAll_eq_flatMap, List.flatMap_append]

theorem itemsAll_cons (s : Scope) (ss : List Scope) :
    itemsAll (s :: ss) = s.coverItems ++ itemsAll s.scopes ++ itemsAll ss := by
  rw [itemsAll, dfsAll, dfs_eq, List.flatMap_append, List.flatMap_cons]
  rfl

theorem outline_absorb (old new : Scope) :
    (old.absorb new).outline g = (old.outline g).absorb (new.outline g) := by
  simp [absorb, outline_mk, Scope.name]

end Scope

open Scope (outline itemsAll)

theorem map_outline_absorbIn {g : CoverIndex → CoverIndex} (new : Scope) (ss : List Scope) :
    (absorbIn new ss).map (outline g) = absorbIn (new.outline g) (ss.map (outline g)) := by
  induction ss
  case nil => rfl
  case cons s ss hi =>
    rw [absorbIn, List.map_cons, absorbIn, Scope.outline_type, Scope.outline_type]
    split
    · rw [List.map_cons, Scope.outline_absorb]
    · rw [List.map_cons, hi]

theorem map_outline_addScope {g : CoverIndex → CoverIndex} (parent : Option ScopeTypeT)
    (ss : List Scope) (new : Scope) :
    (addScope parent ss new).map (outline g)
      = addScope parent (ss.map (outline g)) (new.outline g) := by
  rw [addScope, addScope, Scope.outline_type]
  split
  · exact map_outline_absorbIn ..
  · simp

theorem map_outline_fsmSubScopes {g : CoverIndex → CoverIndex} (hg : ∀ ci, (g ci).name = ci.name)
    (d : ScopeData) (items : List CoverIndex) :
    (fsmSubScopes d items).map (outline g)
      = fsmSubScopes { d with srcinfo := ⟨none, -1, -1⟩ } (items.map g) := by
  simp [fsmSubScopes, Scope.outline_mk, List.filter_map, hg, Function.comp_def]

-- Adding a scope adds its items.
theorem itemsAll_absorbIn (new : Scope) (ss : List Scope) :
    (itemsAll (absorbIn new ss)).Perm (itemsAll ss ++ itemsAll [new]) := by
  induction ss
  case nil => rfl
  case cons s ss hi =>
    rw [absorbIn]
    split
    case isFalse =>
      rw [Scope.itemsAll_cons, Scope.itemsAll_cons s ss, List.append_assoc _ (itemsAll ss)]
      exact hi.append_left _
    case isTrue =>
      rw [Scope.itemsAll_cons, Scope.itemsAll_cons s ss, Scope.itemsAll_cons new]
      simp only [Scope.absorb, Scope.coverItems_mk, Scope.scopes_mk, Scope.itemsAll_append,
        Scope.itemsAll_nil, List.append_nil]
      generalize s.coverItems = a, new.coverItems = b, itemsAll s.scopes = c,
        itemsAll new.scopes = d, itemsAll ss = e
      rw [List.perm_iff_count]
      intro x
      simp only [List.count_append]
      omega

theorem itemsAll_addScope (parent : Option ScopeTypeT) (ss : List Scope) (new : Scope) :
    (itemsAll (addScope parent ss new)).Perm (itemsAll ss ++ itemsAll [new]) := by
  rw [addScope]
  split
  · exact itemsAll_absorbIn ..
  · rw [Scope.itemsAll_append]

theorem itemsAll_fsmSubScopes (d : ScopeData) (items : List CoverIndex) :
    (itemsAll (fsmSubScopes d items)).Perm items := by
  simp only [fsmSubScopes, Scope.itemsAll_cons, Scope.coverItems_mk, Scope.scopes_mk,
    Scope.itemsAll_nil, List.append_nil]
  exact List.perm_append_comm.trans (List.filter_append_perm ..)

namespace ScopeRecord

mutual

-- The number of counts that reading a record takes.
def binCount : ScopeRecord → Nat
  | togglePair _        => 2
  | regular h refs rs => (if h.coverType.isNone then 0 else refs.length) + binCountAll rs

def binCountAll : List ScopeRecord → Nat
  | []      => 0
  | r :: rs => r.binCount + binCountAll rs

end

end ScopeRecord

open ScopeRecord (binCountAll)

namespace ScopeTreeReader

variable {r q : ScopeTreeReader} {counts counts' rest : Counts}

-- The first counts of an array.
def takeCounts (n : Nat) (counts : Counts) : Counts :=
  (List.range n).map fun i => counts.getD i 0

theorem takeCounts_add (n m : Nat) (counts : Counts) :
    takeCounts (n + m) counts = takeCounts n counts ++ takeCounts m (counts.drop n) := by
  rw [takeCounts, List.range_add, List.map_append, List.map_map, takeCounts, takeCounts]
  simp [Function.comp_def, List.getD_eq_getElem?_getD]

@[simp]
theorem takeCounts_length (n : Nat) (counts : Counts) : (takeCounts n counts).length = n := by
  simp [takeCounts]

-- The items of a record, all at once.
theorem readItems_eq (r : ScopeTreeReader) (type : CoverTypeT) (atLeast : Nat) (refs : List Nat)
    (counts : Counts) :
    r.readItems type atLeast refs counts
      = (refs.mapM (r.strings[·]?)).map fun names =>
          (List.zipWith (coverItem type atLeast) names (takeCounts refs.length counts),
            counts.drop refs.length) := by
  induction refs generalizing counts
  case nil => rfl
  case cons ref refs hi =>
    rw [readItems, hi, List.mapM_cons, List.length_cons, Nat.add_comm refs.length, takeCounts_add]
    cases r.strings[ref]?
    case none => rfl
    case some name =>
      cases refs.mapM (r.strings[·]?)
      case none       => rfl
      case some names => cases counts <;> simp [takeCounts, List.range_succ, Nat.add_comm]

theorem mapM_length {α β : Type*} {f : α → Option β} {xs : List α} {ys : List β}
    (h : xs.mapM f = some ys) : ys.length = xs.length := by
  induction xs generalizing ys
  case nil => cases h; rfl
  case cons x xs hi =>
    rw [List.mapM_cons] at h
    cases hx : f x <;> simp only [hx, Option.bind_eq_bind, Option.bind_none, Option.bind_some] at h
    case none   => cases h
    case some y =>
      cases hxs : xs.mapM f <;> simp only [hxs, Option.bind_none, Option.bind_some] at h <;> cases h
      rw [List.length_cons, hi hxs, List.length_cons]

-- How many counts the items of a record take.
def headerCount (h : ScopeHeader) (refs : List Nat) : Nat :=
  if h.coverType.isNone then 0 else refs.length

variable {φ φ' : Nat → Nat}

theorem map_recount_zipWith (type : CoverTypeT) (atLeast : Nat) (names : List String)
    (cs : List Nat) :
    (List.zipWith (coverItem type atLeast) names cs).map (CoverIndex.recount φ)
      = List.zipWith (coverItem type atLeast) names (cs.map φ) := by
  rw [List.map_zipWith, List.zipWith_map_right]
  rfl

theorem data_zipWith {type : CoverTypeT} {atLeast : Nat} {names : List String} {cs : List Nat}
    (h : names.length = cs.length) :
    (List.zipWith (coverItem type atLeast) names cs).map (·.data.data) = cs := by
  have hz := List.map_snd_zip (Nat.le_of_eq h.symm)
  rw [List.zip, List.map_zipWith] at hz
  rwa [List.map_zipWith]

-- The items a record is read with take their counts from the front, and are otherwise the same
-- whatever the counts are.
theorem readHeaderItems_some {h : ScopeHeader} {refs : List Nat} {items : List CoverIndex}
    (hs : q.strings = r.strings)
    (hc : (takeCounts (headerCount h refs) counts').map φ'
      = (takeCounts (headerCount h refs) counts).map φ)
    (hr : r.readHeaderItems h refs counts = some (items, rest)) :
    rest = counts.drop (headerCount h refs) ∧
    items.map (·.data.data) = takeCounts (headerCount h refs) counts ∧
    ∃ items', q.readHeaderItems h refs counts' = some (items', counts'.drop (headerCount h refs)) ∧
      items'.map (CoverIndex.recount φ') = items.map (CoverIndex.recount φ) := by
  cases ht : h.coverType
  case none =>
    simp only [readHeaderItems, ht, Option.some.injEq, Prod.mk.injEq] at hr
    simp [headerCount, ht, readHeaderItems, ← hr.1, ← hr.2, takeCounts]
  case some type =>
    simp only [headerCount, ht, Option.isNone_some, Bool.false_eq_true, if_false] at hc ⊢
    simp only [readHeaderItems, ht, readItems_eq, Option.map_eq_some_iff] at hr ⊢
    have ⟨names, hn, he⟩ := hr
    have hl := mapM_length hn
    cases he
    refine ⟨rfl, data_zipWith (by simp [hl]), _, ⟨names, hs ▸ hn, rfl⟩, ?_⟩
    rw [map_recount_zipWith, map_recount_zipWith, hc]

theorem map_outline_initialScopes {g : CoverIndex → CoverIndex} (hg : ∀ ci, (g ci).name = ci.name)
    (d : ScopeData) (items : List CoverIndex) :
    (initialScopes d items).map (outline g)
      = initialScopes { d with srcinfo := ⟨none, -1, -1⟩ } (items.map g) := by
  simp only [initialScopes]
  split
  · exact map_outline_fsmSubScopes hg ..
  · rfl

theorem outline_create {g : CoverIndex → CoverIndex} (d : ScopeData) (items : List CoverIndex)
    (ss : List Scope) :
    (Scope.create d items ss).outline g
      = .create { d with srcinfo := ⟨none, -1, -1⟩ } (items.map g) (ss.map (outline g)) := by
  simp only [Scope.create]
  split <;> simp [Scope.outline_mk]

theorem outline_togglePair (name : String) (c₁ c₂ : Nat) :
    (togglePair name c₁ c₂).outline (CoverIndex.recount φ) = togglePair name (φ c₁) (φ c₂) :=
  rfl

-- The part of an array that is left for what follows.
theorem takeCounts_split {n m : Nat}
    (hc : (takeCounts (n + m) counts').map φ' = (takeCounts (n + m) counts).map φ) :
    (takeCounts n counts').map φ' = (takeCounts n counts).map φ ∧
    (takeCounts m (counts'.drop n)).map φ' = (takeCounts m (counts.drop n)).map φ := by
  rw [takeCounts_add, takeCounts_add, List.map_append, List.map_append] at hc
  exact List.append_inj hc (by simp)

mutual

-- Reading one tree against two count arrays gives the same scopes, with the counts in the same
-- places.
theorem readScope_outline (hs : q.strings = r.strings) {parent : Option ScopeTypeT} {s : Scope} :
    (record : ScopeRecord) → {counts counts' rest : Counts} →
    (takeCounts record.binCount counts').map φ' = (takeCounts record.binCount counts).map φ →
    r.readScope parent record counts = some (s, rest) →
    rest = counts.drop record.binCount ∧
    ∃ s', q.readScope parent record counts' = some (s', counts'.drop record.binCount) ∧
      s'.outline (CoverIndex.recount φ') = s.outline (CoverIndex.recount φ)
  | .togglePair ref, counts, counts', rest, hc, h => by
    simp only [readScope, Option.pure_def, Option.bind_eq_bind, Option.bind_eq_some_iff,
      Option.some.injEq, Prod.mk.injEq] at h ⊢
    have ⟨name, hn, ht, hr⟩ := h
    refine ⟨hr.symm, _, ⟨name, hs ▸ hn, rfl, rfl⟩, ?_⟩
    have h₁ : φ' (counts'.getD 0 0) = φ (counts.getD 0 0) ∧
        φ' (counts'.getD 1 0) = φ (counts.getD 1 0) := by
      simpa [takeCounts, ScopeRecord.binCount, List.range_succ] using hc
    rw [← ht, outline_togglePair, outline_togglePair, h₁.1, h₁.2]
  | .regular hd refs records, counts, counts', rest, hc, h => by
    have ⟨hc₁, hc₂⟩ := takeCounts_split hc
    simp only [readScope, Option.pure_def, Option.bind_eq_bind, Option.bind_eq_some_iff,
      Option.some.injEq, Prod.mk.injEq, Prod.exists] at h ⊢
    have ⟨name, hn, items, rest₁, hi, ss, rest₂, hss, ht, hr⟩ := h
    have ⟨he, _, items', hi', hii⟩ := readHeaderItems_some hs hc₁ hi
    subst he
    have hb : (initialScopes (q.scopeData parent hd name) items').map
          (outline (CoverIndex.recount φ'))
        = (initialScopes (r.scopeData parent hd name) items).map
          (outline (CoverIndex.recount φ)) := by
      rw [map_outline_initialScopes (g := CoverIndex.recount φ') fun _ => rfl,
        map_outline_initialScopes (g := CoverIndex.recount φ) fun _ => rfl, hii]
      rfl
    have ⟨he, ss', hss', hsss⟩ := readScopes_outline hs records hc₂ hb hss
    refine ⟨?_, _, ⟨name, hs ▸ hn, items', _, hi', ss', _, hss', rfl, ?_⟩, ?_⟩
    · rw [← hr, he, List.drop_drop]; rfl
    · rw [List.drop_drop]; rfl
    · rw [← ht, outline_create, outline_create, hii, hsss]
      rfl

theorem readScopes_outline (hs : q.strings = r.strings) {parent : Option ScopeTypeT}
    {siblings siblings' ss : List Scope} :
    (records : List ScopeRecord) → {counts counts' rest : Counts} →
    (takeCounts (binCountAll records) counts').map φ' = (takeCounts (binCountAll records) counts).map φ →
    siblings'.map (outline (CoverIndex.recount φ')) = siblings.map (outline (CoverIndex.recount φ)) →
    r.readScopes parent siblings records counts = some (ss, rest) →
    rest = counts.drop (binCountAll records) ∧
    ∃ ss', q.readScopes parent siblings' records counts'
        = some (ss', counts'.drop (binCountAll records)) ∧
      ss'.map (outline (CoverIndex.recount φ')) = ss.map (outline (CoverIndex.recount φ))
  | [], counts, counts', rest, _, hb, h => by
    simp only [readScopes, Option.some.injEq, Prod.mk.injEq] at h
    exact ⟨h.2.symm, siblings', rfl, h.1 ▸ hb⟩
  | record :: records, counts, counts', rest, hc, hb, h => by
    have ⟨hc₁, hc₂⟩ := takeCounts_split hc
    simp only [readScopes, Option.bind_eq_bind, Option.bind_eq_some_iff, Prod.exists] at h ⊢
    have ⟨s, rest₁, h₁, h₂⟩ := h
    have ⟨he, s', h₁', hss⟩ := readScope_outline hs record hc₁ h₁
    subst he
    have hb' : (addScope parent siblings' s').map (outline (CoverIndex.recount φ'))
        = (addScope parent siblings s).map (outline (CoverIndex.recount φ)) := by
      rw [map_outline_addScope, map_outline_addScope, hb, hss]
    have ⟨hr, ss', h₂', hsss⟩ := readScopes_outline hs records hc₂ hb' h₂
    refine ⟨?_, ss', ⟨s', _, h₁', ?_⟩, hsss⟩
    · rw [hr, List.drop_drop]; rfl
    · rw [h₂', List.drop_drop]; rfl

end

theorem readHeaderItems_rest {h : ScopeHeader} {refs : List Nat} {items : List CoverIndex}
    (hr : r.readHeaderItems h refs counts = some (items, rest)) :
    rest = counts.drop (headerCount h refs) ∧
    items.map (·.data.data) = takeCounts (headerCount h refs) counts :=
  have ⟨he, hi, _⟩ := readHeaderItems_some (φ := id) rfl rfl hr
  ⟨he, hi⟩

theorem readScope_rest {parent : Option ScopeTypeT} {record : ScopeRecord} {s : Scope}
    (h : r.readScope parent record counts = some (s, rest)) :
    rest = counts.drop record.binCount :=
  (readScope_outline (φ := id) rfl record rfl h).left

-- An item as a record gives it.
def FreshItem (ci : CoverIndex) : Prop :=
  ∃ type atLeast name count, ci = coverItem type atLeast name count

theorem readHeaderItems_fresh {h : ScopeHeader} {refs : List Nat} {items : List CoverIndex}
    (hr : r.readHeaderItems h refs counts = some (items, rest)) : ∀ ci ∈ items, FreshItem ci := by
  intro ci hm
  cases ht : h.coverType
  case none =>
    simp only [readHeaderItems, ht, Option.some.injEq, Prod.mk.injEq] at hr
    simp [← hr.1] at hm
  case some type =>
    simp only [readHeaderItems, ht, readItems_eq, Option.map_eq_some_iff] at hr
    have ⟨names, _, he⟩ := hr
    cases he
    have ⟨j, _, he⟩ := List.mem_iff_getElem.mp hm
    rw [List.getElem_zipWith] at he
    exact ⟨type, _, _, _, he.symm⟩

-- What reading scopes adds to the items that are there.
structure Reads (records : Nat) (counts : Counts) (before after : List CoverIndex) : Prop where
  exists_new : ∃ new, after.Perm (before ++ new) ∧
    new.map (·.data.data) = takeCounts records counts ∧ ∀ ci ∈ new, FreshItem ci

mutual

theorem readScope_reads {parent : Option ScopeTypeT} {s : Scope} :
    (record : ScopeRecord) → {counts rest : Counts} →
    r.readScope parent record counts = some (s, rest) →
    Reads record.binCount counts [] (itemsAll [s])
  | .togglePair ref, counts, rest, h => by
    simp only [readScope, Option.pure_def, Option.bind_eq_bind, Option.bind_eq_some_iff,
      Option.some.injEq, Prod.mk.injEq] at h
    have ⟨name, _, ht, _⟩ := h
    have hi : itemsAll [s] = [
        coverItem .toggleBin (defaultAtLeast .toggleBin) toggleBin0To1 (counts.getD 0 0),
        coverItem .toggleBin (defaultAtLeast .toggleBin) toggleBin1To0 (counts.getD 1 0)] := by
      rw [← ht, Scope.itemsAll_cons]
      simp only [togglePair, Scope.coverItems_mk, Scope.scopes_mk, Scope.itemsAll_nil,
        List.append_nil]
    rw [hi]
    refine ⟨_, .refl _, rfl, ?_⟩
    intro ci hm
    cases List.mem_pair.mp hm
    case inl hm => exact ⟨.toggleBin, defaultAtLeast .toggleBin, toggleBin0To1, _, hm⟩
    case inr hm => exact ⟨.toggleBin, defaultAtLeast .toggleBin, toggleBin1To0, _, hm⟩
  | .regular hd refs records, counts, rest, h => by
    simp only [readScope, Option.pure_def, Option.bind_eq_bind, Option.bind_eq_some_iff,
      Option.some.injEq, Prod.mk.injEq, Prod.exists] at h
    have ⟨name, _, items, rest₁, hi, ss, rest₂, hss, ht, _⟩ := h
    have ⟨he, hic⟩ := readHeaderItems_rest hi
    have hf := readHeaderItems_fresh hi
    have ⟨new, hp, hc, hn⟩ := (readScopes_reads records hss).exists_new
    refine ⟨items ++ new, ?_, ?_, ?_⟩
    · rw [← ht]
      simp only [Scope.create, initialScopes] at hp ⊢
      split at hp
      case isTrue hfsm =>
        rw [if_pos hfsm, Scope.itemsAll_cons]
        simp only [Scope.coverItems_mk, Scope.scopes_mk, Scope.itemsAll_nil, List.append_nil,
          List.nil_append]
        exact hp.trans ((itemsAll_fsmSubScopes ..).append_right new)
      case isFalse hfsm =>
        rw [if_neg hfsm, Scope.itemsAll_cons]
        simp only [Scope.coverItems_mk, Scope.scopes_mk, Scope.itemsAll_nil, List.append_nil,
          List.nil_append] at hp ⊢
        exact hp.append_left items
    · rw [List.map_append, hic, hc, he]
      exact (takeCounts_add ..).symm
    · intro ci hm
      cases List.mem_append.mp hm
      case inl hm => exact hf ci hm
      case inr hm => exact hn ci hm

theorem readScopes_reads {parent : Option ScopeTypeT} {siblings ss : List Scope} :
    (records : List ScopeRecord) → {counts rest : Counts} →
    r.readScopes parent siblings records counts = some (ss, rest) →
    Reads (binCountAll records) counts (itemsAll siblings) (itemsAll ss)
  | [], counts, rest, h => by
    simp only [readScopes, Option.some.injEq, Prod.mk.injEq] at h
    exact ⟨[], by simp [h.1], by simp [takeCounts, binCountAll], by simp⟩
  | record :: records, counts, rest, h => by
    simp only [readScopes, Option.bind_eq_bind, Option.bind_eq_some_iff, Prod.exists] at h
    have ⟨s, rest₁, h₁, h₂⟩ := h
    have ⟨new₁, hp₁, hc₁, hn₁⟩ := (readScope_reads record h₁).exists_new
    have ⟨new₂, hp₂, hc₂, hn₂⟩ := (readScopes_reads records h₂).exists_new
    refine ⟨new₁ ++ new₂, ?_, ?_, ?_⟩
    · rw [← List.append_assoc]
      refine hp₂.trans (.append_right new₂ ?_)
      exact (itemsAll_addScope ..).trans (hp₁.append_left _)
    · rw [List.map_append, hc₁, hc₂, readScope_rest h₁]
      exact (takeCounts_add ..).symm
    · intro ci hm
      cases List.mem_append.mp hm
      case inl hm => exact hn₁ ci hm
      case inr hm => exact hn₂ ci hm

end

end ScopeTreeReader
