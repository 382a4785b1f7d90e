import Covsight.NcdbC.Theorems.Covers

-- What a caller does with the scopes and covers of a database.
inductive CoverOp
  | createScope (parent : Option NcdbScopePath) (d : NcdbScopeData)
  | createCover (p : NcdbScopePath) (type : UInt64) (name : String) (count : UInt64)
  | reread

-- A cover that was created, with the scope that it was created on.
structure CreatedCover where
  path : NcdbScopePath
  loc  : CoverLoc
  key  : UInt64 × String × UInt64

structure CoverSession where
  db      : Ncdb
  created : List CreatedCover := []

-- The covers of a scope that the logical view enumerates, in its order.
def NcdbScope.viewedCovers (s : NcdbScope) : List CoverLoc :=
  (List.range s.logicalCoverCount).filterMap s.logicalCoverAt

namespace CoverSession

-- A call that fails leaves the database as it is.
def step (x : CoverSession) : CoverOp → CoverSession
  | .createScope parent d => { x with db := x.db.createScope parent d }
  | .createCover p type name count =>
    match x.db.createCover p type name count with
    | none           => x
    | some (db, loc) => ⟨db, x.created ++ [⟨p, loc, type, name, count⟩]⟩
  | .reread => { x with db := x.db.reread.getD x.db }

-- A cover is not created on a scope that counts as a synthetic child for another type. Scopes are
-- only written where the record of a toggle pair and the end of the stream allow it.
def Allowed (x : CoverSession) : CoverOp → Prop
  | .createScope _ _        => True
  | .createCover p type _ _ => ∀ s, x.db.scopeAt p = some s → s.TakesType type
  | .reread                 => (∀ s ∈ x.db.roots, s.Everywhere NcdbScope.Rereads) ∧
    ∀ out, x.db.scopeTreeSerialize [""] = some out → x.db.TrailerClear out.data

-- A run whose steps the condition allows.
inductive AllowedRun : CoverSession → CoverSession → Prop
  | refl (x) : AllowedRun x x
  | step {x y} (op : CoverOp) : AllowedRun x y → y.Allowed op → AllowedRun x (y.step op)

end CoverSession

theorem filterMap_getElem?_range {α : Type*} (xs : List α) :
    (List.range xs.length).filterMap (fun i => xs[i]?) = xs := by
  induction xs
  case nil => rfl
  case cons x xs hi =>
    rw [List.length_cons, List.range_succ_eq_map, List.filterMap_cons, List.filterMap_map]
    exact congrArg (x :: ·) hi

namespace NcdbScope

variable {s s' : NcdbScope}

theorem viewedCovers_eq (s : NcdbScope) : s.viewedCovers = s.logicalCovers := by
  have hget : s.logicalCoverAt = fun idx => s.logicalCovers[idx]? :=
    funext fun idx => (s.getElem?_logicalCovers idx).symm
  rw [viewedCovers, ← length_logicalCovers, hget, filterMap_getElem?_range]

-- A cover that is listed is listed at one position.
theorem existsUnique_logicalCoverAt {loc : CoverLoc} (h : loc ∈ s.logicalCovers) :
    ∃! idx, idx < s.logicalCoverCount ∧ s.logicalCoverAt idx = some loc := by
  have ⟨idx, hidx⟩ := List.mem_iff_getElem?.mp h
  refine ⟨idx, ⟨?_, by rw [← getElem?_logicalCovers, hidx]⟩, fun idx' ⟨hl, hidx'⟩ => ?_⟩
  · rw [← length_logicalCovers]
    exact (List.getElem?_eq_some_iff.mp hidx).1
  · rw [← getElem?_logicalCovers, ← hidx] at hidx'
    rw [← length_logicalCovers] at hl
    exact (List.getElem?_inj hl s.nodup_logicalCovers).mp hidx'

theorem descend_modifyDescendant {f : NcdbScope → NcdbScope} {path : List Nat}
    (h : s.descend path = some s') : (modifyDescendant f path s).descend path = some (f s') := by
  induction path generalizing s
  case nil =>
    cases h
    rfl
  case cons i is hi =>
    have ⟨c, hc, h⟩ := Option.bind_eq_some_iff.mp h
    rw [modifyDescendant, descend, children_mk, List.getElem?_modify_eq, hc]
    exact hi h

-- The place of a new cover was not taken.
theorem createCover_loc_new (s : NcdbScope) (type : UInt64) (name : String) (count : UInt64) :
    (s.createCover type name count).snd ∉ s.logicalCovers := by
  rw [mem_logicalCovers, createCover]
  rintro ⟨h, _⟩
  split at h
  case isFalse => simp [coverAt] at h
  case isTrue =>
    split at h
    case h_1 i hi =>
      obtain ⟨c, hc, _⟩ := findR7Synthetic_some hi
      simp [coverAt, hc] at h
    case h_2 => simp [coverAt] at h

end NcdbScope

namespace Ncdb

open NcdbScope

variable {db db' : Ncdb} {p : NcdbScopePath} {s : NcdbScope}

def Grows (db db' : Ncdb) : Prop :=
  GrowsAll db.roots db'.roots

def SingleTyped (db : Ncdb) : Prop :=
  ∀ s ∈ db.roots, s.Everywhere NcdbScope.SingleTyped

theorem Grows.scopeAt (h : db.Grows db') (hs : db.scopeAt p = some s) :
    ∃ s', db'.scopeAt p = some s' ∧ s.Grows s' := by
  have ⟨r, hr, hs⟩ := Option.bind_eq_some_iff.mp hs
  have ⟨r', hr', hg⟩ := growsAll_iff.mp h p.root r hr
  have ⟨s', hs', hg⟩ := hg.descend hs
  exact ⟨s', by rw [Ncdb.scopeAt, hr']; exact hs', hg⟩

theorem scopeAt_modifyScope {f : NcdbScope → NcdbScope} (h : db.scopeAt p = some s) :
    (db.modifyScope p f).scopeAt p = some (f s) := by
  have ⟨r, hr, h⟩ := Option.bind_eq_some_iff.mp h
  rw [modifyScope, scopeAt, List.getElem?_modify_eq, hr]
  exact descend_modifyDescendant h

theorem grows_modifyScope {f : NcdbScope → NcdbScope} (db : Ncdb) (p : NcdbScopePath)
    (h : ∀ s : NcdbScope, s.Grows (f s)) : db.Grows (db.modifyScope p f) :=
  NcdbScope.Grows.modify _ _ fun s _ => grows_modifyDescendant p.path s fun t _ => h t

theorem grows_createScope (db : Ncdb) (parent : Option NcdbScopePath) (d : NcdbScopeData) :
    db.Grows (db.createScope parent d) := by
  cases parent
  case none   => exact .append ..
  case some p =>
    refine db.grows_modifyScope p ?_
    rintro ⟨_, _, ss⟩
    exact ⟨rfl, List.prefix_rfl, .append ss _⟩

theorem SingleTyped.modifyScope {f : NcdbScope → NcdbScope} (h : db.SingleTyped)
    (hf : ∀ s, db.scopeAt p = some s → s.Everywhere NcdbScope.SingleTyped →
      (f s).Everywhere NcdbScope.SingleTyped) : (db.modifyScope p f).SingleTyped := by
  intro s hm
  cases mem_modify hm
  case inl hm => exact h s hm
  case inr hm =>
    have ⟨r, hr, he⟩ := hm
    rw [he]
    refine (h r (List.mem_of_getElem? hr)).modifyDescendant (fun _ _ _ _ h => h) fun t ht => ?_
    exact hf t (by rw [Ncdb.scopeAt, hr]; exact ht)

theorem everywhere_new (d : NcdbScopeData) :
    (NcdbScope.mk d [] []).Everywhere NcdbScope.SingleTyped :=
  everywhere_iff.mpr ⟨nofun, nofun⟩

theorem SingleTyped.createScope (h : db.SingleTyped) (parent : Option NcdbScopePath)
    (d : NcdbScopeData) : (db.createScope parent d).SingleTyped := by
  cases parent
  case none =>
    intro s hm
    cases List.mem_append.mp hm
    case inl hm => exact h s hm
    case inr hm => exact List.mem_singleton.mp hm ▸ everywhere_new d
  case some p =>
    refine h.modifyScope fun s _ hs => ?_
    have ⟨hs, hc⟩ := everywhere_iff.mp hs
    refine everywhere_iff.mpr ⟨hs, fun c hm => ?_⟩
    cases List.mem_append.mp hm
    case inl hm => exact hc c hm
    case inr hm => exact List.mem_singleton.mp hm ▸ everywhere_new d

-- Where reading back what was written gives a database, it is this one.
theorem reread_roots (h : db.reread = some db')
    (hc : ∀ out, db.scopeTreeSerialize [""] = some out → db.TrailerClear out.data) :
    db'.roots = restoredAll db.roots := by
  have ⟨out, ho, h⟩ := Option.bind_eq_some_iff.mp h
  have ⟨roots, hr, h⟩ := Option.bind_eq_some_iff.mp h
  cases h
  exact Option.some.inj (hr.symm.trans ((scopeTreeDeserialize_scopeTreeSerialize ho).1 (hc out ho)))

end Ncdb

namespace CoverSession

open NcdbScope

variable {x y : CoverSession}

-- A created cover is where it was created, as it was created, and is listed there.
def Listed (db : Ncdb) (e : CreatedCover) : Prop :=
  ∃ s, db.scopeAt e.path = some s ∧ (s.coverAt e.loc).map NcdbCover.key = some e.key ∧
    e.loc ∈ s.logicalCovers

theorem Listed.grows {db db' : Ncdb} {e : CreatedCover} (h : Listed db e) (hg : db.Grows db') :
    Listed db' e := by
  have ⟨s, hs, hk, hl⟩ := h
  have ⟨s', hs', hg⟩ := hg.scopeAt hs
  exact ⟨s', hs', hg.coverAt hk, hg.logicalCovers_sublist.subset hl⟩

-- The created covers are in different places.
structure Sound (x : CoverSession) : Prop where
  singleTyped : x.db.SingleTyped
  listed      : ∀ e ∈ x.created, Listed x.db e
  distinct    : (x.created.map fun e => (e.path, e.loc)).Nodup

theorem Sound.grow (h : x.Sound) {db : Ncdb} (hs : db.SingleTyped) (hg : x.db.Grows db) :
    Sound { x with db := db } where
  singleTyped := hs
  listed      := fun e hm => (h.listed e hm).grows hg
  distinct    := h.distinct

theorem Sound.createCover (h : x.Sound) {p : NcdbScopePath} {type : UInt64} {name : String}
    {count : UInt64} (ht : x.Allowed (.createCover p type name count)) :
    (x.step (.createCover p type name count)).Sound ∧
      x.db.Grows (x.step (.createCover p type name count)).db := by
  rw [CoverSession.step, Ncdb.createCover]
  cases hs : x.db.scopeAt p
  case none => exact ⟨h, .refl _⟩
  case some s =>
    simp only [Option.map_some]
    have hg : x.db.Grows (x.db.modifyScope p fun s => (s.createCover type name count).fst) :=
      x.db.grows_modifyScope p fun s => grows_createCover s type name count
    have ⟨hk, hl⟩ := createCover_loc s type name count
    have hold := createCover_loc_new s type name count
    refine ⟨⟨?_, fun e hm => ?_, ?_⟩, hg⟩
    · exact h.singleTyped.modifyScope fun t htp he => he.createCover (ht t htp) name count
    · cases List.mem_append.mp hm
      case inl hm => exact (h.listed e hm).grows hg
      case inr hm =>
        cases List.mem_singleton.mp hm
        exact ⟨_, Ncdb.scopeAt_modifyScope hs, hk, hl⟩
    · rw [List.map_append]
      refine List.nodup_append'.mpr ⟨h.distinct, List.nodup_singleton _, fun q hm hq => ?_⟩
      have ⟨e, he, heq⟩ := List.mem_map.mp hm
      rw [List.map_singleton, List.mem_singleton, ← heq] at hq
      have ⟨hp, hloc⟩ := Prod.mk.inj hq
      have ⟨s', hs', _, hl'⟩ := h.listed e he
      rw [hp, hs] at hs'
      cases hs'
      change e.loc = (s.createCover type name count).snd at hloc
      exact hold (hloc ▸ hl')

theorem Sound.step (h : x.Sound) {op : CoverOp} (ha : x.Allowed op) :
    (x.step op).Sound ∧ x.db.Grows (x.step op).db := by
  cases op
  case createScope parent d =>
    have hg := x.db.grows_createScope parent d
    exact ⟨h.grow (h.singleTyped.createScope parent d) hg, hg⟩
  case createCover p type name count => exact h.createCover ha
  case reread =>
    rw [CoverSession.step]
    cases hr : x.db.reread
    case none => exact ⟨h, .refl _⟩
    case some db =>
      have hroots := Ncdb.reread_roots hr ha.2
      have hg : x.db.Grows db := by
        rw [Ncdb.Grows, hroots]
        exact growsAll_restoredAll _ h.singleTyped ha.1
      have hs : db.SingleTyped := fun s hm => singleTyped_restoredAll _ s (hroots ▸ hm)
      exact ⟨h.grow hs hg, hg⟩

theorem Sound.run (h : x.Sound) (hr : AllowedRun x y) : y.Sound := by
  induction hr
  case refl => exact h
  case step op _ ha hi => exact (hi.step ha).1

theorem Sound.viewedCovers_sublist (h : x.Sound) (hr : AllowedRun x y) {p : NcdbScopePath}
    {s : NcdbScope} (hs : x.db.scopeAt p = some s) :
    ∃ s', y.db.scopeAt p = some s' ∧ s.viewedCovers.Sublist s'.viewedCovers := by
  induction hr
  case refl => exact ⟨s, hs, .refl _⟩
  case step op hr ha hi =>
    have ⟨s₁, hs₁, hsub⟩ := hi
    have ⟨s₂, hs₂, hg⟩ := ((h.run hr).step ha).2.scopeAt hs₁
    refine ⟨s₂, hs₂, hsub.trans ?_⟩
    rw [viewedCovers_eq, viewedCovers_eq]
    exact hg.logicalCovers_sublist

theorem Sound.init {db : Ncdb} (h : ∀ s ∈ db.roots, s.Everywhere fun t => t.covers = []) :
    Sound ⟨db, []⟩ where
  singleTyped := fun s hm path t ht c hc => by
    rw [h s hm path t ht] at hc
    cases hc
  listed      := nofun
  distinct    := .nil

-- In every run that the condition allows, from a database without covers, the covers of each scope
-- have one type, each created cover is where it was created, in a place of its own, and is viewed
-- there exactly once, and the covers that are viewed stay in order.
theorem logical_view {db₀ : Ncdb} (h₀ : ∀ s ∈ db₀.roots, s.Everywhere fun t => t.covers = [])
    (hx : AllowedRun ⟨db₀, []⟩ x) (hy : AllowedRun x y) :
    y.db.SingleTyped ∧
    (∀ e ∈ y.created, ∃ s, y.db.scopeAt e.path = some s ∧
      (s.coverAt e.loc).map NcdbCover.key = some e.key ∧
      ∃! idx, idx < s.logicalCoverCount ∧ s.logicalCoverAt idx = some e.loc) ∧
    (y.created.map fun e => (e.path, e.loc)).Nodup ∧
    (∀ p s, x.db.scopeAt p = some s →
      ∃ s', y.db.scopeAt p = some s' ∧ s.viewedCovers.Sublist s'.viewedCovers) := by
  have hsx := (Sound.init h₀).run hx
  have hsy := hsx.run hy
  refine ⟨hsy.singleTyped, fun e hm => ?_, hsy.distinct, fun p s hs => hsx.viewedCovers_sublist hy hs⟩
  have ⟨s, hs, hk, hl⟩ := hsy.listed e hm
  exact ⟨s, hs, hk, existsUnique_logicalCoverAt hl⟩

def run (ops : List CoverOp) : CoverSession :=
  ops.foldl step ⟨{}, []⟩

-- A statement next to a branch.
def mixed : List CoverOp := [
  .createScope none { type := 0x40, name := "b" },
  .createCover ⟨0, []⟩ 0x20 "s" 1,
  .createCover ⟨0, []⟩ 0x40 "b1" 2
]

theorem logical_view_mixed :
    (run mixed).db.SingleTyped ∧
    (∀ e ∈ (run mixed).created, ∃ s, (run mixed).db.scopeAt e.path = some s ∧
      (s.coverAt e.loc).map NcdbCover.key = some e.key ∧
      ∃! idx, idx < s.logicalCoverCount ∧ s.logicalCoverAt idx = some e.loc) ∧
    ((run mixed).created.map fun e => (e.path, e.loc)).Nodup ∧
    (∀ p s, (run mixed).db.scopeAt p = some s →
      ∃ s', (run mixed).db.scopeAt p = some s' ∧ s.viewedCovers.Sublist s'.viewedCovers) := by
  have hn : ¬(NcdbScope.mk { type := 0x40, name := "b" } [.create 0x20 "s" 1] []).isR7Synthetic := by
    decide
  have h₁ : AllowedRun ⟨{}, []⟩ (run (mixed.take 1)) :=
    .step (.createScope none { type := 0x40, name := "b" }) (.refl _) trivial
  have h₂ : AllowedRun ⟨{}, []⟩ (run (mixed.take 2)) :=
    .step (.createCover ⟨0, []⟩ 0x20 "s" 1) h₁ (by rintro _ ⟨⟩ _ _ ⟨⟩)
  have h₃ : AllowedRun ⟨{}, []⟩ (run mixed) :=
    .step (.createCover ⟨0, []⟩ 0x40 "b1" 2) h₂ (by rintro _ ⟨⟩ h; exact absurd h hn)
  exact @logical_view _ _ {} (by rintro _ ⟨⟩) h₃ (.refl _)

-- A branch whose toggle bins go into a synthetic child. The child is written as a toggle pair.
def hiddenTogglePair : List CoverOp := [
  .createScope none { type := ncdbScopeBranch, name := "b" },
  .createCover ⟨0, []⟩ 0x40 "b1" 1,
  .createCover ⟨0, []⟩ ncdbCoverToggleBin ncdbToggleBin0To1 2,
  .createCover ⟨0, []⟩ ncdbCoverToggleBin ncdbToggleBin1To0 3,
  .reread
]

-- The child loses its flags, so that its covers are not viewed any more.
theorem hiddenTogglePair_not_viewed :
    ¬∀ ops, ∀ e ∈ (run ops).created, ∃ s, (run ops).db.scopeAt e.path = some s ∧
      ∃! idx, idx < s.logicalCoverCount ∧ s.logicalCoverAt idx = some e.loc := by
  intro h
  have hcreated : (run hiddenTogglePair).created.map (fun e => (e.path, e.loc))
      = [(⟨0, []⟩, ⟨none, 0⟩), (⟨0, []⟩, ⟨some 0, 0⟩), (⟨0, []⟩, ⟨some 0, 1⟩)] := by
    decide +kernel
  have hviewed : ((run hiddenTogglePair).db.scopeAt ⟨0, []⟩).map (·.viewedCovers)
      = some [⟨none, 0⟩] := by
    decide +kernel
  have hm : (⟨0, []⟩, ⟨some 0, 0⟩)
      ∈ (run hiddenTogglePair).created.map fun e => (e.path, e.loc) := by
    rw [hcreated]
    exact .tail _ (.head _)
  have ⟨e, he, hloc⟩ := List.mem_map.mp hm
  have ⟨hp, hl⟩ := Prod.mk.inj hloc
  have ⟨s, hs, idx, ⟨hlt, hidx⟩, _⟩ := h hiddenTogglePair e he
  have hm : e.loc ∈ s.viewedCovers := List.mem_filterMap.mpr ⟨idx, List.mem_range.mpr hlt, hidx⟩
  rw [hp] at hs
  rw [hs, Option.map_some, Option.some.injEq] at hviewed
  rw [hl, hviewed] at hm
  exact absurd hm (by decide)

end CoverSession
