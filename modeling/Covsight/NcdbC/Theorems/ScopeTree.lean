import Covsight.NcdbC.Theorems.ScopeTreeRoundTrip

-- Which databases of the C library keep their scopes and covers when the scope tree stream is
-- written and read back.

-- The fields that go with the tree. Attributes and associations have members of their own.

def NcdbCover.listed (c : NcdbCover) : NcdbCover :=
  { c with comment := none, attrs := [], props := [], assoc := [] }

def NcdbScopeData.listed (d : NcdbScopeData) : NcdbScopeData :=
  { d with duSignature := none, exprTerms := none, duFiles := [], attrs := [], props := [] }

namespace NcdbScope

mutual

def listed : NcdbScope → NcdbScope
  | mk d cs ss => mk d.listed (cs.map NcdbCover.listed) (listedAll ss)

def listedAll : List NcdbScope → List NcdbScope
  | []      => []
  | s :: ss => s.listed :: listedAll ss

end

end NcdbScope

-- A cover with nothing but its type, its name and its count.
def NcdbCover.IsPlain (c : NcdbCover) : Prop :=
  c.flags = coverDefaultFlags c.type ∧ c.atLeast = coverDefaultAtLeast c.type ∧ c.source = none ∧
  c.weight = 0 ∧ c.goal = -1

def NcdbScopeData.IsPlain (d : NcdbScopeData) : Prop :=
  d.flags = 0 ∧ d.sourceType = ncdbSourceNone ∧ d.weight = 1 ∧ d.goal = -1 ∧ d.source = none ∧
  d.duScope = none

-- The stream has no place for the flags of a cover, nor for anything but the counts of a toggle pair,
-- which it stores in one order. The at_least of the first cover goes for all covers that have the
-- default.
def NcdbScope.Kept (s : NcdbScope) : Prop :=
  if s.isTogglePair then
    s.data.IsPlain ∧ (∀ c ∈ s.covers, c.IsPlain) ∧
    s.covers.head?.map (·.name) = some ncdbToggleBin0To1
  else
    (∀ c ∈ s.covers, some c.type = s.covers.head?.map (·.type) ∧
      c.flags = coverDefaultFlags c.type) ∧
    (atLeastOverride s.covers = none ∨ ∀ c ∈ s.covers, c.atLeast ≠ coverDefaultAtLeast c.type)

theorem NcdbScopeData.listed_restored (d : NcdbScopeData) : d.restored.listed = d.listed :=
  rfl

theorem NcdbCover.listed_restored_iff {type atLeast : UInt64} {c : NcdbCover} :
    (c.restored type atLeast).listed = c.listed ↔ c.type = type ∧
      c.flags = coverDefaultFlags type ∧
      (c.atLeast = coverDefaultAtLeast c.type → c.atLeast = atLeast) := by
  simp only [listed, restored, NcdbCover.mk.injEq, true_and, and_true]
  constructor
  · rintro ⟨ht, hf, ha⟩
    refine ⟨ht.symm, hf.symm, fun hd => ?_⟩
    rw [if_pos hd] at ha
    exact ha.symm
  · rintro ⟨ht, hf, ha⟩
    refine ⟨ht.symm, hf.symm, ?_⟩
    split
    case isTrue hd => exact (ha hd).symm
    case isFalse   => rfl

theorem listed_restoredCovers_iff (cs : List NcdbCover) :
    (restoredCovers cs).map NcdbCover.listed = cs.map NcdbCover.listed ↔
      (∀ c ∈ cs, some c.type = cs.head?.map (·.type) ∧ c.flags = coverDefaultFlags c.type) ∧
      (atLeastOverride cs = none ∨ ∀ c ∈ cs, c.atLeast ≠ coverDefaultAtLeast c.type) := by
  cases cs
  case nil => simp [restoredCovers]
  case cons first cs =>
    obtain ⟨atl, hatl⟩ : ∃ atl, atl = (atLeastOverride (first :: cs)).getD
      (coverDefaultAtLeast first.type) := ⟨_, rfl⟩
    have hcovers : (restoredCovers (first :: cs)).map NcdbCover.listed
        = (first :: cs).map fun c => (c.restored first.type atl).listed := by
      rw [restoredCovers, List.map_map, hatl]
      rfl
    rw [hcovers, List.map_inj_left]
    simp only [NcdbCover.listed_restored_iff, List.head?_cons, Option.map_some, Option.some.injEq]
    -- The override is the at_least of the first cover.
    have hover : atLeastOverride (first :: cs) = none ∧ atl = coverDefaultAtLeast first.type ∨
        atLeastOverride (first :: cs) ≠ none ∧ atl ≠ coverDefaultAtLeast first.type := by
      rw [hatl, atLeastOverride, List.head?_cons, Option.bind_some, NcdbWriter.unlessDefault]
      split
      case isTrue    => exact .inl ⟨rfl, rfl⟩
      case isFalse h => exact .inr ⟨Option.some_ne_none _, h⟩
    constructor
    · intro h
      have ht : ∀ c ∈ first :: cs, c.type = first.type := fun c hm => (h c hm).1
      refine ⟨fun c hm => ⟨ht c hm, ?_⟩, ?_⟩
      · rw [ht c hm]
        exact (h c hm).2.1
      · refine hover.imp And.left fun ha c hm hd => ha.right ?_
        rw [← (h c hm).2.2 hd, hd, ht c hm]
    · rintro ⟨h, ha⟩ c hm
      obtain ⟨ht, hf⟩ := h c hm
      refine ⟨ht, ht ▸ hf, fun hd => ?_⟩
      cases hover
      case inl hover => rw [hd, ht, hover.2]
      case inr hover =>
        cases ha
        case inl ha => exact absurd ha hover.1
        case inr ha => exact absurd hd (ha c hm)

namespace NcdbScope

-- The covers of a toggle pair, in one order or the other.
theorem covers_of_isTogglePair {s : NcdbScope} (h : s.isTogglePair) :
    s.data.type = ncdbScopeBranch ∧ s.children = [] ∧ ∃ c₁ c₂, s.covers = [c₁, c₂] ∧
    c₁.type = ncdbCoverToggleBin ∧ c₂.type = ncdbCoverToggleBin ∧
    (c₁.name = ncdbToggleBin0To1 ∧ c₂.name = ncdbToggleBin1To0 ∨
      c₁.name = ncdbToggleBin1To0 ∧ c₂.name = ncdbToggleBin0To1) := by
  simp only [isTogglePair, Bool.and_eq_true, List.isEmpty_iff, decide_eq_true_eq,
    List.length_eq_two] at h
  obtain ⟨⟨⟨⟨⟨ht, hs⟩, c₁, c₂, hc⟩, hall⟩, h01⟩, h10⟩ := h
  rw [hc] at hall h01 h10
  simp at hall h01 h10
  refine ⟨ht, hs, c₁, c₂, hc, hall.1, hall.2, ?_⟩
  have hne : ncdbToggleBin0To1 ≠ ncdbToggleBin1To0 := by decide
  grind

-- A cover of a toggle pair is created with nothing but its name and its count.
theorem listed_create_iff {c : NcdbCover} {type : UInt64} {name : String} {count : UInt64}
    (ht : c.type = type) : (NcdbCover.create type name count).listed = c.listed ↔
      c.name = name ∧ c.count = count ∧ c.IsPlain := by
  simp only [NcdbCover.create, NcdbCover.listed, NcdbCover.IsPlain, NcdbCover.mk.injEq, ht]
  grind

theorem listed_restored_togglePair {s : NcdbScope} (h : s.isTogglePair) :
    s.restored.listed = s.listed ↔ s.Kept := by
  have ⟨d, cs, ss⟩ := s
  have ⟨ht, hs, c₁, c₂, hc, ht₁, ht₂, hn⟩ := covers_of_isTogglePair h
  have hne : ncdbToggleBin0To1 ≠ ncdbToggleBin1To0 := by decide
  change d.type = ncdbScopeBranch at ht
  change ss = [] at hs
  change cs = [c₁, c₂] at hc
  have hd : ({ type := ncdbScopeBranch, name := d.name } : NcdbScopeData).listed = d.listed ↔
      d.IsPlain := by
    simp only [NcdbScopeData.listed, NcdbScopeData.IsPlain, NcdbScopeData.mk.injEq, ht]
    grind
  rw [restored, if_pos h, Kept, if_pos h]
  simp only [NcdbTables.readTogglePair, listed, listedAll, mk.injEq, hd, hs, hc, data, covers,
    List.map_cons, List.map_nil, List.cons.injEq, and_true, listed_create_iff ht₁,
    listed_create_iff ht₂, List.head?_cons, Option.map_some, Option.some.injEq,
    List.forall_mem_cons, coverCountNamed]
  cases hn
  case inl hn => simp [hn.1, hn.2, hne]
  case inr hn => simp [hn.1, hn.2, hne, hne.symm]

mutual

-- A tree is kept if and only if each of its scopes is.
theorem listed_restored_iff : (s : NcdbScope) → (s.restored.listed = s.listed ↔ ∀ t ∈ s.dfs, t.Kept)
  | mk d cs ss => by
    by_cases h : (mk d cs ss).isTogglePair
    · rw [listed_restored_togglePair h, dfs_of_isTogglePair h, List.forall_mem_singleton]
    · have hss := listedAll_restoredAll_iff ss
      have hk : (mk d cs ss).Kept ↔
          (restoredCovers cs).map NcdbCover.listed = cs.map NcdbCover.listed := by
        rw [Kept, if_neg h]
        exact (listed_restoredCovers_iff cs).symm
      rw [restored, if_neg h, dfs, List.forall_mem_cons, hk, ← hss, listed, listed, mk.injEq]
      exact and_iff_right d.listed_restored

theorem listedAll_restoredAll_iff : (ss : List NcdbScope) →
    (listedAll (restoredAll ss) = listedAll ss ↔ ∀ t ∈ dfsAll ss, t.Kept)
  | []      => by simp [restoredAll, dfsAll]
  | s :: ss => by
    rw [restoredAll, listedAll, listedAll, dfsAll, List.forall_mem_append, List.cons.injEq,
      listed_restored_iff s, listedAll_restoredAll_iff ss]

end

@[simp]
theorem length_listedAll (ss : List NcdbScope) : (listedAll ss).length = ss.length := by
  induction ss
  case nil          => rfl
  case cons s ss hi => exact congrArg Nat.succ hi

end NcdbScope

namespace Ncdb

variable {db : Ncdb} {strings : List String} {out : NcdbScopeTree}

-- Scopes and covers survive the round trip if and only if every scope is kept and the end of the
-- stream is not mistaken for a trailer.
theorem scopeTree_round_trip (h : db.scopeTreeSerialize strings = some out) :
    (∃ roots, scopeTreeDeserialize out.toNcdbTables out.data out.counts = some roots ∧
      NcdbScope.listedAll roots = NcdbScope.listedAll db.roots) ↔
    (∀ s ∈ db.dfsFlatten, s.Kept) ∧ db.TrailerClear out.data := by
  obtain ⟨hclear, hcut⟩ := scopeTreeDeserialize_scopeTreeSerialize h
  rw [dfsFlatten, ← NcdbScope.listedAll_restoredAll_iff]
  constructor
  · rintro ⟨roots, hr, he⟩
    have hc : db.TrailerClear out.data := by
      by_contra hn
      have hl := congrArg List.length he
      rw [NcdbScope.length_listedAll, NcdbScope.length_listedAll] at hl
      exact absurd hl (Nat.ne_of_lt (hcut hn roots hr))
    rw [hclear hc] at hr
    cases hr
    exact ⟨he, hc⟩
  · rintro ⟨he, hc⟩
    exact ⟨_, hclear hc, he⟩

-- A block with two statements.
def twoStatements (atLeast : UInt64) : Ncdb where
  roots := [.mk { type := 0x40, name := "b" }
    [{ NcdbCover.create 0x20 "s1" 3 with atLeast := atLeast }, .create 0x20 "s2" 0] []]

def twoStatementsTree (atLeast : UInt64) : Option NcdbScopeTree :=
  (twoStatements atLeast).scopeTreeSerialize [""]

def plainTree : NcdbScopeTree :=
  (twoStatementsTree 0).get rfl

theorem scopeTree_round_trip_plainTree :
    (∃ roots, scopeTreeDeserialize plainTree.toNcdbTables plainTree.data plainTree.counts = some roots ∧
      NcdbScope.listedAll roots = NcdbScope.listedAll (twoStatements 0).roots) ↔
    (∀ s ∈ (twoStatements 0).dfsFlatten, s.Kept) ∧ (twoStatements 0).TrailerClear plainTree.data :=
  @scopeTree_round_trip (twoStatements 0) [""] plainTree (Option.some_get _).symm

-- Setting the at_least of the first statement sets that of the second.
def raisedTree : NcdbScopeTree :=
  (twoStatementsTree 5).get rfl

theorem scopeTree_changes : (twoStatements 5).scopeTreeSerialize [""] = some raisedTree ∧
    ¬∃ roots, scopeTreeDeserialize raisedTree.toNcdbTables raisedTree.data raisedTree.counts
        = some roots ∧
      NcdbScope.listedAll roots = NcdbScope.listedAll (twoStatements 5).roots := by
  refine ⟨(Option.some_get _).symm, fun ⟨roots, hr, he⟩ => ?_⟩
  have hread : (scopeTreeDeserialize raisedTree.toNcdbTables raisedTree.data raisedTree.counts).map
      (fun roots => (NcdbScope.listedAll roots).map fun s => s.covers.map (·.atLeast))
        = some [[5, 5]] := rfl
  rw [hr, Option.map_some, he] at hread
  exact absurd hread (by decide)

end Ncdb
