import Covsight.Ncdb.NcdbMerger
import Covsight.Ncdb.Theorems.MemberMerge
import Covsight.Ncdb.Theorems.NcdbReader

-- Archives with one shape of design and one string table.
structure Archive.SameSchema (a a' : Archive) : Prop where
  scopeTree : a.scopeTree = a'.scopeTree
  strings   : a.strings = a'.strings

namespace NcdbMerger

open NcdbReader

variable {accel : Bool} {node : HistoryNode} {first out : Archive} {rest : List Archive}

-- What a successful merge of one schema gives.
structure Merged (accel : Bool) (node : HistoryNode) (first : Archive) (rest : List Archive)
    (out : Archive) where
  counts        : Counts
  v2            : V2Members
  combined      : combineCounts accel (first :: rest) = .ok counts
  merged_v2     : mergedV2Members accel (first :: rest) = .ok v2
  out_runs      : out.toRunMembers
    = { counts := some counts, mergeOps := first.mergeOps, squashLog := v2.squashLog }
  out_v2        : out.v2Members = v2
  manifest      : out.manifest
    = mergedManifest first.manifest (first :: rest) counts (mergedHistory node (first :: rest))
  schema        : out.SameSchema first
  shape         : out.sources = first.sources ∧ out.crosses = first.crosses ∧
    out.itemSources = first.itemSources ∧ out.types = first.types
  history       : out.history = mergedHistory node (first :: rest)
  attrs         : out.attrs = mergeAnnotational mergeAttrs ((first :: rest).filterMap (·.attrs))
  tags          : out.tags = mergeAnnotational mergeTags ((first :: rest).filterMap (·.tags))
  formal        : out.formal = mergeAnnotational mergeFormal ((first :: rest).filterMap (·.formal))
  flags         : out.flags
    = mergeAnnotational mergeCoveritemFlags ((first :: rest).filterMap (·.flags))
  contrib       : out.contrib
    = renumberContrib (((first :: rest).map (·.contrib)).zip (historyOffsets (first :: rest)))
  testplan      : out.testplan = mergeTestplans (first :: rest)
  waivers       : out.waivers = mergeWaivers (first :: rest)
  issues        : out.issues = first.issues ∧ out.issuesMeta = first.issuesMeta ∧
    out.issuesHistory = first.issuesHistory

theorem mergeSameSchema_ok (h : mergeSameSchema accel node first rest = .ok out) :
    Nonempty (Merged accel node first rest out) := by
  rw [mergeSameSchema] at h
  have ⟨counts, hc, h⟩ := bind_ok h
  have ⟨v2, hv, h⟩ := bind_ok h
  cases h
  exact ⟨{
    counts, v2
    combined  := hc
    merged_v2 := hv
    out_runs  := rfl
    out_v2    := rfl
    manifest  := rfl
    schema    := ⟨rfl, rfl⟩
    shape     := ⟨rfl, rfl, rfl, rfl⟩
    history   := rfl
    attrs     := rfl
    tags      := rfl
    formal    := rfl
    flags     := rfl
    contrib   := rfl
    testplan  := rfl
    waivers   := rfl
    issues    := ⟨rfl, rfl, rfl⟩
  }⟩

-- The flags of an item, and those of its type.

def flagsAt (n : Nat) (db : LoadedUCIS) : Nat :=
  ((db.coverItems[n]?).map (·.data.flags)).getD 0

def defaultFlagsAt (n : Nat) (db : LoadedUCIS) : Nat :=
  ((db.coverItems[n]?).map fun ci => defaultFlags ci.data.type).getD 0

theorem flagsAt_eq {a : Archive} {runs : Option (List String)} {db : LoadedUCIS} (rd : Read a runs db)
    {n : Nat} (hn : n < db.coverItems.length) :
    flagsAt n db = ((a.flags.getD ∅).get? n).getD (defaultFlagsAt n db) := by
  have hg := List.getElem?_eq_getElem hn
  have hc : (db.coverItems.map (·.data))[n]? = some db.coverItems[n].data := by
    rw [List.getElem?_map, hg]
    rfl
  have hf := rd.flags_eq hc
  rw [flagsAt, defaultFlagsAt, hg]
  exact hf

theorem readData_type {a a' : Archive} (ht : a'.types = a.types) (φ : Nat → Nat) (n : Nat)
    (x : Bool × String × CoverData) :
    (readData a' n (Read.recountData φ x)).snd.snd.type = (readData a n x).snd.snd.type := by
  simp only [readData, Read.recountData, ht]
  cases x.fst
  case true  => rfl
  case false =>
    simp only [Bool.false_eq_true, if_false, CoveritemTypes.retype]
    split <;> rfl

-- The types of the items are those of the tree and of the types member.
theorem defaultFlagsAt_eq {a a' : Archive} {runs runs' : Option (List String)}
    {db db' : LoadedUCIS} (rd : Read a runs db) (rd' : Read a' runs' db') (hs : a'.SameSchema a)
    (ht : a'.types = a.types) (n : Nat) : defaultFlagsAt n db' = defaultFlagsAt n db := by
  have hi : ∀ {a' : Archive} {runs : Option (List String)} {db : LoadedUCIS} (rd : Read a' runs db),
      a'.types = a.types → defaultFlagsAt n db
        = ((rd.raw.itemData.map (Read.recountData fun _ => 0))[n]?.map
          fun x => defaultFlags (readData a n x).snd.snd.type).getD 0 := by
    intro a' runs db rd ht
    have hd := congrArg (·[n]?.map fun cd : CoverData => defaultFlags cd.type)
      (MemUCIS.coverItems_data db.toMemUCIS)
    simp only [rd.itemData_eq, List.getElem?_map, List.getElem?_mapIdx, Option.map_map] at hd
    rw [defaultFlagsAt, List.getElem?_map, Option.map_map]
    refine congrArg (Option.getD · 0) (hd.trans ?_)
    refine congrArg (Option.map · _) <| funext fun x => congrArg defaultFlags ?_
    exact (readData_type ht.symm (fun _ => 0) n x).symm
  have hc := Read.itemData_recount rd rd' (φ := fun _ => 0) (ψ := fun _ => 0) hs.scopeTree
    hs.strings (by simp [ScopeTreeReader.takeCounts, Function.comp_def])
  rw [hi rd rfl, hi rd' ht, hc]

section Flags

variable {sources : List Archive} {n : Nat}

theorem listedFlags_eq (sources : List Archive) (n : Nat) :
    listedFlags (sources.filterMap (·.flags)) n
      = sources.filterMap fun a => (a.flags.getD ∅).get? n := by
  rw [listedFlags, List.filterMap_filterMap]
  refine congrArg (List.filterMap · sources) <| funext fun a => ?_
  cases a.flags <;> rfl

-- The flags the sources list for an item, joined; the default of the first source where none does.
def storedFlags (dbs : Archive → LoadedUCIS) (sources : List Archive) (n : Nat) : Nat :=
  match sources.filterMap fun a => (a.flags.getD ∅).get? n with
  | []    => ((sources.head?).map (defaultFlagsAt n <| dbs ·)).getD 0
  | flags => joinFlags flags

-- Splitting the join of all flags into what the sources list and the defaults of the others.
theorem joinFlags_effective (f : Archive → Option Nat) (d : Archive → Nat)
    (sources : List Archive) :
    joinFlags (sources.map fun a => (f a).getD (d a))
      = joinFlags ((sources.filter fun a => (f a).isNone).map d) ||| joinFlags (sources.filterMap f) := by
  induction sources
  case nil => simp
  case cons a sources hi =>
    rw [List.map_cons, joinFlags.cons, hi]
    cases hf : f a
    case none   => simp [hf, Nat.or_assoc]
    case some g =>
      rw [List.filterMap_cons, List.filter_cons_of_neg (by simp [hf]), hf]
      simp only [Option.getD_some, joinFlags.cons]
      rw [← Nat.or_assoc, ← Nat.or_assoc, Nat.or_comm g]

theorem flags_iff (f : Archive → Option Nat) (d : Archive → Nat) (first : Archive)
    (rest : List Archive) :
    (if (first :: rest).filterMap f = [] then d first else joinFlags ((first :: rest).filterMap f))
        = joinFlags ((first :: rest).map fun a => (f a).getD (d a)) ↔
      ∀ a ∈ first :: rest, f a = none → d a |||
        (if (first :: rest).filterMap f = [] then d first
          else joinFlags ((first :: rest).filterMap f))
        = if (first :: rest).filterMap f = [] then d first
          else joinFlags ((first :: rest).filterMap f) := by
  have ha : ∀ x, joinFlags (((first :: rest).filter fun a => (f a).isNone).map d) ||| x = x ↔
      ∀ a ∈ first :: rest, f a = none → d a ||| x = x := by
    intro x
    rw [joinFlags.absorbed_iff]
    simp only [List.forall_mem_map, List.mem_filter, Option.isNone_iff_eq_none, and_imp]
  rw [joinFlags_effective, ← ha]
  split
  case isFalse => exact eq_comm
  case isTrue hn =>
    have hf : f first = none := List.filterMap_eq_nil_iff.mp hn first (.head _)
    have hd : d first ||| joinFlags (((first :: rest).filter fun a => (f a).isNone).map d)
        = joinFlags (((first :: rest).filter fun a => (f a).isNone).map d) := by
      rw [List.filter_cons_of_pos (by simp [hf]), List.map_cons, joinFlags.cons, ← Nat.or_assoc,
        Nat.or_self]
    rw [hn, joinFlags.nil, Nat.or_zero, Nat.or_comm _ (d first), hd]
    exact eq_comm

-- The merged flags of an item are the join of its flags in all sources exactly when the flags that
-- the sources list for it cover the default flags it has in the sources that list none.
theorem mergeSameSchema_flags_iff {db : LoadedUCIS} (dbs : Archive → LoadedUCIS)
    (hs : ∀ a ∈ rest, a.SameSchema first)
    (hm : mergeSameSchema accel node first rest = .ok out)
    (hr : ∀ a ∈ first :: rest, read a = .ok (dbs a)) (ho : read out = .ok db) (n : Nat) :
    flagsAt n db = joinFlags ((first :: rest).map fun a => flagsAt n (dbs a)) ↔
    ∀ a ∈ first :: rest, n ∉ a.flags.getD ∅ →
      defaultFlagsAt n (dbs a) ||| storedFlags dbs (first :: rest) n
        = storedFlags dbs (first :: rest) n := by
  have ⟨m⟩ := mergeSameSchema_ok hm
  have ⟨rd⟩ := read_ok ho
  have ⟨rd₁⟩ := read_ok (hr first (.head _))
  have hl : ∀ a ∈ first :: rest, (dbs a).coverItems.length = db.coverItems.length := by
    intro a ha
    have ⟨rda⟩ := read_ok (hr a ha)
    rw [rda.coverItems_length, rd.coverItems_length, m.schema.scopeTree]
    cases ha
    case head    => rfl
    case tail ha => rw [(hs a ha).scopeTree]
  by_cases hn : n < db.coverItems.length
  case neg =>
    have hz : ∀ a ∈ first :: rest, flagsAt n (dbs a) = 0 ∧ defaultFlagsAt n (dbs a) = 0 := by
      intro a ha
      simp [flagsAt, defaultFlagsAt, List.getElem?_eq_none (hl a ha ▸ Nat.le_of_not_lt hn)]
    have hd : flagsAt n db = 0 := by
      simp [flagsAt, List.getElem?_eq_none (Nat.le_of_not_lt hn)]
    rw [hd, List.map_congr_left fun a ha => (hz a ha).left]
    refine iff_of_true ?_ fun a ha _ => ?_
    · exact (joinFlags.idem (by simp) (by simp)).symm
    · rw [(hz a ha).right, Nat.zero_or]
  case pos =>
    have hf := flagsAt_eq rd hn
    rw [m.flags, get?_mergeAnnotational_flags, listedFlags_eq,
      defaultFlagsAt_eq rd₁ rd m.schema m.shape.2.2.2] at hf
    have he : ∀ a ∈ first :: rest, flagsAt n (dbs a)
        = ((a.flags.getD ∅).get? n).getD (defaultFlagsAt n (dbs a)) := by
      intro a ha
      have ⟨rda⟩ := read_ok (hr a ha)
      exact flagsAt_eq rda (hl a ha ▸ hn)
    have hst : storedFlags dbs (first :: rest) n
        = if ((first :: rest).filterMap fun a => (a.flags.getD ∅).get? n) = [] then
            defaultFlagsAt n (dbs first)
          else joinFlags ((first :: rest).filterMap fun a => (a.flags.getD ∅).get? n) := by
      rw [storedFlags]
      split
      case h_1 h => rw [if_pos h]; rfl
      case h_2 h => rw [if_neg h]
    have hfl : flagsAt n db = storedFlags dbs (first :: rest) n := by
      rw [hf, hst]
      split <;> rfl
    rw [hfl, List.map_congr_left he, hst]
    simp only [← Dict.get?_eq_none_iff]
    exact flags_iff (fun a => (a.flags.getD ∅).get? n) (fun a => defaultFlagsAt n (dbs a)) first rest

-- An excluded item keeps its default flags in the second source only.
def excludedItem : Archive where
  counts    := some [1]
  manifest  := { pathSeparator := "/" }
  strings   := ["block", "stmt"]
  scopeTree := [.regular { type := .block, nameRef := 0, coverType := some .stmtBin } [1] []]
  flags     := some (Dict.empty.set 0 0x20)

def coveredItem : Archive :=
  { excludedItem with flags := none }

-- Merging it with itself keeps its flags.
theorem mergeSameSchema_flags_same : ∃ out db db₁,
    mergeSameSchema false (mergeNode "out.cdb" ["a.cdb", "a.cdb"] 0) excludedItem [excludedItem]
      = .ok out ∧
    read out = .ok db ∧ read excludedItem = .ok db₁ ∧
    flagsAt 0 db = joinFlags [flagsAt 0 db₁, flagsAt 0 db₁] := by
  have ⟨db₁, h₁⟩ : ∃ db₁, read excludedItem = .ok db₁ := ⟨_, rfl⟩
  have ⟨out, hm⟩ : ∃ out, mergeSameSchema false (mergeNode "out.cdb" ["a.cdb", "a.cdb"] 0)
      excludedItem [excludedItem] = .ok out := ⟨_, rfl⟩
  have ⟨db, ho⟩ : ∃ db, read out = .ok db := by cases hm; exact ⟨_, rfl⟩
  have he : ∀ a ∈ [excludedItem, excludedItem], a = excludedItem := by simp
  refine ⟨out, db, db₁, hm, ho, h₁, ?_⟩
  apply (mergeSameSchema_flags_iff (fun _ => db₁) ?_ hm ?_ ho 0).mpr
  · exact fun a ha hn => absurd (he a ha ▸ by decide) hn
  · exact fun a ha => List.mem_singleton.mp ha ▸ ⟨rfl, rfl⟩
  · exact fun a ha => he a ha ▸ h₁

theorem mergeSameSchema_flags_lost : ∃ out db db₁ db₂,
    mergeSameSchema false (mergeNode "out.cdb" ["a.cdb", "b.cdb"] 0) excludedItem [coveredItem]
      = .ok out ∧
    read out = .ok db ∧ read excludedItem = .ok db₁ ∧ read coveredItem = .ok db₂ ∧
    flagsAt 0 db = 0x20 ∧ flagsAt 0 db₁ ||| flagsAt 0 db₂ = 0x21 :=
  ⟨_, _, _, _, rfl, rfl, rfl, rfl, rfl, rfl⟩

end Flags

end NcdbMerger
