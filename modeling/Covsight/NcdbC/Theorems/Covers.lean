import Covsight.NcdbC.Covers
import Covsight.NcdbC.Theorems.ScopeTree

-- What holds of the covers of a database that is built by creating scopes and covers.

def NcdbCover.key (c : NcdbCover) : UInt64 × String × UInt64 :=
  (c.type, c.name, c.count)

@[simp]
theorem NcdbCover.key_create (type : UInt64) (name : String) (count : UInt64) :
    (NcdbCover.create type name count).key = (type, name, count) :=
  rfl

namespace NcdbScope

@[simp]
theorem covers_mk (d : NcdbScopeData) (cs : List NcdbCover) (ss : List NcdbScope) :
    (mk d cs ss).covers = cs :=
  rfl

@[simp]
theorem children_mk (d : NcdbScopeData) (cs : List NcdbCover) (ss : List NcdbScope) :
    (mk d cs ss).children = ss :=
  rfl

-- The list that the logical view enumerates.

def locsIn : (start : Nat) → List NcdbScope → List CoverLoc
  | _,     []      => []
  | start, c :: cs =>
    (if c.isR7Synthetic then (List.range c.covers.length).map fun idx => ⟨some start, idx⟩ else []) ++
      locsIn (start + 1) cs

def logicalCovers (s : NcdbScope) : List CoverLoc :=
  ((List.range s.covers.length).map fun idx => ⟨none, idx⟩) ++ locsIn 0 s.children

theorem length_locsIn (start : Nat) (ss : List NcdbScope) :
    (locsIn start ss).length
      = ((ss.filter (·.isR7Synthetic)).map (·.covers.length)).sum := by
  induction ss generalizing start
  case nil => rfl
  case cons s ss hi =>
    rw [locsIn, List.length_append, hi]
    cases hs : s.isR7Synthetic
    case false => simp [hs]
    case true  => simp [hs]

theorem length_logicalCovers (s : NcdbScope) : s.logicalCovers.length = s.logicalCoverCount := by
  rw [logicalCovers, List.length_append, length_locsIn, List.length_map, List.length_range,
    logicalCoverCount]

theorem getElem?_range_map {α : Type*} (f : Nat → α) (n i : Nat) :
    ((List.range n).map f)[i]? = if i < n then some (f i) else none := by
  split
  case isTrue h  => simp [h]
  case isFalse h => simpa using Nat.le_of_not_lt h

theorem getElem?_locsIn (start : Nat) (ss : List NcdbScope) (idx : Nat) :
    (locsIn start ss)[idx]? = logicalCoverAtIn start ss idx := by
  induction ss generalizing start idx
  case nil => rfl
  case cons s ss hi =>
    rw [locsIn, logicalCoverAtIn]
    cases s.isR7Synthetic
    case false => exact hi (start + 1) idx
    case true =>
      simp only [if_true, Bool.not_true, Bool.false_eq_true, if_false, List.getElem?_append,
        List.length_map, List.length_range, getElem?_range_map, hi]
      split <;> rfl

theorem getElem?_logicalCovers (s : NcdbScope) (idx : Nat) :
    s.logicalCovers[idx]? = s.logicalCoverAt idx := by
  rw [logicalCovers, logicalCoverAt]
  simp only [List.getElem?_append, List.length_map, List.length_range, getElem?_range_map,
    getElem?_locsIn]
  split <;> rfl

theorem mem_map_range {start n : Nat} {loc : CoverLoc} :
    loc ∈ (List.range n).map (fun idx => ⟨some start, idx⟩) ↔
      loc.child = some start ∧ loc.index < n := by
  have ⟨child, index⟩ := loc
  simp only [List.mem_map, List.mem_range, CoverLoc.mk.injEq]
  constructor
  · intro ⟨_, hl, hc, hi⟩
    exact ⟨hc.symm, hi ▸ hl⟩
  · intro ⟨hc, hl⟩
    exact ⟨index, hl, hc.symm, rfl⟩

theorem mem_locsIn {start : Nat} {ss : List NcdbScope} {loc : CoverLoc} :
    loc ∈ locsIn start ss ↔ ∃ i s, ss[i]? = some s ∧ s.isR7Synthetic ∧
      loc.child = some (start + i) ∧ loc.index < s.covers.length := by
  induction ss generalizing start
  case nil => simp [locsIn]
  case cons s ss hi =>
    rw [locsIn, List.mem_append, hi]
    constructor
    · intro h
      cases h
      case inl h =>
        split at h
        case isFalse   => cases h
        case isTrue hs => exact ⟨0, s, rfl, hs, mem_map_range.mp h⟩
      case inr h =>
        have ⟨i, s', hs', hr, hc, hl⟩ := h
        exact ⟨i + 1, s', hs', hr, by rw [hc, Nat.add_assoc, Nat.add_comm 1], hl⟩
    · intro ⟨i, s', hs', hr, hc, hl⟩
      cases i
      case zero =>
        cases hs'
        exact .inl (by rw [if_pos hr]; exact mem_map_range.mpr ⟨hc, hl⟩)
      case succ i => exact .inr ⟨i, s', hs', hr, by rw [hc, Nat.add_assoc, Nat.add_comm 1], hl⟩

theorem mem_logicalCovers {s : NcdbScope} {loc : CoverLoc} : loc ∈ s.logicalCovers ↔
    (s.coverAt loc).isSome ∧ ∀ i ∈ loc.child, ∃ c, s.children[i]? = some c ∧ c.isR7Synthetic := by
  have ⟨child, index⟩ := loc
  rw [logicalCovers, List.mem_append, mem_locsIn]
  cases child
  case none => simp [coverAt]
  case some i => simp [coverAt, Option.isSome_bind]; grind

theorem nodup_locsIn (start : Nat) (ss : List NcdbScope) : (locsIn start ss).Nodup := by
  have hinj (n : Nat) : Function.Injective fun idx => (⟨some n, idx⟩ : CoverLoc) :=
    fun _ _ h => (CoverLoc.mk.inj h).2
  induction ss generalizing start
  case nil => exact .nil
  case cons s ss hi =>
    rw [locsIn]
    split
    case isFalse => exact hi _
    case isTrue =>
      refine List.nodup_append'.mpr ⟨List.nodup_range.map (hinj start), hi _, fun loc hm hm' => ?_⟩
      have ⟨hc, _⟩ := mem_map_range.mp hm
      have ⟨i, _, _, _, hc', _⟩ := mem_locsIn.mp hm'
      have he := Option.some.inj (hc.symm.trans hc')
      omega

-- No cover is listed twice.
theorem nodup_logicalCovers (s : NcdbScope) : s.logicalCovers.Nodup := by
  have hinj : Function.Injective fun idx => (⟨none, idx⟩ : CoverLoc) :=
    fun _ _ h => (CoverLoc.mk.inj h).2
  refine List.nodup_append'.mpr ⟨List.nodup_range.map hinj, nodup_locsIn .., fun loc hm hm' => ?_⟩
  have ⟨_, _, he⟩ := List.mem_map.mp hm
  have ⟨_, _, _, _, hc, _⟩ := mem_locsIn.mp hm'
  rw [← he] at hc
  cases hc

mutual

-- A scope only gains: its covers stay where they are, and so do its children.
def Grows : NcdbScope → NcdbScope → Prop
  | mk d cs ss, s' =>
    (mk d cs ss).isR7Synthetic = s'.isR7Synthetic ∧
    cs.map NcdbCover.key <+: s'.covers.map NcdbCover.key ∧ GrowsAll ss s'.children

def GrowsAll : List NcdbScope → List NcdbScope → Prop
  | [],      _        => True
  | _ :: _,  []       => False
  | s :: ss, s' :: ss' => s.Grows s' ∧ GrowsAll ss ss'

end

theorem growsAll_iff {ss ss' : List NcdbScope} : GrowsAll ss ss' ↔
    ∀ (i : Nat) (s : NcdbScope), ss[i]? = some s → ∃ s', ss'[i]? = some s' ∧ s.Grows s' := by
  induction ss generalizing ss'
  case nil => simp [GrowsAll]
  case cons s ss hi =>
    cases ss'
    case nil =>
      refine iff_of_false id fun h => ?_
      have ⟨_, hs, _⟩ := h 0 s rfl
      cases hs
    case cons s' ss' =>
      rw [GrowsAll, hi]
      constructor
      · intro ⟨hs, hss⟩ i t ht
        cases i
        case zero   => cases ht; exact ⟨s', rfl, hs⟩
        case succ i => exact hss i t ht
      · intro h
        have ⟨_, hs, hg⟩ := h 0 s rfl
        cases hs
        exact ⟨hg, fun i t ht => h (i + 1) t ht⟩

mutual

theorem Grows.refl : (s : NcdbScope) → s.Grows s
  | mk _ _ ss => ⟨rfl, List.prefix_rfl, GrowsAll.refl ss⟩

theorem GrowsAll.refl : (ss : List NcdbScope) → GrowsAll ss ss
  | []      => trivial
  | s :: ss => ⟨Grows.refl s, GrowsAll.refl ss⟩

end

variable {s s' : NcdbScope} {ss ss' : List NcdbScope}

theorem grows_iff : s.Grows s' ↔ s.isR7Synthetic = s'.isR7Synthetic ∧
    s.covers.map NcdbCover.key <+: s'.covers.map NcdbCover.key ∧ GrowsAll s.children s'.children := by
  cases s
  rfl

theorem Grows.length_le (h : s.Grows s') : s.covers.length ≤ s'.covers.length := by
  have hl := (grows_iff.mp h).2.1.length_le
  rwa [List.length_map, List.length_map] at hl

theorem locsIn_sublist (h : GrowsAll ss ss') (start : Nat) :
    (locsIn start ss).Sublist (locsIn start ss') := by
  induction ss generalizing ss' start
  case nil => exact List.nil_sublist _
  case cons s ss hi =>
    cases ss'
    case nil => cases h
    case cons s' ss' =>
      have ⟨hs, hss⟩ := h
      rw [locsIn, locsIn, ← (grows_iff.mp hs).1]
      refine .append ?_ (hi hss _)
      split
      case isTrue  => exact (List.range_sublist.mpr hs.length_le).map _
      case isFalse => exact .refl _

-- The covers that are listed keep their order.
theorem Grows.logicalCovers_sublist (h : s.Grows s') : s.logicalCovers.Sublist s'.logicalCovers :=
  .append ((List.range_sublist.mpr h.length_le).map _) (locsIn_sublist (grows_iff.mp h).2.2 0)

theorem Grows.descend (h : s.Grows s') {path : List Nat} {t : NcdbScope}
    (ht : s.descend path = some t) : ∃ t', s'.descend path = some t' ∧ t.Grows t' := by
  induction path generalizing s s'
  case nil =>
    cases ht
    exact ⟨s', rfl, h⟩
  case cons i is hi =>
    have ⟨c, hc, ht⟩ := Option.bind_eq_some_iff.mp ht
    have ⟨c', hc', hg⟩ := growsAll_iff.mp (grows_iff.mp h).2.2 i c hc
    have ⟨t', ht', hg'⟩ := hi hg ht
    exact ⟨t', by rw [NcdbScope.descend, hc']; exact ht', hg'⟩

-- A cover that is there keeps its type, name and count.
theorem Grows.coverAt (h : s.Grows s') {loc : CoverLoc} {k : UInt64 × String × UInt64}
    (hc : (s.coverAt loc).map NcdbCover.key = some k) :
    (s'.coverAt loc).map NcdbCover.key = some k := by
  have hget : ∀ {t t' : NcdbScope}, t.Grows t' → (t.covers[loc.index]?).map NcdbCover.key = some k →
      (t'.covers[loc.index]?).map NcdbCover.key = some k := by
    intro t t' hg hk
    rw [← List.getElem?_map] at hk ⊢
    obtain ⟨rest, hr⟩ := (grows_iff.mp hg).2.1
    obtain ⟨hl, _⟩ := List.getElem?_eq_some_iff.mp hk
    rw [← hr, List.getElem?_append_left hl, hk]
  rw [NcdbScope.coverAt] at hc ⊢
  cases hl : loc.child
  case none =>
    rw [hl] at hc
    exact hget h hc
  case some i =>
    simp only [hl, Option.map_bind, Option.bind_eq_some_iff] at hc ⊢
    obtain ⟨c, hc, hk⟩ := hc
    obtain ⟨c', hc', hg⟩ := growsAll_iff.mp (grows_iff.mp h).2.2 i c hc
    exact ⟨c', hc', hget hg hk⟩

theorem Grows.modify {f : NcdbScope → NcdbScope} (ss : List NcdbScope) (i : Nat)
    (h : ∀ s, ss[i]? = some s → s.Grows (f s)) : GrowsAll ss (ss.modify i f) := by
  refine growsAll_iff.mpr fun j s hs => ?_
  rw [List.getElem?_modify, hs]
  refine ⟨_, rfl, ?_⟩
  split
  case isTrue he => exact h s (he ▸ hs)
  case isFalse   => exact .refl s

theorem GrowsAll.append (ss rest : List NcdbScope) : GrowsAll ss (ss ++ rest) := by
  refine growsAll_iff.mpr fun i s hs => ⟨s, ?_, .refl s⟩
  rw [List.getElem?_append_left (List.getElem?_eq_some_iff.mp hs).1, hs]

theorem grows_modifyDescendant {f : NcdbScope → NcdbScope} (path : List Nat) (s : NcdbScope)
    (h : ∀ t, s.descend path = some t → t.Grows (f t)) : s.Grows (modifyDescendant f path s) := by
  induction path generalizing s
  case nil => exact h s rfl
  case cons i is hi =>
    refine grows_iff.mpr ⟨rfl, List.prefix_rfl, Grows.modify _ i fun c hc => hi c fun t ht => ?_⟩
    exact h t (by rw [NcdbScope.descend, hc]; exact ht)

theorem grows_appendCover (c : NcdbCover) (s : NcdbScope) : s.Grows (appendCover c s) := by
  refine grows_iff.mpr ⟨rfl, ?_, .refl _⟩
  rw [appendCover, covers, List.map_append]
  exact List.prefix_append ..

theorem grows_createCover (s : NcdbScope) (type : UInt64) (name : String) (count : UInt64) :
    s.Grows (s.createCover type name count).fst := by
  rw [createCover]
  split
  case isFalse => exact grows_appendCover ..
  case isTrue =>
    split
    case h_1 i _ =>
      exact grows_iff.mpr ⟨rfl, List.prefix_rfl, Grows.modify _ i fun c _ => grows_appendCover _ c⟩
    case h_2 => exact grows_iff.mpr ⟨rfl, List.prefix_rfl, .append ..⟩

@[simp]
theorem appendCover_covers (c : NcdbCover) (s : NcdbScope) :
    (appendCover c s).covers = s.covers ++ [c] :=
  rfl

@[simp]
theorem isR7Synthetic_appendCover (c : NcdbCover) (s : NcdbScope) :
    (appendCover c s).isR7Synthetic = s.isR7Synthetic :=
  rfl

theorem isR7Synthetic_createR7Synthetic (d : NcdbScopeData) (c : NcdbCover) :
    (createR7Synthetic d c).isR7Synthetic := by
  have h : (ncdbScopeFlagInternal ||| ncdbScopeFlagR7Synthetic) &&& ncdbScopeFlagR7Synthetic ≠ 0 := by
    decide
  exact decide_eq_true h

theorem findR7Synthetic_some {children : List NcdbScope} {type : UInt64} {i : Nat}
    (h : findR7Synthetic children type = some i) : ∃ c, children[i]? = some c ∧ c.isR7Synthetic ∧
      c.covers.head?.map (·.type) = some type := by
  have ⟨hl, hc, _⟩ := List.findIdx?_eq_some_iff_getElem.mp h
  rw [Bool.and_eq_true, Option.any_eq_true] at hc
  have ⟨hr, c, hm, ht⟩ := hc
  refine ⟨children[i], List.getElem?_eq_getElem hl, hr, ?_⟩
  rw [hm, Option.map_some, of_decide_eq_true ht]

-- A new cover is where its location says, and it is listed.
theorem createCover_loc (s : NcdbScope) (type : UInt64) (name : String) (count : UInt64) :
    ((s.createCover type name count).fst.coverAt (s.createCover type name count).snd).map
      NcdbCover.key = some (type, name, count) ∧
    (s.createCover type name count).snd ∈ (s.createCover type name count).fst.logicalCovers := by
  rw [mem_logicalCovers, createCover]
  split
  case isFalse => simp [coverAt]
  case isTrue =>
    split
    case h_1 i hi =>
      have ⟨c, hc, hr, _⟩ := findR7Synthetic_some hi
      simp [coverAt, List.getElem?_modify, hc, hr]
    case h_2 =>
      have hr := isR7Synthetic_createR7Synthetic s.data (.create type name count)
      have hcs : (createR7Synthetic s.data (.create type name count)).covers
          = [.create type name count] := rfl
      simp [coverAt, hr, hcs]

-- Every cover of a scope has the type of the first one.
def SingleTyped (s : NcdbScope) : Prop :=
  ∀ c ∈ s.covers, some c.type = s.covers.head?.map (·.type)

-- A scope takes a cover itself only where the types agree, unless it counts as a synthetic child.
def TakesType (s : NcdbScope) (type : UInt64) : Prop :=
  s.isR7Synthetic → ∀ c ∈ s.covers.head?, c.type = type

theorem singleTyped_appendCover {s : NcdbScope} {c : NcdbCover} (h : s.SingleTyped)
    (hc : ∀ c' ∈ s.covers.head?, c'.type = c.type) : (appendCover c s).SingleTyped := by
  rw [SingleTyped, appendCover_covers]
  cases hs : s.covers
  case nil => simp
  case cons c' cs =>
    have h' := h
    rw [SingleTyped, hs] at h'
    intro e he
    cases List.mem_append.mp he
    case inl he => exact h' e he
    case inr he =>
      rw [List.mem_singleton.mp he, ← hc c' (by rw [hs]; rfl)]
      rfl

-- A property of a scope and all its descendants.
def Everywhere (P : NcdbScope → Prop) (s : NcdbScope) : Prop :=
  ∀ path t, s.descend path = some t → P t

theorem everywhere_iff {P : NcdbScope → Prop} {s : NcdbScope} :
    s.Everywhere P ↔ P s ∧ ∀ c ∈ s.children, c.Everywhere P := by
  constructor
  · intro h
    refine ⟨h [] s rfl, fun c hc path t ht => ?_⟩
    have ⟨i, hi⟩ := List.mem_iff_getElem?.mp hc
    exact h (i :: path) t (by rw [descend, hi]; exact ht)
  · intro ⟨h, hc⟩ path t ht
    cases path
    case nil         => cases ht; exact h
    case cons i path =>
      have ⟨c, hi, ht⟩ := Option.bind_eq_some_iff.mp ht
      exact hc c (List.mem_of_getElem? hi) path t ht

theorem mem_modify {α : Type*} {f : α → α} {xs : List α} {i : Nat} {y : α} (h : y ∈ xs.modify i f) :
    y ∈ xs ∨ ∃ x, xs[i]? = some x ∧ y = f x := by
  have ⟨j, hj⟩ := List.mem_iff_getElem?.mp h
  rw [List.getElem?_modify] at hj
  have ⟨x, hx, he⟩ := Option.map_eq_some_iff.mp hj
  split at he
  case isTrue hij => exact .inr ⟨x, hij ▸ hx, he.symm⟩
  case isFalse    => exact .inl (he ▸ List.mem_of_getElem? hx)

theorem Everywhere.modifyDescendant {f : NcdbScope → NcdbScope} {path : List Nat}
    {s : NcdbScope} {P : NcdbScope → Prop} (h : s.Everywhere P)
    (hp : ∀ d cs ss ss', P (mk d cs ss) → P (mk d cs ss'))
    (hf : ∀ t, s.descend path = some t → t.Everywhere P → (f t).Everywhere P) :
    (modifyDescendant f path s).Everywhere P := by
  induction path generalizing s
  case nil => exact hf s rfl h
  case cons i is hi =>
    have ⟨hs, hc⟩ := everywhere_iff.mp h
    refine everywhere_iff.mpr ⟨by cases s; exact hp _ _ _ _ hs, fun c hm => ?_⟩
    cases mem_modify hm
    case inl hm => exact hc c hm
    case inr hm =>
      have ⟨c', hc', he⟩ := hm
      rw [he]
      refine hi (hc c' (List.mem_of_getElem? hc')) fun t ht => hf t ?_
      rw [descend, hc']
      exact ht

theorem Everywhere.createCover {s : NcdbScope} (h : s.Everywhere SingleTyped) {type : UInt64}
    (ht : s.TakesType type) (name : String) (count : UInt64) :
    (s.createCover type name count).fst.Everywhere SingleTyped := by
  have ⟨hs, hc⟩ := everywhere_iff.mp h
  rw [NcdbScope.createCover]
  split
  case isFalse hn =>
    refine everywhere_iff.mpr ⟨singleTyped_appendCover hs fun c hm => ?_, hc⟩
    rw [splits, Bool.and_eq_true, not_and_or, hm, Option.any_some] at hn
    cases hn
    case inl hn =>
      have he : c.type = type := by simpa using hn
      exact he
    case inr hn => exact ht (by simpa using hn) c hm
  case isTrue =>
    split
    case h_1 i hi =>
      have ⟨c, hci, _, htype⟩ := findR7Synthetic_some hi
      refine everywhere_iff.mpr ⟨hs, fun c' hm => ?_⟩
      cases mem_modify hm
      case inl hm => exact hc c' hm
      case inr hm =>
        have ⟨c'', hci', he⟩ := hm
        cases hci.symm.trans hci'
        have ⟨hcs, hcc⟩ := everywhere_iff.mp (hc c (List.mem_of_getElem? hci))
        rw [he]
        refine everywhere_iff.mpr ⟨singleTyped_appendCover hcs fun e he => ?_, hcc⟩
        rw [he] at htype
        exact Option.some.inj htype
    case h_2 =>
      refine everywhere_iff.mpr ⟨hs, fun c' hm => ?_⟩
      cases List.mem_append.mp hm
      case inl hm => exact hc c' hm
      case inr hm =>
        rw [List.mem_singleton.mp hm]
        refine everywhere_iff.mpr ⟨fun e he => ?_, nofun⟩
        rw [List.mem_singleton.mp he]
        rfl

-- The record of a toggle pair has no place for flags, nor for the order of the two covers.
def Rereads (s : NcdbScope) : Prop :=
  s.isTogglePair → ¬s.isR7Synthetic ∧ s.covers.head?.map (·.name) = some ncdbToggleBin0To1

theorem key_restoredCovers {cs : List NcdbCover}
    (h : ∀ c ∈ cs, some c.type = cs.head?.map (·.type)) :
    (restoredCovers cs).map NcdbCover.key = cs.map NcdbCover.key := by
  cases cs
  case nil => rfl
  case cons first cs =>
    rw [restoredCovers, List.map_map]
    refine List.map_congr_left fun c hm => ?_
    have ht : c.type = first.type := Option.some.inj (h c hm)
    change (first.type, c.name, c.count) = (c.type, c.name, c.count)
    rw [ht]

theorem isR7Synthetic_readTogglePair (name : String) (n₁ n₂ : UInt64) :
    (NcdbTables.readTogglePair name n₁ n₂).isR7Synthetic = false := by
  have h : (0 : UInt64) &&& ncdbScopeFlagR7Synthetic = 0 := by decide
  exact decide_eq_false (not_not_intro h)

mutual

-- Reading a scope back that was written loses none of its covers.
theorem grows_restored : (s : NcdbScope) → s.Everywhere SingleTyped → s.Everywhere Rereads →
    s.Grows s.restored
  | mk d cs ss, ht, hr => by
    have ⟨hts, htc⟩ := everywhere_iff.mp ht
    have ⟨hrs, hrc⟩ := everywhere_iff.mp hr
    rw [restored]
    split
    case isFalse =>
      refine ⟨rfl, ?_, growsAll_restoredAll ss htc hrc⟩
      have hts : ∀ c ∈ cs, some c.type = cs.head?.map (·.type) := hts
      simp only [covers_mk, key_restoredCovers hts, List.prefix_rfl]
    case isTrue hp =>
      have ⟨hn, hhead⟩ := hrs hp
      have ⟨_, hss, c₁, c₂, hcs, ht₁, ht₂, hnames⟩ := covers_of_isTogglePair hp
      change ss = [] at hss
      change cs = [c₁, c₂] at hcs
      rw [covers_mk, hcs, List.head?_cons, Option.map_some, Option.some.injEq] at hhead
      have hne : ncdbToggleBin0To1 ≠ ncdbToggleBin1To0 := by decide
      have hname₂ : c₂.name = ncdbToggleBin1To0 := by
        cases hnames
        case inl hnames => exact hnames.2
        case inr hnames => exact absurd (hhead.symm.trans hnames.1) hne
      refine ⟨(Bool.eq_false_iff.mpr hn).trans (isR7Synthetic_readTogglePair ..).symm, ?_,
        by rw [hss]; trivial⟩
      have hkeys : [c₁, c₂].map NcdbCover.key = [(ncdbCoverToggleBin, ncdbToggleBin0To1, c₁.count),
          (ncdbCoverToggleBin, ncdbToggleBin1To0, c₂.count)] := by
        simp [NcdbCover.key, ht₁, ht₂, hhead, hname₂]
      have hcounts : coverCountNamed [c₁, c₂] ncdbToggleBin0To1 = c₁.count ∧
          coverCountNamed [c₁, c₂] ncdbToggleBin1To0 = c₂.count := by
        simp [coverCountNamed, hhead, hname₂, hne]
      rw [hcs, hkeys, hcounts.1, hcounts.2]
      exact List.prefix_rfl

theorem growsAll_restoredAll : (ss : List NcdbScope) → (∀ s ∈ ss, s.Everywhere SingleTyped) →
    (∀ s ∈ ss, s.Everywhere Rereads) → GrowsAll ss (restoredAll ss)
  | [],      _,  _  => trivial
  | s :: ss, ht, hr => ⟨grows_restored s (ht s (.head _)) (hr s (.head _)),
    growsAll_restoredAll ss (fun t hm => ht t (.tail _ hm)) fun t hm => hr t (.tail _ hm)⟩

end

mutual

-- What is read back has covers of one type.
theorem singleTyped_restored : (s : NcdbScope) → s.restored.Everywhere SingleTyped
  | mk d cs ss => by
    rw [restored]
    split
    case isTrue =>
      refine everywhere_iff.mpr ⟨fun c hm => ?_, nofun⟩
      rcases List.mem_pair.mp hm with rfl | rfl <;> rfl
    case isFalse =>
      refine everywhere_iff.mpr ⟨fun c hm => ?_, singleTyped_restoredAll ss⟩
      cases cs
      case nil => cases hm
      case cons first cs =>
        have ⟨c', _, he⟩ := List.mem_map.mp hm
        rw [← he]
        rfl

theorem singleTyped_restoredAll : (ss : List NcdbScope) →
    ∀ s ∈ restoredAll ss, s.Everywhere SingleTyped
  | s :: ss, t, hm => by
    cases hm
    case head    => exact singleTyped_restored s
    case tail hm => exact singleTyped_restoredAll ss t hm

end

end NcdbScope
