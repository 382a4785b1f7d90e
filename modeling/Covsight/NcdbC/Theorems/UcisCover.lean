import Covsight.NcdbC.UcisCover
import Covsight.NcdbC.Theorems.CoverSession

-- Which cover an index of the UCIS interface addresses, from the call that returns it on.

-- The name and the count of a cover.
def NcdbCover.counted (c : NcdbCover) : String × UInt64 :=
  (c.name, c.count)

namespace NcdbScope

variable {s : NcdbScope} {loc : CoverLoc}

-- The children that come after the place of a new cover of some type.
def childrenAfter (s : NcdbScope) (type : UInt64) : List NcdbScope :=
  if s.splits type then
    match findR7Synthetic s.children type with
    | some i => s.children.drop (i + 1)
    | none   => []
  else
    s.children

-- Where a cover of a type is the last one of the logical view.
def AppendsLast (s : NcdbScope) (type : UInt64) : Prop :=
  ∀ c ∈ s.childrenAfter type, c.isR7Synthetic → c.covers = []

instance (s : NcdbScope) (type : UInt64) : Decidable (s.AppendsLast type) :=
  inferInstanceAs (Decidable (∀ c ∈ s.childrenAfter type, c.isR7Synthetic → c.covers = []))

-- The record of a toggle pair has no place for the order of its covers, nor for the flags that tell a
-- synthetic child.
def KeepsView (s : NcdbScope) : Prop :=
  (s.isTogglePair → s.covers.head?.map (·.name) = some ncdbToggleBin0To1) ∧
    ∀ c ∈ s.children, c.isR7Synthetic → ¬c.isTogglePair

theorem locsIn_append (start : Nat) (ss rest : List NcdbScope) :
    locsIn start (ss ++ rest) = locsIn start ss ++ locsIn (start + ss.length) rest := by
  induction ss generalizing start
  case nil => rfl
  case cons s ss hi =>
    rw [List.cons_append, locsIn, locsIn, hi, List.append_assoc, List.length_cons, Nat.add_assoc,
      Nat.add_comm 1]

theorem locsIn_eq_nil {start : Nat} {ss : List NcdbScope}
    (h : ∀ c ∈ ss, c.isR7Synthetic → c.covers = []) : locsIn start ss = [] := by
  refine List.eq_nil_iff_forall_not_mem.mpr fun loc hm => ?_
  have ⟨i, c, hc, hr, _, hl⟩ := mem_locsIn.mp hm
  rw [h c (List.mem_of_getElem? hc) hr] at hl
  exact Nat.not_lt_zero _ hl

-- What is listed depends on the synthetic children and on how many covers they have.
theorem locsIn_congr {f : NcdbScope → NcdbScope} (start : Nat) (ss : List NcdbScope)
    (hr : ∀ c ∈ ss, (f c).isR7Synthetic = c.isR7Synthetic)
    (hl : ∀ c ∈ ss, c.isR7Synthetic → (f c).covers.length = c.covers.length) :
    locsIn start (ss.map f) = locsIn start ss := by
  induction ss generalizing start
  case nil => rfl
  case cons c ss hi =>
    have hrest := hi (start + 1) (fun c hm => hr c (.tail _ hm)) fun c hm => hl c (.tail _ hm)
    rw [List.map_cons, locsIn, locsIn, hrest, hr c (.head _)]
    split
    case isTrue h => rw [hl c (.head _) h]
    case isFalse  => rfl

theorem locsIn_modify {f : NcdbScope → NcdbScope} (start i : Nat) (ss : List NcdbScope)
    (hr : ∀ c, (f c).isR7Synthetic = c.isR7Synthetic)
    (hl : ∀ c, (f c).covers.length = c.covers.length) :
    locsIn start (ss.modify i f) = locsIn start ss := by
  induction ss generalizing start i
  case nil => rw [List.modify_nil]
  case cons c ss hi =>
    cases i
    case zero   => rw [List.modify_zero_cons, locsIn, locsIn, hr, hl]
    case succ i => rw [List.modify_succ_cons, locsIn, locsIn, hi]

theorem locsIn_modify_appendCover {c : NcdbScope} {cover : NcdbCover} {ss : List NcdbScope} {i : Nat}
    (start : Nat) (hc : ss[i]? = some c) (hr : c.isR7Synthetic)
    (hlast : ∀ c ∈ ss.drop (i + 1), c.isR7Synthetic → c.covers = []) :
    locsIn start (ss.modify i (appendCover cover))
      = locsIn start ss ++ [⟨some (start + i), c.covers.length⟩] := by
  induction ss generalizing start i
  case nil => cases hc
  case cons s ss hi =>
    cases i
    case zero =>
      cases hc
      have hnil : locsIn (start + 1) ss = [] := locsIn_eq_nil hlast
      rw [List.modify_zero_cons, locsIn, locsIn, hnil, isR7Synthetic_appendCover, if_pos hr, if_pos hr,
        appendCover_covers, List.length_append, List.length_singleton, List.range_succ, List.map_append,
        List.append_nil, List.append_nil]
      rfl
    case succ i =>
      rw [List.modify_succ_cons, locsIn, locsIn, hi (start + 1) hc hlast, List.append_assoc, Nat.add_assoc,
        Nat.add_comm 1]

-- A new cover is listed last, after those that were.
theorem logicalCovers_createCover {type : UInt64} (h : s.AppendsLast type) (name : String)
    (count : UInt64) : (s.createCover type name count).fst.logicalCovers
      = s.logicalCovers ++ [(s.createCover type name count).snd] := by
  rw [createCover]
  split
  case isFalse hs =>
    rw [AppendsLast, childrenAfter, if_neg hs] at h
    have hnil : locsIn 0 s.children = [] := locsIn_eq_nil h
    have hnil' : locsIn 0 (appendCover (.create type name count) s).children = [] := hnil
    rw [logicalCovers, logicalCovers, hnil, hnil', appendCover_covers, List.length_append,
      List.length_singleton, List.range_succ, List.map_append, List.append_nil, List.append_nil]
    rfl
  case isTrue hs =>
    rw [AppendsLast, childrenAfter, if_pos hs] at h
    split
    case h_1 i hi =>
      rw [hi] at h
      obtain ⟨c, hc, hr, _⟩ := findR7Synthetic_some hi
      have hlocs := @locsIn_modify_appendCover _ (.create type name count) _ _ 0 hc hr h
      rw [logicalCovers, logicalCovers, children_mk, hlocs, covers_mk, hc, Nat.zero_add,
        List.append_assoc]
      rfl
    case h_2 =>
      have hr := isR7Synthetic_createR7Synthetic s.data (.create type name count)
      rw [logicalCovers, logicalCovers, children_mk, locsIn_append, covers_mk, List.append_assoc,
        Nat.zero_add, locsIn, if_pos hr]
      rfl

@[simp]
theorem logicalCovers_modifyCover (s : NcdbScope) (loc : CoverLoc) (f : NcdbCover → NcdbCover) :
    (s.modifyCover loc f).logicalCovers = s.logicalCovers := by
  rw [modifyCover]
  split
  case h_1   => rw [logicalCovers, logicalCovers, covers_mk, children_mk, List.length_modify]
  case h_2 i _ =>
    rw [logicalCovers, logicalCovers, covers_mk, children_mk]
    refine congrArg _ <| locsIn_modify 0 i s.children (fun _ => rfl) fun c => ?_
    rw [covers_mk, List.length_modify]

theorem coverAt_modifyCover (s : NcdbScope) (loc loc' : CoverLoc) (f : NcdbCover → NcdbCover) :
    (s.modifyCover loc f).coverAt loc'
      = if loc = loc' then (s.coverAt loc').map f else s.coverAt loc' := by
  have ⟨child, index⟩ := loc
  have ⟨child', index'⟩ := loc'
  rw [modifyCover]
  cases child
  case none =>
    cases child'
    case none    => simp [coverAt, List.getElem?_modify]; grind
    case some i' => simp [coverAt]
  case some i =>
    cases child'
    case none    => simp [coverAt]
    case some i' =>
      simp only [coverAt, children_mk, List.getElem?_modify, CoverLoc.mk.injEq, Option.some.injEq]
      cases s.children[i']?
      case none   => simp
      case some c => by_cases hi : i = i' <;> by_cases hx : index = index' <;> simp [hi, hx]


theorem modifyCover_self {c : NcdbCover} (s : NcdbScope) (hc : s.coverAt loc = some c)
    (f : NcdbCover → NcdbCover) : (s.modifyCover loc f).coverAt loc = some (f c) := by
  rw [coverAt_modifyCover, if_pos rfl, hc]
  rfl

theorem coverAt_of_mem (h : loc ∈ s.logicalCovers) : ∃ c, s.coverAt loc = some c :=
  Option.isSome_iff_exists.mp (mem_logicalCovers.mp h).1

-- The cover at a position of the logical view.
structure Addresses (s : NcdbScope) (index : Nat) (loc : CoverLoc) (k : String × UInt64) : Prop where
  listed : s.logicalCovers[index]? = some loc
  cover  : (s.coverAt loc).map NcdbCover.counted = some k

variable {index : Nat} {k : String × UInt64} {s' : NcdbScope}

theorem Addresses.mem (h : s.Addresses index loc k) : loc ∈ s.logicalCovers :=
  List.mem_of_getElem? h.listed

-- Covers that are listed after the others, and what does not change names and counts.
theorem Addresses.grow (h : s.Addresses index loc k) {locs : List CoverLoc}
    (hl : s'.logicalCovers = s.logicalCovers ++ locs)
    (hc : (s'.coverAt loc).map NcdbCover.counted = (s.coverAt loc).map NcdbCover.counted) :
    s'.Addresses index loc k where
  listed := by
    have ⟨hlt, _⟩ := List.getElem?_eq_some_iff.mp h.listed
    rw [hl, List.getElem?_append_left hlt, h.listed]
  cover  := hc.trans h.cover

theorem fst_createNextCover (s : NcdbScope) (name : Option String) (data : UcisCoverData)
    (sourceinfo : Option UcisSourceInfo) : (s.createNextCover name data sourceinfo).fst
      = (s.createCover data.type (name.getD "") data.initialCount).fst.modifyCover
        (s.createCover data.type (name.getD "") data.initialCount).snd (data.applyTo sourceinfo) :=
  rfl

theorem snd_createNextCover (s : NcdbScope) (name : Option String) (data : UcisCoverData)
    (sourceinfo : Option UcisSourceInfo) : (s.createNextCover name data sourceinfo).snd
      = Int32.ofNat ((s.createNextCover name data sourceinfo).fst.logicalCovers.length - 1) := by
  rw [length_logicalCovers]
  rfl

theorem Addresses.createNextCover (h : s.Addresses index loc k) {name : Option String}
    {data : UcisCoverData} {sourceinfo : Option UcisSourceInfo} (hlast : s.AppendsLast data.type) :
    (s.createNextCover name data sourceinfo).fst.Addresses index loc k := by
  have hlocs := logicalCovers_createCover hlast (name.getD "") data.initialCount
  have hnew := createCover_loc_new s data.type (name.getD "") data.initialCount
  have ⟨c, hc⟩ := coverAt_of_mem h.mem
  have hkey : (s.coverAt loc).map NcdbCover.key = some c.key := by rw [hc]; rfl
  have hgrown := (grows_createCover s data.type (name.getD "") data.initialCount).coverAt hkey
  have ⟨c', hc', heq⟩ := Option.map_eq_some_iff.mp hgrown
  refine h.grow ((logicalCovers_modifyCover ..).trans hlocs) ?_
  have hne : (s.createCover data.type (name.getD "") data.initialCount).snd ≠ loc :=
    fun he => hnew (he ▸ h.mem)
  rw [fst_createNextCover, coverAt_modifyCover, if_neg hne, hc', hc]
  exact congrArg some (Prod.mk.inj heq).2

-- The index that is returned addresses the new cover.
theorem createNextCover_addresses {name : Option String} {data : UcisCoverData}
    {sourceinfo : Option UcisSourceInfo} (hlast : s.AppendsLast data.type)
    (hlt : s.logicalCoverCount < intLimit) :
    0 ≤ (s.createNextCover name data sourceinfo).snd ∧
    (s.createNextCover name data sourceinfo).fst.Addresses
      (s.createNextCover name data sourceinfo).snd.toInt.toNat
      (s.createCover data.type (name.getD "") data.initialCount).snd
      (name.getD "", data.initialCount) := by
  have hlocs := logicalCovers_createCover hlast (name.getD "") data.initialCount
  have hmod : (s.createNextCover name data sourceinfo).fst.logicalCovers = s.logicalCovers ++
      [(s.createCover data.type (name.getD "") data.initialCount).snd] :=
    (logicalCovers_modifyCover ..).trans hlocs
  have hint : (Int32.ofNat s.logicalCovers.length).toInt = s.logicalCovers.length :=
    Int32.toInt_ofNat_of_lt (length_logicalCovers s ▸ hlt)
  have ⟨c, hc, hkey⟩ := Option.map_eq_some_iff.mp
    (createCover_loc s data.type (name.getD "") data.initialCount).1
  rw [snd_createNextCover, hmod, List.length_append, List.length_singleton, Nat.add_sub_cancel,
    Int32.le_iff_toInt_le, hint, Int.toNat_natCast]
  refine ⟨Int.natCast_nonneg _, ?_, ?_⟩
  · rw [hmod, List.getElem?_concat_length]
  · rw [fst_createNextCover, modifyCover_self _ hc]
    exact congrArg some (Prod.mk.inj hkey).2

-- A call on the cover at an index changes that cover only.
theorem Addresses.updateCover (h : s.Addresses index loc k) {coverindex : Int32}
    {f : NcdbCover → Option NcdbCover} (hs : s.updateCover coverindex f = some s')
    {g : String × UInt64 → String × UInt64}
    (hf : ∀ c c', f c = some c' → c'.counted = g c.counted) :
    s'.Addresses index loc (if index = coverindex.toInt.toNat then g k else k) := by
  rw [NcdbScope.updateCover] at hs
  split at hs
  case isTrue => cases hs
  case isFalse =>
    have ⟨loc', hl, hs⟩ := Option.bind_eq_some_iff.mp hs
    have ⟨c, hc, hs⟩ := Option.bind_eq_some_iff.mp hs
    have ⟨c', hc', hs⟩ := Option.bind_eq_some_iff.mp hs
    cases hs
    rw [← getElem?_logicalCovers] at hl
    -- Two positions of the view are two places.
    have hiff : loc' = loc ↔ index = coverindex.toInt.toNat := by
      constructor
      · intro he
        have ⟨hlt, _⟩ := List.getElem?_eq_some_iff.mp h.listed
        exact (List.getElem?_inj hlt s.nodup_logicalCovers).mp (h.listed.trans (he ▸ hl).symm)
      · intro he
        have hm := h.listed
        rw [he, hl] at hm
        exact Option.some.inj hm
    refine ⟨by rw [logicalCovers_modifyCover, h.listed], ?_⟩
    rw [coverAt_modifyCover]
    split
    case isTrue he =>
      have hk : (s.coverAt loc).map NcdbCover.counted = some k := h.cover
      rw [← he, hc, Option.map_some, Option.some.injEq] at hk
      rw [if_pos (hiff.mp he), ← he, hc, Option.map_some, Option.map_some, hf c c' hc', hk]
    case isFalse hn => rw [if_neg fun he => hn (hiff.mpr he), h.cover]

-- The logical view stays as it is, but for what does not concern names and counts.
structure Steady (s s' : NcdbScope) : Prop where
  listed : s'.logicalCovers = s.logicalCovers
  cover  : ∀ loc ∈ s.logicalCovers,
    (s'.coverAt loc).map NcdbCover.counted = (s.coverAt loc).map NcdbCover.counted

theorem Steady.refl (s : NcdbScope) : s.Steady s :=
  ⟨rfl, fun _ _ => rfl⟩

theorem Steady.addresses (hs : s.Steady s') (h : s.Addresses index loc k) :
    s'.Addresses index loc k :=
  h.grow (hs.listed.trans (List.append_nil _).symm) (hs.cover loc h.mem)

theorem Steady.updateCover {coverindex : Int32} {f : NcdbCover → Option NcdbCover}
    (hs : s.updateCover coverindex f = some s') (hf : ∀ c c', f c = some c' → c'.counted = c.counted) :
    s.Steady s' := by
  rw [NcdbScope.updateCover] at hs
  split at hs
  case isTrue => cases hs
  case isFalse =>
    have ⟨loc', _, hs⟩ := Option.bind_eq_some_iff.mp hs
    have ⟨c, hc, hs⟩ := Option.bind_eq_some_iff.mp hs
    have ⟨c', hc', hs⟩ := Option.bind_eq_some_iff.mp hs
    cases hs
    refine ⟨logicalCovers_modifyCover .., fun loc _ => ?_⟩
    rw [coverAt_modifyCover]
    split
    case isTrue he =>
      rw [← he, hc]
      exact congrArg some (hf c c' hc')
    case isFalse => rfl

theorem Steady.updateData {f : NcdbScopeData → Option NcdbScopeData}
    (hs : s.updateData f = some s') : s.Steady s' := by
  have ⟨d, _, hs⟩ := Option.map_eq_some_iff.mp hs
  cases hs
  exact ⟨rfl, fun _ _ => rfl⟩

theorem counted_restoredCovers (cs : List NcdbCover) :
    (restoredCovers cs).map NcdbCover.counted = cs.map NcdbCover.counted := by
  cases cs
  case nil => rfl
  case cons first cs =>
    rw [restoredCovers, List.map_map]
    rfl

-- The covers of a toggle pair that are in order.
theorem counted_restored (h : s.isTogglePair → s.covers.head?.map (·.name) = some ncdbToggleBin0To1) :
    s.restored.covers.map NcdbCover.counted = s.covers.map NcdbCover.counted := by
  obtain ⟨d, cs, ss⟩ := s
  rw [restored]
  split
  case isFalse => exact counted_restoredCovers cs
  case isTrue hp =>
    have hhead := h hp
    obtain ⟨_, _, c₁, c₂, hcs, _, _, hnames⟩ := covers_of_isTogglePair hp
    change cs = [c₁, c₂] at hcs
    rw [covers_mk, hcs, List.head?_cons, Option.map_some, Option.some.injEq] at hhead
    have hne : ncdbToggleBin0To1 ≠ ncdbToggleBin1To0 := by decide
    have hname₂ : c₂.name = ncdbToggleBin1To0 := by
      cases hnames
      case inl hnames => exact hnames.2
      case inr hnames => exact absurd (hhead.symm.trans hnames.1) hne
    have hcounts : coverCountNamed [c₁, c₂] ncdbToggleBin0To1 = c₁.count ∧
        coverCountNamed [c₁, c₂] ncdbToggleBin1To0 = c₂.count := by
      simp [coverCountNamed, hhead, hname₂, hne]
    rw [covers_mk, hcs, hcounts.1, hcounts.2]
    simp [NcdbTables.readTogglePair, NcdbCover.counted, NcdbCover.create, hhead, hname₂]

theorem isR7Synthetic_restored (h : s.isR7Synthetic → ¬s.isTogglePair) :
    s.restored.isR7Synthetic = s.isR7Synthetic := by
  have ⟨d, cs, ss⟩ := s
  rw [restored]
  split
  case isFalse => rfl
  case isTrue hp =>
    rw [isR7Synthetic_readTogglePair]
    exact (Bool.eq_false_iff.mpr fun hr => h hr hp).symm

theorem restoredAll_eq_map (ss : List NcdbScope) : restoredAll ss = ss.map restored := by
  induction ss
  case nil          => rfl
  case cons s ss hi => rw [restoredAll, hi, List.map_cons]

-- A toggle pair has no children.
theorem children_restored (s : NcdbScope) : s.restored.children = s.children.map restored := by
  obtain ⟨d, cs, ss⟩ := s
  rw [restored]
  split
  case isFalse => exact restoredAll_eq_map ss
  case isTrue hp =>
    obtain ⟨_, hss, _⟩ := covers_of_isTogglePair hp
    change ss = [] at hss
    rw [children_mk, hss]
    rfl

theorem descend_restored (s : NcdbScope) (path : List Nat) :
    s.restored.descend path = (s.descend path).map restored := by
  induction path generalizing s
  case nil => rfl
  case cons i is hi =>
    rw [descend, descend, children_restored, List.getElem?_map]
    cases s.children[i]?
    case none   => rfl
    case some c => exact hi c

theorem Steady.restored (h : s.KeepsView) : s.Steady s.restored := by
  have hcs := counted_restored h.1
  have hchild : ∀ c ∈ s.children, c.isR7Synthetic →
      c.restored.covers.map NcdbCover.counted = c.covers.map NcdbCover.counted :=
    fun c hm hr => counted_restored fun hp => absurd hp (h.2 c hm hr)
  have hlen {cs cs' : List NcdbCover} (he : cs'.map NcdbCover.counted = cs.map NcdbCover.counted) :
      cs'.length = cs.length := by
    rw [← List.length_map NcdbCover.counted, he, List.length_map]
  constructor
  case listed =>
    rw [logicalCovers, logicalCovers, hlen hcs, children_restored]
    exact congrArg _ <| locsIn_congr 0 s.children (fun c hm => isR7Synthetic_restored (h.2 c hm))
      fun c hm hr => hlen (hchild c hm hr)
  case cover =>
    intro loc hm
    obtain ⟨_, hsome⟩ := mem_logicalCovers.mp hm
    rw [coverAt, coverAt]
    cases hl : loc.child
    case none => rw [← List.getElem?_map, hcs, List.getElem?_map]
    case some i =>
      obtain ⟨c, hc, hr⟩ := hsome i hl
      have hcm := hchild c (List.mem_of_getElem? hc) hr
      simp only [children_restored, List.getElem?_map, hc, Option.map_some, Option.bind_some]
      rw [← List.getElem?_map, hcm, List.getElem?_map]

end NcdbScope

-- What a caller does with one scope.
inductive CoverCall
  | createNextCover (name : Option String) (data : UcisCoverData) (sourceinfo : Option UcisSourceInfo)
  | incrementCover (coverindex : Int32) (increment : Int64)
  | setCoverFlag (coverindex : Int32) (mask : UInt32) (bitvalue : Bool)
  | setIntProperty (coverindex : Int32) (property : UcisIntProperty) (value : Int32)
  | setStringProperty (coverindex : Int32) (property : UcisStringProperty) (value : Option String)
  | setScopeSourceInfo (sourceinfo : UcisSourceInfo)
  | reopen

-- A cover that was created, with the index that was returned for it, and what was added through this
-- index since.
structure IndexedCover where
  index   : Int32
  loc     : CoverLoc
  name    : String
  initial : UInt64
  added   : UInt64 := 0
  deriving DecidableEq

-- What an increment of the cover at an index adds.
def IndexedCover.increment (coverindex : Int32) (increment : Int64) (e : IndexedCover) : IndexedCover :=
  if e.index = coverindex then { e with added := e.added + increment.toUInt64 } else e

structure IndexSession where
  db     : Ncdb
  covers : List IndexedCover := []

namespace IndexSession

-- Calls that fail are not counted.
def step (p : NcdbScopePath) (x : IndexSession) : CoverCall → IndexSession
  | .createNextCover name data sourceinfo =>
    match x.db.scopeAt p with
    | none   => x
    | some s =>
      let (s', index) := s.createNextCover name data sourceinfo
      let loc := (s.createCover data.type (name.getD "") data.initialCount).snd
      ⟨x.db.modifyScope p fun _ => s', x.covers ++ [⟨index, loc, name.getD "", data.initialCount, 0⟩]⟩
  | .incrementCover coverindex increment =>
    match (x.db.scopeAt p).bind (·.incrementCover coverindex increment) with
    | none   => x
    | some s => ⟨x.db.modifyScope p fun _ => s, x.covers.map (·.increment coverindex increment)⟩
  | .setCoverFlag coverindex mask bitvalue =>
    { x with db := x.db.callOn p (·.setCoverFlag coverindex mask bitvalue) }
  | .setIntProperty coverindex property value =>
    { x with db := x.db.setIntProperty p coverindex property value }
  | .setStringProperty coverindex property value =>
    { x with db := x.db.setStringProperty p coverindex property value }
  | .setScopeSourceInfo sourceinfo => { x with db := x.db.callOn p (·.setScopeSourceInfo sourceinfo) }
  | .reopen => { x with db := x.db.reread.getD x.db }

-- A cover is created where it is listed last, and where its index is an `int`. The scope is only
-- written where no toggle pair hides covers or swaps them, and where the end of the stream allows it.
def Allowed (p : NcdbScopePath) (x : IndexSession) : CoverCall → Prop
  | .createNextCover _ data _ => ∀ s, x.db.scopeAt p = some s →
    s.AppendsLast data.type ∧ s.logicalCoverCount < intLimit
  | .reopen => (∀ s, x.db.scopeAt p = some s → s.KeepsView) ∧
    ∀ out, x.db.scopeTreeSerialize [""] = some out → x.db.TrailerClear out.data
  | _ => True

inductive AllowedRun (p : NcdbScopePath) : IndexSession → IndexSession → Prop
  | refl (x) : AllowedRun p x x
  | step {x y} (call : CoverCall) : AllowedRun p x y → y.Allowed p call → AllowedRun p x (y.step p call)

-- An index addresses its cover, whose count is what it was created with and what was added to it.
def Addressed (p : NcdbScopePath) (db : Ncdb) (e : IndexedCover) : Prop :=
  ∃ s, db.scopeAt p = some s ∧ 0 ≤ e.index ∧ s.logicalCoverAt e.index.toInt.toNat = some e.loc ∧
    (s.coverAt e.loc).map NcdbCover.counted = some (e.name, e.initial + e.added)

end IndexSession

namespace Ncdb

open NcdbScope IndexSession

variable {db db' : Ncdb} {p : NcdbScopePath} {s : NcdbScope} {e : IndexedCover}

theorem addressed_iff : Addressed p db e ↔ ∃ s, db.scopeAt p = some s ∧ 0 ≤ e.index ∧
    s.Addresses e.index.toInt.toNat e.loc (e.name, e.initial + e.added) := by
  refine exists_congr fun s => and_congr_right fun _ => and_congr_right fun _ => ?_
  rw [← getElem?_logicalCovers]
  exact ⟨fun ⟨hl, hc⟩ => ⟨hl, hc⟩, fun h => ⟨h.listed, h.cover⟩⟩

-- A database where the view of the scope stays as it is.
def SteadyAt (p : NcdbScopePath) (db db' : Ncdb) : Prop :=
  ∀ s, db.scopeAt p = some s → ∃ s', db'.scopeAt p = some s' ∧ s.Steady s'

theorem SteadyAt.refl (p : NcdbScopePath) (db : Ncdb) : SteadyAt p db db :=
  fun s hs => ⟨s, hs, .refl s⟩

theorem SteadyAt.addressed (h : SteadyAt p db db') (ha : Addressed p db e) : Addressed p db' e := by
  have ⟨s, hs, hi, ha⟩ := addressed_iff.mp ha
  have ⟨s', hs', hst⟩ := h s hs
  exact addressed_iff.mpr ⟨s', hs', hi, hst.addresses ha⟩

theorem steadyAt_callOn {f : NcdbScope → Option NcdbScope}
    (h : ∀ s s', f s = some s' → s.Steady s') : SteadyAt p db (db.callOn p f) := by
  intro s hs
  rw [callOn, hs, Option.bind_some]
  cases hf : f s
  case none    => exact ⟨s, hs, .refl s⟩
  case some s' => exact ⟨s', scopeAt_modifyScope hs, h s s' hf⟩

theorem steadyAt_setIntProperty (coverindex : Int32) (property : UcisIntProperty) (value : Int32) :
    SteadyAt p db (db.setIntProperty p coverindex property value) := by
  rw [setIntProperty]
  split
  case isTrue =>
    refine steadyAt_callOn fun s s' hs => .updateCover hs fun c c' hc => ?_
    split at hc
    case h_4 =>
      have ⟨_, _, hc⟩ := Option.map_eq_some_iff.mp hc
      cases hc
      rfl
    all_goals cases hc; rfl
  case isFalse =>
    split
    case isTrue => exact steadyAt_callOn fun s s' hs => .updateData hs
    case isFalse => split <;> exact .refl p _

theorem steadyAt_setStringProperty (coverindex : Int32) (property : UcisStringProperty)
    (value : Option String) : SteadyAt p db (db.setStringProperty p coverindex property value) := by
  rw [setStringProperty]
  split
  case isFalse => exact steadyAt_callOn fun s s' hs => .updateData hs
  case isTrue =>
    refine steadyAt_callOn fun s s' hs => .updateCover hs fun c c' hc => ?_
    split at hc
    case h_1 => cases hc; rfl
    case h_2 =>
      have ⟨_, _, hc⟩ := Option.map_eq_some_iff.mp hc
      cases hc
      rfl

theorem scopeAt_restored (h : db'.roots = restoredAll db.roots) (hs : db.scopeAt p = some s) :
    db'.scopeAt p = some s.restored := by
  have ⟨r, hr, hs⟩ := Option.bind_eq_some_iff.mp hs
  rw [scopeAt, h, restoredAll_eq_map, List.getElem?_map, hr, Option.map_some, Option.bind_some,
    descend_restored, hs, Option.map_some]

end Ncdb

namespace IndexSession

open NcdbScope Ncdb

variable {p : NcdbScopePath} {x y : IndexSession}

theorem addressed_create {name : Option String} {data : UcisCoverData}
    {sourceinfo : Option UcisSourceInfo} (h : ∀ e ∈ x.covers, Addressed p x.db e)
    (ha : x.Allowed p (.createNextCover name data sourceinfo)) :
    ∀ e ∈ (x.step p (.createNextCover name data sourceinfo)).covers,
      Addressed p (x.step p (.createNextCover name data sourceinfo)).db e := by
  rw [step]
  cases hs : x.db.scopeAt p
  case none => exact h
  case some s =>
    have ⟨hlast, hlt⟩ := ha s hs
    have hs' := @scopeAt_modifyScope _ _ _
      (fun _ => (s.createNextCover name data sourceinfo).fst) hs
    intro e hm
    cases List.mem_append.mp hm
    case inl hm =>
      have ⟨t, ht, hi, hadd⟩ := addressed_iff.mp (h e hm)
      rw [hs] at ht
      cases ht
      exact addressed_iff.mpr ⟨_, hs', hi, hadd.createNextCover hlast⟩
    case inr hm =>
      cases List.mem_singleton.mp hm
      have ⟨hi, hadd⟩ := @createNextCover_addresses s name data sourceinfo hlast hlt
      refine addressed_iff.mpr ⟨_, hs', hi, ?_⟩
      rw [UInt64.add_zero]
      exact hadd

theorem toNat_index_inj {i j : Int32} (hi : 0 ≤ i) (hj : 0 ≤ j) :
    i.toInt.toNat = j.toInt.toNat ↔ i = j := by
  rw [Int32.le_iff_toInt_le] at hi hj
  constructor
  · intro h
    exact Int32.toInt_inj.mp ((Int.toNat_of_nonneg hi).symm.trans
      ((congrArg Int.ofNat h).trans (Int.toNat_of_nonneg hj)))
  · exact fun h => h ▸ rfl

theorem addressed_increment {coverindex : Int32} {increment : Int64}
    (h : ∀ e ∈ x.covers, Addressed p x.db e) :
    ∀ e ∈ (x.step p (.incrementCover coverindex increment)).covers,
      Addressed p (x.step p (.incrementCover coverindex increment)).db e := by
  rw [step]
  cases hs : (x.db.scopeAt p).bind (·.incrementCover coverindex increment)
  case none => exact h
  case some s' =>
    have ⟨s, hsp, hinc⟩ := Option.bind_eq_some_iff.mp hs
    have hs' := @scopeAt_modifyScope _ _ _ (fun _ => s') hsp
    have hidx : 0 ≤ coverindex := by
      by_contra hn
      rw [NcdbScope.incrementCover, NcdbScope.updateCover, if_pos (Int32.not_le.mp hn)] at hinc
      cases hinc
    intro e' hm
    have ⟨e, he, heq⟩ := List.mem_map.mp hm
    have ⟨t, ht, hi, hadd⟩ := addressed_iff.mp (h e he)
    rw [hsp] at ht
    cases ht
    have hadd' := hadd.updateCover hinc (g := fun k => (k.1, k.2 + increment.toUInt64))
      fun c c' hc => by
        split at hc
        case isTrue  => cases hc
        case isFalse => cases hc; rfl
    rw [← heq, IndexedCover.increment]
    by_cases hc : e.index = coverindex
    · rw [if_pos hc]
      rw [if_pos ((toNat_index_inj hi hidx).mpr hc)] at hadd'
      refine addressed_iff.mpr ⟨s', hs', hi, ?_⟩
      rw [← UInt64.add_assoc]
      exact hadd'
    · rw [if_neg hc]
      rw [if_neg fun hn => hc ((toNat_index_inj hi hidx).mp hn)] at hadd'
      exact addressed_iff.mpr ⟨s', hs', hi, hadd'⟩

theorem addressed_step {call : CoverCall} (h : ∀ e ∈ x.covers, Addressed p x.db e)
    (ha : x.Allowed p call) : ∀ e ∈ (x.step p call).covers, Addressed p (x.step p call).db e := by
  cases call
  case createNextCover name data sourceinfo => exact addressed_create h ha
  case incrementCover coverindex increment  => exact addressed_increment h
  case setCoverFlag coverindex mask bitvalue =>
    refine fun e hm => (steadyAt_callOn fun s s' hs => ?_).addressed (h e hm)
    exact .updateCover hs fun c c' hc => by cases hc; rfl
  case setIntProperty coverindex property value =>
    exact fun e hm => SteadyAt.addressed (steadyAt_setIntProperty coverindex property value) (h e hm)
  case setStringProperty coverindex property value =>
    exact fun e hm => SteadyAt.addressed (steadyAt_setStringProperty coverindex property value) (h e hm)
  case setScopeSourceInfo sourceinfo =>
    exact fun e hm => (steadyAt_callOn fun s s' hs => .updateData hs).addressed (h e hm)
  case reopen =>
    rw [step]
    cases hr : x.db.reread
    case none => exact h
    case some db =>
      have hroots := reread_roots hr ha.2
      have hst : SteadyAt p x.db db :=
        fun s hs => ⟨s.restored, scopeAt_restored hroots hs, .restored (ha.1 s hs)⟩
      exact fun e hm => hst.addressed (h e hm)

-- In every run that the condition allows, on any scope of any database, the index that was returned
-- for a cover addresses that cover, and its count is what it was created with and the sum of the
-- increments through its index.
theorem indices_stay_valid {db : Ncdb} (h : AllowedRun p ⟨db, []⟩ x) :
    ∀ e ∈ x.covers, Addressed p x.db e := by
  induction h
  case refl => nofun
  case step call _ ha hi => exact addressed_step hi ha

def run (p : NcdbScopePath) (db : Ncdb) (calls : List CoverCall) : IndexSession :=
  calls.foldl (step p) ⟨db, []⟩

-- An assertion next to a design unit.
def assertion : Ncdb where
  roots := [
    .mk { type := 0x1000000, name := "lib.m" } [] [],
    .mk { type := 0x20000, name := "my_assert" } [] []
  ]

def passBin (count : UInt64) : UcisCoverData where
  type  := 0x400
  flags := ucisIs64Bit ||| ucisHasCount
  data  := count

def failBin (count : UInt64) : UcisCoverData where
  type  := 0x4000
  flags := ucisIs64Bit ||| ucisHasCount
  data  := count

def passFail : List CoverCall := [
  .createNextCover "pass" (passBin 100) none,
  .createNextCover "fail" (failBin 2) none,
  .incrementCover 1 3,
  .reopen
]

theorem indices_stay_valid_passFail : (run ⟨1, []⟩ assertion passFail).covers.length = 2 ∧
    ∀ e ∈ (run ⟨1, []⟩ assertion passFail).covers,
      Addressed ⟨1, []⟩ (run ⟨1, []⟩ assertion passFail).db e := by
  have h₁ : AllowedRun ⟨1, []⟩ ⟨assertion, []⟩ (run ⟨1, []⟩ assertion (passFail.take 1)) :=
    .step (.createNextCover "pass" (passBin 100) none) (.refl _)
      (by rintro _ ⟨⟩; exact ⟨by decide, by decide⟩)
  have h₂ : AllowedRun ⟨1, []⟩ ⟨assertion, []⟩ (run ⟨1, []⟩ assertion (passFail.take 2)) :=
    .step (.createNextCover "fail" (failBin 2) none) h₁
      (by rintro _ ⟨⟩; exact ⟨by decide, by decide⟩)
  have h₃ : AllowedRun ⟨1, []⟩ ⟨assertion, []⟩ (run ⟨1, []⟩ assertion (passFail.take 3)) :=
    .step (.incrementCover 1 3) h₂ trivial
  have h₄ : AllowedRun ⟨1, []⟩ ⟨assertion, []⟩ (run ⟨1, []⟩ assertion passFail) :=
    .step .reopen h₃ ⟨by rintro _ ⟨⟩; exact ⟨by decide, by decide⟩,
      fun _ _ hd => absurd hd (by decide)⟩
  exact ⟨by decide +kernel, indices_stay_valid h₄⟩

-- A bin that passes after one that fails.
def passFailPass : List CoverCall := [
  .createNextCover "pass" (passBin 1) none,
  .createNextCover "fail" (failBin 2) none,
  .createNextCover "pass2" (passBin 3) none
]

-- The last cover is listed before the second, whose index it takes.
theorem passFailPass_index : ¬∀ calls, ∀ e ∈ (run ⟨1, []⟩ assertion calls).covers,
    Addressed ⟨1, []⟩ (run ⟨1, []⟩ assertion calls).db e := by
  intro h
  have hcovers : (run ⟨1, []⟩ assertion passFailPass).covers
      = [⟨0, ⟨none, 0⟩, "pass", 1, 0⟩, ⟨1, ⟨some 0, 0⟩, "fail", 2, 0⟩, ⟨2, ⟨none, 1⟩, "pass2", 3, 0⟩] := by
    decide +kernel
  have hview : ((run ⟨1, []⟩ assertion passFailPass).db.scopeAt ⟨1, []⟩).bind (·.logicalCoverAt 2)
      = some ⟨some 0, 0⟩ := by
    decide +kernel
  have ⟨s, hs, _, hl, _⟩ := h passFailPass ⟨2, ⟨none, 1⟩, "pass2", 3, 0⟩ (by rw [hcovers]; simp)
  rw [hs, Option.bind_some] at hview
  exact absurd (hl.symm.trans hview) (by decide)

end IndexSession
