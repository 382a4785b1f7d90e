import Covsight.NcdbC.Theorems.ScopeTree
import Covsight.NcdbC.Theorems.WriteRead

-- Which databases of the C library keep the attributes and the tests of a cover on that cover.

-- Leaving out elements of a list that ascends.
section Ascending

variable {α : Type} {f : α → Nat} {p : α → Bool}

theorem lt_of_getElem?_tail {a : α} {as : List α} {i : Nat} {x z : α}
    (h : (a :: as).Pairwise fun a b => f a < f b) (hx : (a :: as)[i]? = some x) (hz : as[i]? = some z) :
    f x < f z := by
  have ⟨hi, hx⟩ := List.getElem?_eq_some_iff.mp hx
  have ⟨hi', hz⟩ := List.getElem?_eq_some_iff.mp hz
  have hlt := List.pairwise_iff_getElem.mp h i (i + 1) hi (Nat.succ_lt_succ hi') (Nat.lt_succ_self i)
  rwa [List.getElem_cons_succ, hx, hz] at hlt

-- Later elements move forward.
theorem le_of_getElem?_filter {xs : List α} {i : Nat} {x y : α} (h : xs.Pairwise fun a b => f a < f b)
    (hy : (xs.filter p)[i]? = some y) (hx : xs[i]? = some x) : f x ≤ f y := by
  induction xs generalizing i x
  case nil => cases hx
  case cons a as hi =>
    have has := (List.pairwise_cons.mp h).2
    rw [List.filter_cons] at hy
    split at hy
    case isTrue =>
      cases i
      case zero =>
        cases hx
        cases hy
        exact Nat.le_refl _
      case succ i => exact hi has hy hx
    case isFalse =>
      have ⟨hlt, _⟩ := List.getElem?_eq_some_iff.mp hy
      have hz := List.getElem?_eq_getElem (Nat.lt_of_lt_of_le hlt (List.length_filter_le ..))
      exact Nat.le_of_lt (Nat.lt_of_lt_of_le (lt_of_getElem?_tail h hx hz) (hi has hy hz))

-- A position keeps its element exactly when nothing up to it is left out.
theorem getElem?_filter_eq_iff {xs : List α} {i : Nat} (h : xs.Pairwise fun a b => f a < f b)
    (hi : i < xs.length) :
    ((xs.filter p).map f)[i]? = (xs.map f)[i]? ↔ ∀ x ∈ xs.take (i + 1), p x := by
  induction xs generalizing i
  case nil => cases hi
  case cons a as hind =>
    have has := (List.pairwise_cons.mp h).2
    rw [List.filter_cons, List.take_succ_cons, List.forall_mem_cons]
    split
    case isTrue hp =>
      rw [List.map_cons, List.map_cons]
      cases i
      case zero   => simp [hp]
      case succ i =>
        rw [List.getElem?_cons_succ, List.getElem?_cons_succ, hind has (Nat.lt_of_succ_lt_succ hi)]
        exact (and_iff_right hp).symm
    case isFalse hp =>
      refine iff_of_false (fun he => ?_) fun hall => hp hall.1
      have hx := List.getElem?_eq_getElem hi
      rw [List.getElem?_map, List.getElem?_map, hx, Option.map_some, Option.map_eq_some_iff] at he
      have ⟨y, hy, he⟩ := he
      have ⟨hlt, _⟩ := List.getElem?_eq_some_iff.mp hy
      have hz := List.getElem?_eq_getElem (Nat.lt_of_lt_of_le hlt (List.length_filter_le ..))
      have hle := le_of_getElem?_filter has hy hz
      have hlt := lt_of_getElem?_tail h hx hz
      omega

end Ascending

namespace Ncdb

-- The history nodes that have a slot, with their positions.
def realTests (db : Ncdb) : List (NcdbHistoryNode × Nat) :=
  db.historyNodes.zipIdx.filter fun (h, _) => h.kind ≠ ncdbHistoryMerge

-- Up to the test of a slot, none has a kind that a byte takes for a merge.
def KeepsSlot (db : Ncdb) (slot : Nat) : Prop :=
  ∀ x ∈ db.realTests.take (slot + 1), x.fst.kind.toUInt8.toUInt32 ≠ ncdbHistoryMerge

theorem slotToHist_eq (db : Ncdb) : db.slotToHist = db.realTests.map Prod.snd :=
  rfl

theorem realTests_ascending (db : Ncdb) : db.realTests.Pairwise fun a b => a.snd < b.snd := by
  have hp : db.historyNodes.zipIdx.Pairwise fun a b => a.snd < b.snd := by
    rw [← List.pairwise_map (f := Prod.snd), List.zipIdx_map_snd]
    exact List.pairwise_lt_range'
  exact hp.filter _

-- The slots of the history as it is read back.
theorem slotToHist_read {db read : Ncdb}
    (h : read.historyNodes.map (·.kind) = db.historyNodes.map (·.kind.toUInt8.toUInt32)) :
    read.slotToHist = (db.realTests.filter fun (h, _) =>
      h.kind.toUInt8.toUInt32 ≠ ncdbHistoryMerge).map Prod.snd := by
  have hkinds : ∀ d : Ncdb, d.slotToHist
      = ((d.historyNodes.map (·.kind)).zipIdx.filter (·.fst ≠ ncdbHistoryMerge)).map Prod.snd := by
    intro d
    rw [List.zipIdx_map, List.filter_map, List.map_map]
    rfl
  rw [hkinds, h, List.zipIdx_map, List.filter_map, List.map_map, realTests, List.filter_filter]
  refine congrArg (List.map Prod.snd) <| List.filter_congr fun x _ => ?_
  by_cases hm : x.fst.kind = ncdbHistoryMerge
  case pos => simp [hm]; decide
  case neg => simp [hm]

variable {db read : Ncdb} {slot : Nat}

theorem slotToHist_read_eq_iff (h : db.ReadBack read) (hs : slot < db.slotToHist.length) :
    read.slotToHist[slot]? = db.slotToHist[slot]? ↔ db.KeepsSlot slot := by
  rw [slotToHist_read h.history, slotToHist_eq, KeepsSlot]
  rw [slotToHist_eq, List.length_map] at hs
  refine (getElem?_filter_eq_iff db.realTests_ascending hs).trans ?_
  simp

-- A slot is not read as the one of an earlier test.
theorem le_of_slotToHist_read {slot' n : Nat} (h : db.ReadBack read) (hs : slot < db.slotToHist.length)
    (hr : read.slotToHist[slot]? = some n) (hd : db.slotToHist[slot']? = some n) : slot ≤ slot' := by
  rw [slotToHist_eq, List.length_map] at hs
  rw [slotToHist_read h.history, List.getElem?_map] at hr
  rw [slotToHist_eq, List.getElem?_map] at hd
  have ⟨y, hy, hyn⟩ := Option.map_eq_some_iff.mp hr
  have ⟨z, hz, hzn⟩ := Option.map_eq_some_iff.mp hd
  have ⟨hi, hz⟩ := List.getElem?_eq_some_iff.mp hz
  have hle := le_of_getElem?_filter db.realTests_ascending hy (List.getElem?_eq_getElem hs)
  by_contra hlt
  have hlt := List.pairwise_iff_getElem.mp db.realTests_ascending slot' slot hi hs (Nat.lt_of_not_le hlt)
  rw [hz] at hlt
  omega

-- The attributes and the positions of the tests of the covers of a name.
def attached (db : Ncdb) (cs : List NcdbCover) (name : String) :
    List (List NcdbAttr × List (Option Nat)) :=
  (cs.filter (·.name = name)).map fun c => (c.attrs, c.assoc.map (db.slotToHist[·]?))

-- The scopes have the same paths, and the covers of every name the same attributes and tests.
structure SameAttached (db read : Ncdb) : Prop where
  paths    : NcdbScope.pathsAll [] read.roots = NcdbScope.pathsAll [] db.roots
  attached : List.Forall₂ (fun cs cs' => ∀ name, read.attached cs' name = db.attached cs name)
    (db.dfsFlatten.map (·.covers)) (read.dfsFlatten.map (·.covers))

-- Every table of attributes of a cover has one entry for a key.
def CoverAttrsFormed (db : Ncdb) : Prop :=
  ∀ c ∈ db.flattenCovers, AttrsFormed c.attrs

end Ncdb

-- The covers of a toggle pair that starts with the transition to zero change places.
def NcdbScope.PairAlike (s : NcdbScope) : Prop :=
  s.isTogglePair → s.covers.head?.map (·.name) = some ncdbToggleBin1To0 →
    ∀ c ∈ s.covers, ∀ c' ∈ s.covers, c.attrs = c'.attrs ∧ c.assoc = c'.assoc

namespace NcdbScope

variable {s : NcdbScope}

-- The name, the attributes and the slots of a cover.
def coverKey (c : NcdbCover) : String × List NcdbAttr × List Nat :=
  (c.name, c.attrs, c.assoc)

theorem map_carried (hf : ∀ c ∈ s.covers, AttrsFormed c.attrs) :
    s.carried.map coverKey = List.zipWith (fun c c' => (c.name, c'.attrs, c'.assoc)) s.readCovers s.covers := by
  rw [carried, List.map_zipWith]
  refine List.ext_getElem (by simp) fun i hi hi' => ?_
  have hi'' : i < s.covers.length := by
    rw [List.length_zipWith] at hi
    omega
  have hc := (s.attached_readCovers _ (List.getElem_mem (s.length_readCovers.symm ▸ hi''))).1
  have ht := @readTableInto_append [] _ (hf _ (List.getElem_mem hi''))
  simp [coverKey, NcdbCover.withAssoc, NcdbCover.putAttrs, hc]
  exact ht

theorem readCovers_of_isTogglePair (h : s.isTogglePair) : ∃ c₁ c₂,
    s.readCovers = [c₁, c₂] ∧ c₁.name = ncdbToggleBin0To1 ∧ c₂.name = ncdbToggleBin1To0 := by
  have ⟨d, cs, ss⟩ := s
  rw [readCovers, restored, if_pos h]
  exact ⟨_, _, rfl, rfl, rfl⟩

theorem readCovers_names (h : s.isTogglePair → s.covers.head?.map (·.name) = some ncdbToggleBin0To1) :
    s.readCovers.map (·.name) = s.covers.map (·.name) := by
  by_cases ht : s.isTogglePair
  case pos =>
    have ⟨_, _, hr, h₁, h₂⟩ := readCovers_of_isTogglePair ht
    have ⟨_, _, c₁, c₂, hc, _, _, hn⟩ := covers_of_isTogglePair ht
    have hh := h ht
    rw [hc, List.head?_cons, Option.map_some, Option.some_inj] at hh
    have hne : ncdbToggleBin0To1 ≠ ncdbToggleBin1To0 := by decide
    have hn := hn.resolve_right fun hn => hne (hh ▸ hn.1)
    simp [hr, hc, h₁, h₂, hn.1, hn.2]
  case neg =>
    have ⟨d, cs, ss⟩ := s
    rw [readCovers, restored, if_neg ht]
    cases cs
    case nil  => rfl
    case cons => simp [covers, restoredCovers, NcdbCover.restored]

-- Outside of reversed pairs the covers are read back in their order.
theorem map_carried_of_ordered (hf : ∀ c ∈ s.covers, AttrsFormed c.attrs)
    (h : s.isTogglePair → s.covers.head?.map (·.name) = some ncdbToggleBin0To1) :
    s.carried.map coverKey = s.covers.map coverKey := by
  have hnames := readCovers_names h
  rw [map_carried hf]
  refine List.ext_getElem (by simp [s.length_readCovers]) fun i hi hi' => ?_
  have hn := List.getElem_of_eq hnames (i := i) (by simp at hi ⊢; exact hi.1)
  simp at hn
  simp [coverKey, hn]

theorem map_carried_of_reversed (hf : ∀ c ∈ s.covers, AttrsFormed c.attrs) (ht : s.isTogglePair)
    (h : s.covers.head?.map (·.name) = some ncdbToggleBin1To0) :
    ∃ c₁ c₂, s.covers = [c₁, c₂] ∧ c₁.name = ncdbToggleBin1To0 ∧ c₂.name = ncdbToggleBin0To1 ∧
      s.carried.map coverKey
        = [(ncdbToggleBin0To1, c₁.attrs, c₁.assoc), (ncdbToggleBin1To0, c₂.attrs, c₂.assoc)] := by
  have ⟨_, _, hr, h₁, h₂⟩ := readCovers_of_isTogglePair ht
  have ⟨_, _, c₁, c₂, hc, _, _, hn⟩ := covers_of_isTogglePair ht
  rw [hc, List.head?_cons, Option.map_some, Option.some_inj] at h
  have hne : ncdbToggleBin1To0 ≠ ncdbToggleBin0To1 := by decide
  have hn := hn.resolve_left fun hn => hne (h ▸ hn.1)
  refine ⟨c₁, c₂, hc, hn.1, hn.2, ?_⟩
  rw [map_carried hf, hr, hc]
  simp [h₁, h₂]

end NcdbScope

namespace NcdbScope

theorem length_putNodesAll (new : List NcdbScopeNode) (ss : List NcdbScope) :
    (putNodesAll new ss).length = ss.length := by
  induction ss generalizing new
  case nil          => rfl
  case cons s ss hi => exact congrArg Nat.succ (hi _)

theorem length_putCoversAll (new : List NcdbCover) (ss : List NcdbScope) :
    (putCoversAll new ss).length = ss.length := by
  induction ss generalizing new
  case nil          => rfl
  case cons s ss hi => exact congrArg Nat.succ (hi _)

mutual

theorem lt_length_of_mem_paths : (s : NcdbScope) → (above : List String) →
    ∀ p ∈ s.paths above, above.length < p.length
  | mk d cs ss, above, p, hp => by
    rw [paths] at hp
    cases hp
    case head => simp
    case tail hp =>
      have hl := lt_length_of_mem_pathsAll ss (above ++ [d.name]) p hp
      rw [List.length_append] at hl
      exact Nat.lt_of_le_of_lt (Nat.le_add_right ..) hl

theorem lt_length_of_mem_pathsAll : (ss : List NcdbScope) → (above : List String) →
    ∀ p ∈ pathsAll above ss, above.length < p.length
  | [],      above, p, hp => by cases hp
  | s :: ss, above, p, hp => by
    cases List.mem_append.mp hp
    case inl hp => exact lt_length_of_mem_paths s above p hp
    case inr hp => exact lt_length_of_mem_pathsAll ss above p hp

end

theorem countP_pathsAll (ss : List NcdbScope) (above : List String) :
    (pathsAll above ss).countP (·.length = above.length + 1) = ss.length := by
  induction ss
  case nil => rfl
  case cons s ss hi =>
    obtain ⟨d, cs, ts⟩ := s
    have ht : (pathsAll (above ++ [d.name]) ts).countP (·.length = above.length + 1) = 0 := by
      refine List.countP_eq_zero.mpr fun p hp => ?_
      have hl := lt_length_of_mem_pathsAll ts _ p hp
      rw [List.length_append, List.length_singleton] at hl
      simp [Nat.ne_of_gt hl]
    rw [pathsAll, paths, List.countP_append, hi, List.countP_cons_of_pos (by simp), ht,
      List.length_cons, Nat.zero_add, Nat.add_comm]

end NcdbScope

namespace Ncdb

variable {db read : Ncdb} {s : NcdbScope}

-- Two covers that have each other's tests after reading have the same slots.
theorem assoc_eq_of_exchanged {as bs : List Nat} (h : db.ReadBack read)
    (ha : ∀ a ∈ as, a < db.slotToHist.length) (hb : ∀ b ∈ bs, b < db.slotToHist.length)
    (hab : as.map (read.slotToHist[·]?) = bs.map (db.slotToHist[·]?))
    (hba : bs.map (read.slotToHist[·]?) = as.map (db.slotToHist[·]?)) : as = bs := by
  induction as generalizing bs
  case nil => exact (List.map_eq_nil_iff.mp hab.symm).symm
  case cons a as hi =>
    cases bs
    case nil => cases hab
    case cons b bs =>
      have ⟨ha₁, ha⟩ := List.forall_mem_cons.mp ha
      have ⟨hb₁, hb⟩ := List.forall_mem_cons.mp hb
      have ⟨hab₁, hab⟩ := List.cons.inj hab
      have ⟨hba₁, hba⟩ := List.cons.inj hba
      have hga := List.getElem?_eq_getElem ha₁
      have hgb := List.getElem?_eq_getElem hb₁
      have hle := le_of_slotToHist_read h ha₁ (hab₁.trans hgb) hgb
      have hge := le_of_slotToHist_read h hb₁ (hba₁.trans hga) hga
      rw [Nat.le_antisymm hle hge, hi ha hb hab hba]

-- What is attached is told by the names, the attributes and the slots of the covers.
theorem attached_eq (db : Ncdb) (cs : List NcdbCover) (name : String) :
    db.attached cs name = ((cs.map NcdbScope.coverKey).filter (·.fst = name)).map
      fun k => (k.snd.fst, k.snd.snd.map (db.slotToHist[·]?)) := by
  rw [attached, List.filter_map, List.map_map]
  rfl

theorem map_slotToHist_read_iff {slots : List Nat} (h : db.ReadBack read)
    (hs : ∀ slot ∈ slots, slot < db.slotToHist.length) :
    slots.map (read.slotToHist[·]?) = slots.map (db.slotToHist[·]?) ↔
      ∀ slot ∈ slots, db.KeepsSlot slot := by
  rw [List.map_inj_left]
  exact forall₂_congr fun slot hm => slotToHist_read_eq_iff h (hs slot hm)

-- What it takes for two covers that changed places to keep what is attached to them.
theorem attached_exchanged_iff {c₁ c₂ : NcdbCover} (hc : s.covers = [c₁, c₂])
    (h₁ : c₁.name = ncdbToggleBin1To0) (h₂ : c₂.name = ncdbToggleBin0To1)
    (hk : s.carried.map NcdbScope.coverKey
      = [(ncdbToggleBin0To1, c₁.attrs, c₁.assoc), (ncdbToggleBin1To0, c₂.attrs, c₂.assoc)]) :
    (∀ name, read.attached s.carried name = db.attached s.covers name) ↔
      c₁.attrs = c₂.attrs ∧
      c₁.assoc.map (read.slotToHist[·]?) = c₂.assoc.map (db.slotToHist[·]?) ∧
      c₂.assoc.map (read.slotToHist[·]?) = c₁.assoc.map (db.slotToHist[·]?) := by
  have hne : ncdbToggleBin0To1 ≠ ncdbToggleBin1To0 := by decide
  simp only [attached_eq, hk, hc, List.map_cons, List.map_nil, NcdbScope.coverKey, h₁, h₂]
  constructor
  case mp =>
    intro h
    have h01 := h ncdbToggleBin0To1
    have h10 := h ncdbToggleBin1To0
    simp [hne, hne.symm] at h01 h10
    exact ⟨h01.1, h01.2, h10.2⟩
  case mpr =>
    intro ⟨ha, h₁₂, h₂₁⟩ name
    by_cases h01 : name = ncdbToggleBin0To1
    case pos => simp [h01, hne.symm, ha, h₁₂]
    case neg =>
      by_cases h10 : name = ncdbToggleBin1To0
      case pos => simp [h10, hne, ha, h₂₁]
      case neg => simp [Ne.symm h01, Ne.symm h10]

-- A scope keeps what is attached to its covers unless they change places or a slot changes its test.
theorem attached_carried_iff (h : db.ReadBack read) (hf : ∀ c ∈ s.covers, AttrsFormed c.attrs)
    (hs : ∀ c ∈ s.covers, ∀ slot ∈ c.assoc, slot < db.slotToHist.length) :
    (∀ name, read.attached s.carried name = db.attached s.covers name) ↔
      s.PairAlike ∧ ∀ c ∈ s.covers, ∀ slot ∈ c.assoc, db.KeepsSlot slot := by
  by_cases ht : s.isTogglePair ∧ s.covers.head?.map (·.name) = some ncdbToggleBin1To0
  case neg =>
    have hord : s.isTogglePair → s.covers.head?.map (·.name) = some ncdbToggleBin0To1 := by
      intro hp
      have ⟨_, _, c₁, c₂, hc, _, _, hn⟩ := NcdbScope.covers_of_isTogglePair hp
      rw [hc, List.head?_cons, Option.map_some, Option.some_inj] at ht ⊢
      exact (hn.resolve_right fun hn => ht ⟨hp, hn.1⟩).1
    have halike : s.PairAlike := fun hp hr => absurd ⟨hp, hr⟩ ht
    have hkey := NcdbScope.map_carried_of_ordered hf hord
    rw [and_iff_right halike]
    constructor
    case mp =>
      intro hall c hm
      have hn := hall c.name
      rw [attached_eq, hkey, ← attached_eq, attached, attached, List.map_inj_left] at hn
      have hc := hn c (List.mem_filter.mpr ⟨hm, decide_eq_true rfl⟩)
      exact (map_slotToHist_read_iff h (hs c hm)).mp (Prod.mk.inj hc).2
    case mpr =>
      intro hall name
      rw [attached_eq, hkey, ← attached_eq, attached, attached, List.map_inj_left]
      intro c hm
      have hm := (List.mem_filter.mp hm).1
      rw [(map_slotToHist_read_iff h (hs c hm)).mpr (hall c hm)]
  case pos =>
    have ⟨c₁, c₂, hc, h₁, h₂, hkey⟩ := NcdbScope.map_carried_of_reversed hf ht.1 ht.2
    have halike : s.PairAlike ↔ c₁.attrs = c₂.attrs ∧ c₁.assoc = c₂.assoc := by
      rw [NcdbScope.PairAlike, hc]
      constructor
      case mp  => exact fun hp => hp ht.1 (by simp [h₁]) c₁ (.head _) c₂ (.tail _ (.head _))
      case mpr =>
        intro ⟨ha, hs⟩ _ _
        simp [ha, hs]
    have hs₁ := hs c₁ (hc ▸ .head _)
    have hs₂ := hs c₂ (hc ▸ .tail _ (.head _))
    rw [attached_exchanged_iff hc h₁ h₂ hkey, halike, hc, List.forall_mem_cons, List.forall_mem_singleton]
    constructor
    case mp =>
      intro ⟨ha, h₁₂, h₂₁⟩
      have he := assoc_eq_of_exchanged h hs₁ hs₂ h₁₂ h₂₁
      have hk := (map_slotToHist_read_iff h hs₁).mp (h₁₂.trans (by rw [he]))
      exact ⟨⟨ha, he⟩, hk, he ▸ hk⟩
    case mpr =>
      intro ⟨⟨ha, he⟩, hk, _⟩
      have hk := (map_slotToHist_read_iff h hs₁).mpr hk
      exact ⟨ha, he ▸ hk, he ▸ hk⟩

theorem sameAttached_iff (h : db.ReadBack read) :
    db.SameAttached read ↔
      ∀ s ∈ db.dfsFlatten, ∀ name, read.attached s.carried name = db.attached s.covers name := by
  have hall : List.Forall₂ (fun cs cs' => ∀ name, read.attached cs' name = db.attached cs name)
      (db.dfsFlatten.map (·.covers)) (read.dfsFlatten.map (·.covers)) ↔
      ∀ s ∈ db.dfsFlatten, ∀ name, read.attached s.carried name = db.attached s.covers name := by
    rw [h.covers, List.forall₂_map_left_iff, List.forall₂_map_right_iff, List.forall₂_same]
  exact ⟨fun hs => hall.mp hs.attached, fun hs => ⟨h.paths, hall.mpr hs⟩⟩

theorem SameAttached.map_attached (h : db.SameAttached read) (name : String) :
    (read.dfsFlatten.map fun s => read.attached s.covers name)
      = db.dfsFlatten.map fun s => db.attached s.covers name := by
  have ha := h.attached
  rw [List.forall₂_map_left_iff, List.forall₂_map_right_iff] at ha
  generalize db.dfsFlatten = ss, read.dfsFlatten = ts at ha
  induction ha
  case nil => rfl
  case cons hs _ hi => rw [List.map_cons, List.map_cons, hs name, hi]

-- Paths tell the number of roots.
theorem length_roots_of_paths
    (h : NcdbScope.pathsAll [] read.roots = NcdbScope.pathsAll [] db.roots) :
    read.roots.length = db.roots.length := by
  rw [← NcdbScope.countP_pathsAll read.roots [], h, NcdbScope.countP_pathsAll]

theorem length_roots_attrsDeserialize (db : Ncdb) (m : NatrMember) :
    (db.attrsDeserialize m).roots.length = db.roots.length :=
  NcdbScope.length_putNodesAll ..

theorem length_roots_testsAssocDeserialize (db : Ncdb) (data : List UInt8) :
    (db.testsAssocDeserialize data).fst.roots.length = db.roots.length := by
  rw [testsAssocDeserialize]
  split
  case h_1 => rfl
  case h_2 =>
    simp only
    split
    case isTrue  => rfl
    case isFalse => exact NcdbScope.length_putCoversAll ..

-- Where a stream is cut short, there are fewer roots.
theorem length_roots_read {m : NcdbMembers} (hw : db.write = some m)
    (hc : ¬db.TrailerClear m.tree.data) (hr : Ncdb.read m = some read) :
    read.roots.length < db.roots.length := by
  have ⟨tree, ht, hm⟩ := Option.map_eq_some_iff.mp hw
  cases hm
  have ⟨roots, hroots, hr⟩ := Option.bind_eq_some_iff.mp hr
  cases hr
  rw [length_roots_testsAssocDeserialize, length_roots_attrsDeserialize]
  exact (scopeTreeDeserialize_scopeTreeSerialize ht).2 hc roots hroots

-- Scopes and covers that were written and read keep what is attached to every cover exactly when no
-- toggle pair that starts with the transition to zero has unlike covers, every slot in use keeps its
-- test, and the end of the stream is not mistaken for a trailer.
theorem attachments_kept_iff {m : NcdbMembers} (hf : db.AssocFormed) (ha : db.CoverAttrsFormed)
    (hw : db.write = some m) :
    (∃ read, Ncdb.read m = some read ∧ db.SameAttached read) ↔
      (∀ s ∈ db.dfsFlatten, s.PairAlike) ∧
      (∀ c ∈ db.flattenCovers, ∀ slot ∈ c.assoc, db.KeepsSlot slot) ∧
      db.TrailerClear m.tree.data := by
  by_cases hc : db.TrailerClear m.tree.data
  case neg =>
    refine iff_of_false (fun ⟨read, hr, hsame⟩ => ?_) fun h => hc h.2.2
    have hl := length_roots_of_paths hsame.paths
    exact absurd hl (Nat.ne_of_lt (length_roots_read hw hc hr))
  case pos =>
    have ⟨read, hr, hback⟩ := readBack_of_write hf hw hc
    have hsame : (∃ read, Ncdb.read m = some read ∧ db.SameAttached read) ↔ db.SameAttached read := by
      rw [hr]
      simp
    rw [hsame, sameAttached_iff hback]
    have hscope : ∀ s ∈ db.dfsFlatten, (∀ name, read.attached s.carried name = db.attached s.covers name) ↔
        s.PairAlike ∧ ∀ c ∈ s.covers, ∀ slot ∈ c.assoc, db.KeepsSlot slot := by
      intro s hs
      have hm : ∀ c ∈ s.covers, c ∈ db.flattenCovers := fun c hm => List.mem_flatMap.mpr ⟨s, hs, hm⟩
      exact attached_carried_iff hback (fun c hc => ha c (hm c hc)) fun c hc => (hf.covers c (hm c hc)).real
    rw [forall₂_congr hscope]
    simp only [flattenCovers, List.mem_flatMap]
    grind

-- A clock whose two covers were created in the order of their names, one with an attribute and the
-- other hit by a test.
def clockPair (names : String × String) : Ncdb where
  roots        := [.mk { type := ncdbScopeBranch, name := "clk" } [
    { NcdbCover.create ncdbCoverToggleBin names.fst 4 with attrs := [⟨"waived", .int32 1⟩] },
    { NcdbCover.create ncdbCoverToggleBin names.snd 7 with assoc := [0] }] []]
  historyNodes := [{ kind := ncdbHistoryTest }]

def orderedClock : Ncdb :=
  clockPair (ncdbToggleBin0To1, ncdbToggleBin1To0)

def orderedMembers : NcdbMembers :=
  orderedClock.write.get rfl

theorem attachments_kept_iff_orderedClock :
    ∃ read, Ncdb.read orderedMembers = some read ∧ orderedClock.SameAttached read := by
  have hslots : orderedClock.slotToHist = [0] := rfl
  have hcovers : ∀ c ∈ orderedClock.flattenCovers, c.assoc = [] ∨ c.assoc = [0] := by decide
  have hf : orderedClock.AssocFormed := by
    refine ⟨by rw [hslots]; decide, fun c hm => ?_⟩
    cases hcovers c hm <;> exact ⟨by simp [*], by simp [*]⟩
  have ha : ∀ c ∈ orderedClock.flattenCovers, (c.attrs.map (·.key)).Nodup := by decide
  refine (attachments_kept_iff hf ha (Option.some_get _).symm).mpr ⟨?_, ?_, ?_⟩
  · intro s hs _ hr
    have hn : ∀ s ∈ orderedClock.dfsFlatten, s.covers.head?.map (·.name) ≠ some ncdbToggleBin1To0 := by
      decide
    exact absurd hr (hn s hs)
  · have hk : ∀ c ∈ orderedClock.flattenCovers, ∀ slot ∈ c.assoc,
        ∀ x ∈ orderedClock.realTests.take (slot + 1), x.fst.kind.toUInt8.toUInt32 ≠ ncdbHistoryMerge := by
      decide
    exact hk
  · exact fun _ => rfl

-- The other way around, the test goes with the attribute's cover.
def reversedClock : Ncdb :=
  clockPair (ncdbToggleBin1To0, ncdbToggleBin0To1)

def reversedMembers : NcdbMembers :=
  reversedClock.write.get rfl

theorem attachments_exchanged : reversedClock.write = some reversedMembers ∧
    ¬∃ read, Ncdb.read reversedMembers = some read ∧ reversedClock.SameAttached read := by
  refine ⟨(Option.some_get _).symm, fun ⟨read, hr, hs⟩ => ?_⟩
  have hread : (Ncdb.read reversedMembers).map (fun read =>
      read.dfsFlatten.map fun s => read.attached s.covers ncdbToggleBin0To1)
        = some [[([⟨"waived", .int32 1⟩], [])]] := rfl
  rw [hr, Option.map_some, hs.map_attached] at hread
  revert hread
  decide

end Ncdb
