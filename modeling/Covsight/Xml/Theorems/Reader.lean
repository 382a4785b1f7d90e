import Covsight.Lib.Call
import Covsight.Lib.Rearrangement
import Covsight.Xml.Reader
import Mathlib.Algebra.GroupWithZero.Nat

-- The type of a covergroup has the sums of its instances.

namespace XmlReader

section ReadAll

variable {σ α : Type} {read : Element → σ → Except XmlError (α × σ)} {es : List Element} {s s' : σ} {xs before : List α}

-- What each element is read as, and what is known after all of them.
theorem readAll_ok {r : Element → α → Prop} {p : List α → σ → Prop} (h : readAll read es s = .ok (xs, s'))
    (hp : p before s)
    (hs : ∀ before s e x s', p before s → read e s = .ok (x, s') → r e x ∧ p (before ++ [x]) s') :
    es.Forall₂ r xs ∧ p (before ++ xs) s' := by
  induction es generalizing before s xs with
  | nil          =>
    cases h
    rw [List.append_nil]
    exact ⟨.nil, hp⟩
  | cons e es hi =>
    have ⟨⟨x, s₁⟩, hx, h⟩ := bind_ok h
    have ⟨⟨xs, s₂⟩, hxs, h⟩ := bind_ok h
    cases h
    have ⟨hr, hp⟩ := hs before s e x s₁ hp hx
    have ⟨hrs, hp⟩ := hi hxs hp
    rw [List.append_assoc, List.singleton_append] at hp
    exact ⟨.cons hr hrs, hp⟩

end ReadAll

-- What a document says

structure ReadBin (int : String → Option Int) (e : Element) (b : CvgBin) : Prop where
  name  : b.name = getAttr e "name" "<unknown>"
  kind  : binKind (getAttr e "type" "default") = .ok b.kind
  count : ∃ contents, binContents e = .ok contents ∧ getAttrInt int contents "coverageCount" = .ok b.count

structure ReadCoverpoint (int : String → Option Int) (e : Element) (p : Coverpoint) : Prop where
  name : p.name = getAttr e "name" "<unknown>"
  bins : (e.iter "coverpointBin").Forall₂ (ReadBin int) p.bins

structure ReadCrossBin (int : String → Option Int) (e : Element) (b : CvgBin) : Prop where
  name  : b.name = getAttr e "name" "default"
  kind  : b.kind = .cvgBin
  count : ∃ contents, next e "contents" = .ok contents ∧ getAttrInt int contents "coverageCount" = .ok b.count

structure ReadCross (int : String → Option Int) (e : Element) (c : Cross Nat) : Prop where
  name : c.name = getAttr e "name" "<unknown>"
  bins : (e.iter "crossBin").Forall₂ (ReadCrossBin int) c.bins

structure ReadInstance (int : String → Option Int) (e : Element) (i : CoverInstance) : Prop where
  name        : i.name = getAttr e "name" "<unknown>"
  coverpoints : (e.iter "coverpoint").Forall₂ (ReadCoverpoint int) i.coverpoints
  crosses     : (e.iter "cross").Forall₂ (ReadCross int) i.crosses

-- Sums

-- The bins of all coverpoints of a name.
def binsOf (points : List Coverpoint) (name : String) : List CvgBin :=
  (points.filter (·.name = name)).flatMap (·.bins)

-- One coverpoint for each name, and in it one bin for each name, with the kind of the first and the counts of all.
structure SumOf (types points : List Coverpoint) : Prop where
  once    : (types.map (·.name)).Nodup
  names   : ∀ name, name ∈ types.map (·.name) ↔ name ∈ points.map (·.name)
  binOnce : ∀ p ∈ types, (p.bins.map (·.name)).Nodup
  bins    : ∀ p ∈ types, ∀ name, name ∈ p.bins.map (·.name) ↔ name ∈ (binsOf points p.name).map (·.name)
  count   : ∀ p ∈ types, ∀ b ∈ p.bins, b.count = (((binsOf points p.name).filter (·.name = b.name)).map (·.count)).sum
  kind    : ∀ p ∈ types, ∀ b ∈ p.bins, ((binsOf points p.name).find? (·.name = b.name)).map (·.kind) = some b.kind

-- The kind of the first and the counts of all bins of a name.
def totalOf (bins : List CvgBin) (name : String) : Option (CoverTypeT × Int) :=
  ((bins.find? (·.name = name)).map (·.kind)).map (·, ((bins.filter (·.name = name)).map (·.count)).sum)

theorem totalOf_concat (bins : List CvgBin) (b : CvgBin) (name : String) : totalOf (bins ++ [b]) name =
    if b.name = name then some (addCount (totalOf bins name) (b.kind, b.count)) else totalOf bins name := by
  simp only [totalOf, List.find?_append, List.filter_append, List.map_append, List.sum_append]
  by_cases h : b.name = name
  case pos =>
    cases hf : bins.find? (·.name = name) with
    | some b' => simp [h, addCount]
    | none    =>
      have hn : bins.filter (·.name = name) = [] :=
        List.filter_eq_nil_iff.mpr fun b' hb => List.find?_eq_none.mp hf b' hb
      simp [h, hn, addCount]
  case neg => simp [h]

theorem totalOf_isSome_iff {bins : List CvgBin} {name : String} :
    (totalOf bins name).isSome ↔ name ∈ bins.map (·.name) := by
  simp [totalOf, List.find?_isSome]

-- What is known of the bins of each name.
def Known (points : List Coverpoint) (bins : String → Option (String → Option (CoverTypeT × Int))) : Prop :=
  ∀ name, bins name = if name ∈ points.map (·.name) then some (totalOf (binsOf points name)) else none

theorem known_empty : Known [] fun _ => none :=
  fun _ => rfl

theorem binsOf_concat (points : List Coverpoint) (p : Coverpoint) (name : String) :
    binsOf (points ++ [p]) name = if p.name = name then binsOf points name ++ p.bins else binsOf points name := by
  rw [binsOf, List.filter_append, List.flatMap_append]
  by_cases h : p.name = name <;> simp [h, binsOf]

theorem binsOf_of_not_mem {points : List Coverpoint} {name : String} (h : name ∉ points.map (·.name)) :
    binsOf points name = [] := by
  have hn : points.filter (·.name = name) = [] :=
    List.filter_eq_nil_iff.mpr fun p hp he => h (of_decide_eq_true he ▸ List.mem_map_of_mem hp)
  rw [binsOf, hn, List.flatMap_nil]

namespace Known

variable {points : List Coverpoint} {bins bins' : String → Option (String → Option (CoverTypeT × Int))} {p : Coverpoint}

-- The bins that are known so far, if any.
theorem getD_eq (h : Known points bins) (name : String) :
    (bins name).getD (fun _ => none) = totalOf (binsOf points name) := by
  rw [h name]
  split
  case isTrue    => rfl
  case isFalse h => rw [binsOf_of_not_mem h]; rfl

theorem concat (h : Known points bins)
    (hb : ∀ name, bins' name = if p.name = name then some (totalOf (binsOf points name ++ p.bins)) else bins name) :
    Known (points ++ [p]) bins' := by
  intro name
  rw [hb name, binsOf_concat, h name, List.map_append, List.map_singleton]
  by_cases hn : p.name = name
  case pos => simp [hn]
  case neg => simp [hn, Ne.symm hn]

end Known

-- Reading

section Coverpoints

variable {int : String → Option Int} {e : Element} {typeBins typeBins' : TypeBins} {cps cps' : TypeCoverpoints}
  {b : CvgBin} {p : Coverpoint} {points : List Coverpoint} {bins : List CvgBin}

theorem readCoverpointBin_ok (h : readCoverpointBin int e typeBins = .ok (b, typeBins')) :
    ReadBin int e b ∧ typeBins' = typeBins.set b.name (addCount (typeBins.get? b.name) (b.kind, b.count)) := by
  have ⟨contents, hcontents, h⟩ := bind_ok h
  have ⟨kind, hkind, h⟩ := bind_ok h
  have ⟨count, hcount, h⟩ := bind_ok h
  cases h
  exact ⟨⟨rfl, hkind, contents, hcontents, hcount⟩, rfl⟩

theorem readCoverpointInst_ok (h : readCoverpointInst int e typeBins = .ok (p, typeBins'))
    (hb : ∀ name, typeBins.get? name = totalOf bins name) :
    ReadCoverpoint int e p ∧ ∀ name, typeBins'.get? name = totalOf (bins ++ p.bins) name := by
  have ⟨⟨bs, s⟩, hbins, h⟩ := bind_ok h
  cases h
  have hp : ∀ name, typeBins.get? name = totalOf (bins ++ []) name := (List.append_nil bins).symm ▸ hb
  have hall : (e.iter "coverpointBin").Forall₂ (ReadBin int) bs ∧ ∀ name, typeBins'.get? name = totalOf (bins ++ bs) name := by
    refine readAll_ok (p := fun bs s => ∀ name, s.get? name = totalOf (bins ++ bs) name) hbins hp ?_
    intro before s e b s' hs hr
    have ⟨hread, hset⟩ := readCoverpointBin_ok hr
    refine ⟨hread, fun name => ?_⟩
    rw [hset, Dict.get?_set, ← List.append_assoc, totalOf_concat, hs, hs]
    split
    case isTrue he => rw [he]
    case isFalse   => rfl
  exact ⟨⟨rfl, hall.left⟩, hall.right⟩

-- The bins of the coverpoints of a type.
def coverpointBins (cps : TypeCoverpoints) (name : String) : Option (String → Option (CoverTypeT × Int)) :=
  (cps.get? name).map (·.snd.get?)

theorem readCoverpoint_ok (h : readCoverpoint int e cps = .ok (p, cps')) (hk : Known points (coverpointBins cps)) :
    ReadCoverpoint int e p ∧ Known (points ++ [p]) (coverpointBins cps') := by
  have ⟨⟨options, typeBins⟩, htype, h⟩ := bind_ok h
  have ⟨⟨p', typeBins'⟩, hinst, h⟩ := bind_ok h
  have ⟨options', _, h⟩ := bind_ok h
  cases h
  have hbins : typeBins.get? = (coverpointBins cps (getAttr e "name" "<unknown>")).getD fun _ => none := by
    rw [typeCoverpoint] at htype
    rw [coverpointBins]
    cases hg : cps.get? (getAttr e "name" "<unknown>") with
    | some t => rw [hg] at htype; cases htype; rfl
    | none   =>
      rw [hg] at htype
      have ⟨_, _, he⟩ := map_ok htype
      cases he
      rfl
  rw [hk.getD_eq] at hbins
  have ⟨hp, hs⟩ := readCoverpointInst_ok hinst (congrFun hbins)
  refine ⟨⟨hp.name, hp.bins⟩, hk.concat fun name => ?_⟩
  rw [← hp.name] at hs
  rw [coverpointBins, coverpointBins, Dict.get?_set]
  split
  case isTrue he => exact congrArg some (he ▸ funext hs)
  case isFalse   => rfl

end Coverpoints

section Crosses

variable {int : String → Option Int} {e : Element} {typeBins typeBins' : Dict String Int} {crs crs' : TypeCrosses}
  {points : Dict String Nat} {cps : TypeCoverpoints} {b : CvgBin} {c : Cross Nat} {crosses : List Coverpoint}
  {bins : List CvgBin}

theorem readCrossBin_ok (h : readCrossBin int e typeBins = .ok (b, typeBins')) :
    ReadCrossBin int e b ∧ typeBins' = typeBins.set b.name ((typeBins.get? b.name).getD 0 + b.count) := by
  have ⟨contents, hcontents, h⟩ := bind_ok h
  have ⟨count, hcount, h⟩ := bind_ok h
  cases h
  exact ⟨⟨rfl, rfl, contents, hcontents, hcount⟩, rfl⟩

-- Bins of crosses are all of one kind.
def ofCounts (counts : Dict String Int) (name : String) : Option (CoverTypeT × Int) :=
  (counts.get? name).map (.cvgBin, ·)

theorem readCrossInst_ok (h : readCrossInst int e typeBins points = .ok (c, typeBins'))
    (hb : ∀ name, ofCounts typeBins name = totalOf bins name) :
    ReadCross int e c ∧ ∀ name, ofCounts typeBins' name = totalOf (bins ++ c.bins) name := by
  have ⟨coverpoints, _, h⟩ := bind_ok h
  have ⟨⟨bs, s⟩, hbins, h⟩ := bind_ok h
  cases h
  have hp : ∀ name, ofCounts typeBins name = totalOf (bins ++ []) name := (List.append_nil bins).symm ▸ hb
  have hall : (e.iter "crossBin").Forall₂ (ReadCrossBin int) bs ∧
      ∀ name, ofCounts typeBins' name = totalOf (bins ++ bs) name := by
    refine readAll_ok (p := fun bs s => ∀ name, ofCounts s name = totalOf (bins ++ bs) name) hbins hp ?_
    intro before s e b s' hs hr
    have ⟨hread, hset⟩ := readCrossBin_ok hr
    refine ⟨hread, fun name => ?_⟩
    rw [hset, ofCounts, Dict.get?_set, ← List.append_assoc, totalOf_concat, hread.kind, ← hs, ofCounts]
    by_cases he : b.name = name
    case pos =>
      subst he
      cases s.get? b.name <;> simp [addCount]
    case neg => rw [if_neg he, if_neg he]
  exact ⟨⟨rfl, hall.left⟩, hall.right⟩

def crossBins (crs : TypeCrosses) (name : String) : Option (String → Option (CoverTypeT × Int)) :=
  (crs.get? name).map fun t => ofCounts t.snd

theorem readCross_ok (h : readCross int cps points e crs = .ok (c, crs')) (hk : Known crosses (crossBins crs)) :
    ReadCross int e c ∧ Known (crosses ++ [c.toCoverpoint]) (crossBins crs') := by
  have ⟨⟨coverpoints, typeBins⟩, htype, h⟩ := bind_ok h
  have ⟨⟨c', typeBins'⟩, hinst, h⟩ := bind_ok h
  cases h
  have hbins : ofCounts typeBins = (crossBins crs (getAttr e "name" "<unknown>")).getD fun _ => none := by
    rw [typeCross] at htype
    rw [crossBins]
    cases hg : crs.get? (getAttr e "name" "<unknown>") with
    | some t => rw [hg] at htype; cases htype; rfl
    | none   =>
      rw [hg] at htype
      have ⟨_, _, he⟩ := map_ok htype
      cases he
      rfl
  rw [hk.getD_eq] at hbins
  have ⟨hp, hs⟩ := readCrossInst_ok hinst (congrFun hbins)
  refine ⟨hp, hk.concat fun name => ?_⟩
  rw [← hp.name] at hs
  rw [crossBins, crossBins, Dict.get?_set]
  split
  case isTrue he => exact congrArg some (he ▸ funext hs)
  case isFalse   => rfl

end Crosses

section Covergroups

variable {int : String → Option Int} {e : Element} {cps cps' : TypeCoverpoints} {crs crs' : TypeCrosses}
  {i : CoverInstance} {points crosses : List Coverpoint}

theorem readCoverInstance_ok (h : readCoverInstance int e (cps, crs) = .ok (i, cps', crs'))
    (hp : Known points (coverpointBins cps)) (hc : Known crosses (crossBins crs)) :
    ReadInstance int e i ∧ Known (points ++ i.coverpoints) (coverpointBins cps') ∧
      Known (crosses ++ i.crosses.map (·.toCoverpoint)) (crossBins crs') := by
  have ⟨options, _, h⟩ := bind_ok h
  have ⟨⟨coverpoints, cps₁⟩, hcps, h⟩ := bind_ok h
  have ⟨⟨cs, crs₁⟩, hcrs, h⟩ := bind_ok h
  cases h
  have hpoints : (e.iter "coverpoint").Forall₂ (ReadCoverpoint int) coverpoints ∧
      Known (points ++ coverpoints) (coverpointBins cps') := by
    have hp : Known (points ++ []) (coverpointBins cps) := (List.append_nil points).symm ▸ hp
    refine readAll_ok (p := fun ps s => Known (points ++ ps) (coverpointBins s)) hcps hp ?_
    intro before s e p s' hs hr
    rw [← List.append_assoc]
    exact readCoverpoint_ok hr hs
  have hcrosses : (e.iter "cross").Forall₂ (ReadCross int) cs ∧
      Known (crosses ++ cs.map (·.toCoverpoint)) (crossBins crs') := by
    have hc : Known (crosses ++ ([] : List (Cross Nat)).map (·.toCoverpoint)) (crossBins crs) :=
      (List.append_nil crosses).symm ▸ hc
    refine readAll_ok (p := fun cs s => Known (crosses ++ cs.map (·.toCoverpoint)) (crossBins s)) hcrs hc ?_
    intro before s e c s' hs hr
    rw [List.map_append, ← List.append_assoc]
    exact readCross_ok hr hs
  exact ⟨⟨rfl, hpoints.left, hcrosses.left⟩, hpoints.right, hcrosses.right⟩

-- Types that have all bins that are known.
theorem Known.sumOf {bins : String → Option (String → Option (CoverTypeT × Int))} {types : List Coverpoint}
    (h : Known points bins) (hn : (types.map (·.name)).Nodup)
    (hd : ∀ name, name ∈ types.map (·.name) ↔ (bins name).isSome)
    (hb : ∀ p ∈ types, (p.bins.map (·.name)).Nodup ∧ ∃ total, bins p.name = some total ∧
      (∀ name, name ∈ p.bins.map (·.name) ↔ (total name).isSome) ∧ ∀ b ∈ p.bins, total b.name = some (b.kind, b.count)) :
    SumOf types points := by
  have htotal : ∀ p ∈ types, ∀ total, bins p.name = some total → total = totalOf (binsOf points p.name) := by
    intro p hp total ht
    have hg := h.getD_eq p.name
    rwa [ht] at hg
  constructor
  case once    => exact hn
  case names   =>
    intro name
    rw [hd name, h name]
    split <;> simp_all
  case binOnce => exact fun p hp => (hb p hp).left
  case bins    =>
    intro p hp name
    obtain ⟨_, total, ht, hnames, _⟩ := hb p hp
    rw [hnames name, htotal p hp total ht, totalOf_isSome_iff]
  case count   =>
    intro p hp b hm
    obtain ⟨_, total, ht, _, hs⟩ := hb p hp
    have hs := hs b hm
    rw [htotal p hp total ht, totalOf] at hs
    obtain ⟨_, _, he⟩ := Option.map_eq_some_iff.mp hs
    exact (congrArg Prod.snd he).symm
  case kind    =>
    intro p hp b hm
    obtain ⟨_, total, ht, _, hs⟩ := hb p hp
    have hs := hs b hm
    rw [htotal p hp total ht, totalOf] at hs
    obtain ⟨_, hk, he⟩ := Option.map_eq_some_iff.mp hs
    exact hk.trans (congrArg some (congrArg Prod.fst he))

theorem Known.sumOf_coverpoints (h : Known points (coverpointBins cps)) :
    SumOf (cps.entries.map fun (name, options, bins) => populateCoverpointType name options bins) points := by
  have hnames : (cps.entries.map fun (name, options, bins) => populateCoverpointType name options bins).map (·.name) =
      cps.keys := by
    rw [List.map_map]
    rfl
  refine h.sumOf (hnames ▸ cps.keys_nodup) (fun name => ?_) (List.forall_mem_map.mpr ?_)
  case refine_1 =>
    rw [hnames, coverpointBins, Option.isSome_map, Dict.get?_isSome_iff]
    rfl
  case refine_2 =>
    rintro ⟨name, options, bins⟩ hm
    have hg : coverpointBins cps name = some bins.get? := by
      rw [coverpointBins, Dict.get?_eq_some_iff.mpr hm]
      rfl
    have hbins : (populateCoverpointType name options bins).bins.map (·.name) = bins.keys := by
      rw [populateCoverpointType, List.map_map]
      rfl
    refine ⟨hbins ▸ bins.keys_nodup, bins.get?, hg, fun bin => ?_, List.forall_mem_map.mpr fun b hb => ?_⟩
    case refine_1 => rw [hbins, Dict.get?_isSome_iff]; rfl
    case refine_2 => exact Dict.get?_eq_some_iff.mpr hb

theorem Known.sumOf_crosses (h : Known crosses (crossBins crs)) :
    SumOf ((crs.entries.map fun (name, coverpoints, bins) => populateCrossType name coverpoints bins).map
      (·.toCoverpoint)) crosses := by
  have hnames : ((crs.entries.map fun (name, coverpoints, bins) => populateCrossType name coverpoints bins).map
      (·.toCoverpoint)).map (·.name) = crs.keys := by
    rw [List.map_map, List.map_map]
    rfl
  refine h.sumOf (hnames ▸ crs.keys_nodup) (fun name => ?_) (List.forall_mem_map.mpr (List.forall_mem_map.mpr ?_))
  case refine_1 =>
    rw [hnames, crossBins, Option.isSome_map, Dict.get?_isSome_iff]
    rfl
  case refine_2 =>
    rintro ⟨name, coverpoints, bins⟩ hm
    have hg : crossBins crs name = some (ofCounts bins) := by
      rw [crossBins, Dict.get?_eq_some_iff.mpr hm]
      rfl
    have hbins : (populateCrossType name coverpoints bins).bins.map (·.name) = bins.keys := by
      rw [populateCrossType, List.map_map]
      rfl
    refine ⟨hbins ▸ bins.keys_nodup, ofCounts bins, hg, fun bin => ?_, List.forall_mem_map.mpr fun b hb => ?_⟩
    case refine_1 => rw [hbins, ofCounts, Option.isSome_map, Dict.get?_isSome_iff]; rfl
    case refine_2 => exact congrArg (Option.map _) (Dict.get?_eq_some_iff.mpr hb)

theorem readCovergroup_ok {name : String} {options : CvgOptions} {cgs : List Element} {t : Covergroup}
    (h : readCovergroup int name options cgs = .ok t) : t.name = name ∧ cgs.Forall₂ (ReadInstance int) t.instances ∧
      SumOf t.coverpoints (t.instances.flatMap (·.coverpoints)) ∧
      SumOf (t.crosses.map (·.toCoverpoint)) (t.instances.flatMap fun i => i.crosses.map (·.toCoverpoint)) := by
  have ⟨⟨instances, cps, crs⟩, hall, h⟩ := bind_ok h
  cases h
  have hall : cgs.Forall₂ (ReadInstance int) instances ∧ Known (instances.flatMap (·.coverpoints)) (coverpointBins cps) ∧
      Known (instances.flatMap fun i => i.crosses.map (·.toCoverpoint)) (crossBins crs) := by
    have hk : Known (([] : List CoverInstance).flatMap (·.coverpoints)) (coverpointBins ∅) := known_empty
    have hc : Known (([] : List CoverInstance).flatMap fun i => i.crosses.map (·.toCoverpoint)) (crossBins ∅) := known_empty
    refine readAll_ok (p := fun is s => Known (is.flatMap (·.coverpoints)) (coverpointBins s.fst) ∧
      Known (is.flatMap fun i => i.crosses.map (·.toCoverpoint)) (crossBins s.snd)) hall ⟨hk, hc⟩ ?_
    intro before s e i s' hs hr
    have ⟨hread, hp, hc⟩ := readCoverInstance_ok hr hs.left hs.right
    refine ⟨hread, ?_, ?_⟩
    · rwa [List.flatMap_append, List.flatMap_singleton]
    · rwa [List.flatMap_append, List.flatMap_singleton]
  exact ⟨rfl, hall.left, hall.right.left.sumOf_coverpoints, hall.right.right.sumOf_crosses⟩

end Covergroups

-- The types that a covergroup element gives: one for each name of a type, with the cover instances of that type, the
-- sums of their coverpoints and the sums of their crosses.
structure ReadTypes (int : String → Option Int) (cg : Element) (types : List Covergroup) : Prop where
  once        : (types.map (·.name)).Nodup
  names       : ∀ name, name ∈ types.map (·.name) ↔ name ∈ (cg.iter "cgInstance").map typeName
  instances   : ∀ t ∈ types, ((cg.iter "cgInstance").filter (typeName · = t.name)).Forall₂ (ReadInstance int) t.instances
  coverpoints : ∀ t ∈ types, SumOf t.coverpoints (t.instances.flatMap (·.coverpoints))
  crosses     : ∀ t ∈ types,
    SumOf (t.crosses.map (·.toCoverpoint)) (t.instances.flatMap fun i => i.crosses.map (·.toCoverpoint))

section Document

variable {int : String → Option Int}

theorem getD_typeInstances (cg : Element) (name : String) : ((typeInstances cg).get? name).getD [] =
    (cg.iter "cgInstance").filter (typeName · = name) := by
  rw [typeInstances, Dict.getD_upserts_append, List.filter_map, List.map_map]
  exact List.map_id _

theorem keys_typeInstances (cg : Element) (name : String) :
    name ∈ (typeInstances cg).keys ↔ name ∈ (cg.iter "cgInstance").map typeName := by
  rw [← Dict.mem_def, typeInstances, Dict.mem_upserts_iff, List.map_map]
  exact or_iff_right (Dict.not_mem_empty name)

theorem readCovergroups_ok {cg : Element} {types : List Covergroup} (h : readCovergroups int cg = .ok types) :
    ReadTypes int cg types := by
  have hall : (typeInstances cg).entries.Forall₂ (fun e t => t.name = e.fst ∧ e.snd.Forall₂ (ReadInstance int) t.instances ∧
      SumOf t.coverpoints (t.instances.flatMap (·.coverpoints)) ∧
      SumOf (t.crosses.map (·.toCoverpoint)) (t.instances.flatMap fun i => i.crosses.map (·.toCoverpoint))) types := by
    refine (mapM_ok h).imp fun e t ht => ?_
    obtain ⟨_, _, ht⟩ := bind_ok ht
    exact readCovergroup_ok ht
  have hnames : types.map (·.name) = (typeInstances cg).keys := by
    rw [Dict.keys, ← List.forall₂_eq_eq_eq, List.forall₂_map_left_iff, List.forall₂_map_right_iff]
    exact hall.flip.imp fun _ _ ht => ht.left
  constructor
  case once        => exact hnames ▸ (typeInstances cg).keys_nodup
  case names       => exact fun name => hnames ▸ keys_typeInstances cg name
  case instances   =>
    intro t ht
    obtain ⟨e, he, hn, hi, _⟩ := exists_mem_of_forall₂ hall.flip ht
    have hg := getD_typeInstances cg t.name
    rw [hn, Dict.get?_eq_some_iff.mpr he, Option.getD_some] at hg
    rwa [hn, ← hg]
  case coverpoints =>
    intro t ht
    obtain ⟨_, _, _, _, hp, _⟩ := exists_mem_of_forall₂ hall.flip ht
    exact hp
  case crosses     =>
    intro t ht
    obtain ⟨_, _, _, _, _, hc⟩ := exists_mem_of_forall₂ hall.flip ht
    exact hc

-- An instance has the types of each of its covergroup elements.
def ReadCoverage (int : String → Option Int) (e : Element) (inst : Instance) : Prop :=
  ∃ parts, (e.iter "covergroupCoverage").Forall₂ (ReadTypes int) parts ∧ inst.covergroups = parts.flatten

theorem readInstanceCoverage_ok {db db' : Database} {e : Element} (h : readInstanceCoverage int db e = .ok db') :
    ∃ inst, db'.instances = db.instances ++ [inst] ∧ ReadCoverage int e inst := by
  have ⟨name, _, h⟩ := bind_ok h
  have ⟨srcinfo, _, h⟩ := bind_ok h
  have ⟨parentId, _, h⟩ := bind_ok h
  have ⟨instanceId, _, h⟩ := bind_ok h
  have ⟨covergroups, hc, h⟩ := bind_ok h
  cases h
  exact ⟨_, rfl, covergroups, (mapM_ok hc).imp fun _ _ => readCovergroups_ok, rfl⟩

theorem readInstances_ok {es : List Element} {db db' : Database} (h : es.foldlM (readInstanceCoverage int) db = .ok db') :
    ∃ insts, db'.instances = db.instances ++ insts ∧ es.Forall₂ (ReadCoverage int) insts := by
  induction es generalizing db with
  | nil          =>
    cases h
    exact ⟨[], (List.append_nil _).symm, .nil⟩
  | cons e es hi =>
    have ⟨db₁, h₁, h⟩ := bind_ok h
    have ⟨inst, hinst, hr⟩ := readInstanceCoverage_ok h₁
    have ⟨insts, hinsts, hrs⟩ := hi h
    exact ⟨inst :: insts, by rw [hinsts, hinst, List.append_assoc, List.singleton_append], .cons hr hrs⟩

end Document

-- Documents

def element (tag : String) (attrib : List (String × String)) (children : List Element) : Element :=
  .mk tag (.ofList attrib) none children

-- An instance of one covergroup with one bin, which has a kind and a count.
def cgInstance (bin : String × String) : Element :=
  element "cgInstance" [("name", "i")] [
    element "cgId" [("cgName", "cg")] [],
    element "coverpoint" [("name", "p")] [
      element "coverpointBin" [("name", "b"), ("type", bin.fst)] [
        element "range" [] [element "contents" [("coverageCount", bin.snd)] []]]]]

def document (elements : List (List (String × String))) : Element :=
  element "UCIS" [] [
    element "instanceCoverages" [("name", "top")] <|
      elements.map fun bins => element "covergroupCoverage" [] (bins.map cgInstance)]

def smallInt (text : String) : Option Int :=
  (["0", "1", "2"].idxOf? text).map Int.ofNat

end XmlReader
