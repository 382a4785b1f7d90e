import Covsight.NcdbC.TestsAssoc
import Covsight.NcdbC.Theorems.ScopeTreeCodec

-- The slots of the covers are read back as they were written.

namespace NtasTier

theorem length_pack (tiers : List NtasTier) : (pack tiers).length = (tiers.length + 3) / 4 := by
  fun_induction pack tiers
  case case5 a b c d tiers hi =>
    simp only [List.length_cons, hi]
    omega
  all_goals simp

-- The covers of a byte, of which there may be fewer than four.
theorem unpack_four {n : Nat} (h : n ≤ 4) (x : UInt8) (bytes : List UInt8) : unpack n (x :: bytes)
    = [ofBits (x &&& 3), ofBits (x >>> 2 &&& 3), ofBits (x >>> 4 &&& 3), ofBits (x >>> 6 &&& 3)].take n := by
  match n with
  | 0 | 1 | 2 | 3 | 4 => simp [unpack, List.range_succ]
  | n + 5             => omega

theorem unpack_byte (a b c d : NtasTier) (n : Nat) (bytes : List UInt8) :
    unpack (4 + n) ((a.toBits ||| b.toBits <<< 2 ||| c.toBits <<< 4 ||| d.toBits <<< 6) :: bytes)
      = a :: b :: c :: d :: unpack n bytes := by
  have h : unpack 4 ((a.toBits ||| b.toBits <<< 2 ||| c.toBits <<< 4 ||| d.toBits <<< 6) :: bytes)
      = [a, b, c, d] := by
    rw [unpack_four (Nat.le_refl 4)]
    cases a <;> cases b <;> cases c <;> cases d <;> rfl
  rw [unpack, List.range_add, List.map_append, ← unpack, h, List.map_map]
  refine congrArg ([a, b, c, d] ++ ·) <| List.map_congr_left fun i _ => ?_
  have hd : (4 + i) / 4 = i / 4 + 1 := by omega
  have hm : (4 + i) % 4 = i % 4 := by omega
  simp only [Function.comp_apply, hd, hm, List.getD_cons_succ]

theorem unpack_pack (tiers : List NtasTier) (rest : List UInt8) :
    unpack tiers.length (pack tiers ++ rest) = tiers := by
  fun_induction pack tiers
  case case1 => rfl
  case case2 a =>
    rw [List.cons_append, List.length_singleton, unpack_four (by decide)]
    cases a <;> rfl
  case case3 a b =>
    have hl : [a, b].length = 2 := rfl
    rw [List.cons_append, hl, unpack_four (by decide)]
    cases a <;> cases b <;> rfl
  case case4 a b c =>
    have hl : [a, b, c].length = 3 := rfl
    rw [List.cons_append, hl, unpack_four (by decide)]
    cases a <;> cases b <;> cases c <;> rfl
  case case5 a b c d tiers hi =>
    have hl : (a :: b :: c :: d :: tiers).length = 4 + tiers.length := Nat.add_comm tiers.length 4
    rw [hl, List.cons_append, unpack_byte, hi]

end NtasTier

-- Slots in ascending order.

theorem assocInsertSorted_of_lt {slots : List Nat} {slot : Nat} (h : ∀ s ∈ slots, s < slot) :
    assocInsertSorted slots slot = slots ++ [slot] := by
  induction slots
  case nil => rfl
  case cons s ss hi =>
    have ⟨hs, hss⟩ := List.forall_mem_cons.mp h
    rw [assocInsertSorted, if_pos hs, hi hss, List.cons_append]

theorem mem_assocInsertSorted {slots : List Nat} {slot s : Nat} :
    s ∈ assocInsertSorted slots slot ↔ s = slot ∨ s ∈ slots := by
  induction slots
  case nil => simp [assocInsertSorted]
  case cons t ts hi =>
    rw [assocInsertSorted]
    split
    case isTrue  => rw [List.mem_cons, hi, List.mem_cons, or_left_comm]
    case isFalse =>
      split
      case isTrue => simp
      case isFalse h₁ h₂ =>
        rw [Nat.le_antisymm (Nat.le_of_not_lt h₁) (Nat.le_of_not_lt h₂)]
        simp

theorem pairwise_assocInsertSorted {slots : List Nat} (slot : Nat) (h : slots.Pairwise (· < ·)) :
    (assocInsertSorted slots slot).Pairwise (· < ·) := by
  induction slots
  case nil => exact List.pairwise_singleton ..
  case cons t ts hi =>
    have ⟨ht, hts⟩ := List.pairwise_cons.mp h
    rw [assocInsertSorted]
    split
    case isTrue hlt =>
      refine List.pairwise_cons.mpr ⟨fun s hs => ?_, hi hts⟩
      cases mem_assocInsertSorted.mp hs
      case inl hs => exact hs ▸ hlt
      case inr hs => exact ht s hs
    case isFalse =>
      split
      case isTrue hlt =>
        refine List.pairwise_cons.mpr ⟨List.forall_mem_cons.mpr ⟨hlt, fun s hs => ?_⟩, h⟩
        exact Nat.lt_trans hlt (ht s hs)
      case isFalse => exact h

theorem foldl_assocInsertSorted {slots more : List Nat} (h : (slots ++ more).Pairwise (· < ·)) :
    more.foldl assocInsertSorted slots = slots ++ more := by
  induction more generalizing slots
  case nil => rw [List.append_nil, List.foldl_nil]
  case cons s more hi =>
    have hs := List.pairwise_append.mp h
    rw [List.foldl_cons, assocInsertSorted_of_lt fun t ht => hs.2.2 t ht s (.head _), hi]
    · exact (List.append_cons ..).symm
    · rwa [← List.append_cons]

theorem decodeMany_deltas {limit : Nat} (prev : Nat) (ns : List Nat) (h : 0 < limit) (hl : limit ≤ sizeLimit)
    (rest : List UInt8) :
    decodeMany decodeUInt64 ns.length ((deltas limit prev ns).flatMap encodeVarint ++ rest)
      = some ((deltas limit prev ns).map UInt64.ofNat, rest) := by
  have hd : ∀ d ∈ deltas limit prev ns, d < sizeLimit :=
    fun d hd => Nat.lt_of_lt_of_le (deltas_lt h d hd) hl
  have hf : (deltas limit prev ns).flatMap encodeVarint
      = ((deltas limit prev ns).map UInt64.ofNat).flatMap encodeUInt64 := by
    rw [List.flatMap_map]
    refine List.flatMap_congr fun d hm => ?_
    rw [encodeUInt64, toNat_ofNat_of_lt (hd d hm)]
  have hm := decodeMany_flatMap
    (fun n (_ : n ∈ (deltas limit prev ns).map UInt64.ofNat) => decodeUInt64_encodeUInt64 n) rest
  rwa [List.length_map, length_deltas, ← hf] at hm

theorem map_toNat_deltas {limit : Nat} (prev : Nat) (ns : List Nat) (h : 0 < limit) (hl : limit ≤ sizeLimit) :
    ((deltas limit prev ns).map UInt64.ofNat).map (·.toNat) = deltas limit prev ns := by
  rw [List.map_map]
  refine (List.map_congr_left fun d hd => ?_).trans (List.map_id _)
  exact toNat_ofNat_of_lt (Nat.lt_of_lt_of_le (deltas_lt h d hd) hl)

theorem readDeltaList_writeDeltaList {vals : List Nat} (hl : vals.length < sizeLimit)
    (h : ∀ v ∈ vals, v < slotLimit) (rest : List UInt8) :
    readDeltaList (writeDeltaList vals ++ rest) = some (vals, rest) := by
  rw [readDeltaList, writeDeltaList, List.append_assoc, decodeUInt64_encodeUInt64]
  simp only [Option.bind_eq_bind, Option.bind_some, toNat_ofNat_of_lt hl,
    decodeMany_deltas 0 vals (by decide : 0 < slotLimit) (by decide : slotLimit ≤ sizeLimit),
    map_toNat_deltas 0 vals (by decide : 0 < slotLimit) (by decide : slotLimit ≤ sizeLimit),
    undeltas_deltas (by decide : 0 < slotLimit) h, Option.pure_def]

-- Slots of real tests, each once and in order.
structure SlotsFormed (nReal : Nat) (slots : List Nat) : Prop where
  ascending : slots.Pairwise (· < ·)
  real      : ∀ s ∈ slots, s < nReal

namespace SlotsFormed

variable {nReal : Nat} {slots : List Nat}

theorem subset_range (h : SlotsFormed nReal slots) : slots ⊆ List.range nReal :=
  fun s hs => List.mem_range.mpr (h.real s hs)

theorem length_le (h : SlotsFormed nReal slots) : slots.length ≤ nReal := by
  have hs := List.subperm_of_subset h.ascending.nodup h.subset_range
  simpa using hs.length_le

theorem eq_range (h : SlotsFormed nReal slots) (hl : slots.length = nReal) :
    slots = List.range nReal := by
  have hs := List.subperm_of_subset h.ascending.nodup h.subset_range
  have hp := hs.perm_of_length_le (by simp [hl])
  exact h.ascending.eq_of_mem_iff List.pairwise_lt_range fun s => hp.mem_iff

end SlotsFormed

-- The slots of a cover stay formed when tests are associated with it.
theorem SlotsFormed.assocHistory {db : Ncdb} {c c' : NcdbCover} {h : Nat}
    (hf : SlotsFormed db.slotToHist.length c.assoc) (hr : db.slotToHist.length ≤ slotLimit)
    (ha : c.assocHistory db h = some c') : SlotsFormed db.slotToHist.length c'.assoc := by
  have ⟨slot, hs, hc⟩ := Option.map_eq_some_iff.mp ha
  have ⟨hlt, _⟩ := List.findIdx?_eq_some_iff_getElem.mp hs
  rw [← hc, Nat.mod_eq_of_lt (Nat.lt_of_lt_of_le hlt hr)]
  refine ⟨pairwise_assocInsertSorted slot hf.ascending, fun s hs => ?_⟩
  cases mem_assocInsertSorted.mp hs
  case inl hs => exact hs ▸ hlt
  case inr hs => exact hf.real s hs

theorem map_mod_eq_self {limit : Nat} {ns : List Nat} (h : ∀ n ∈ ns, n < limit) :
    ns.map (· % limit) = ns :=
  (List.map_congr_left fun n hn => Nat.mod_eq_of_lt (h n hn)).trans ns.map_id


theorem classifyTier_never_iff {nReal : Nat} {slots : List Nat} :
    (classifyTier slots nReal).fst = .never ↔ slots = [] := by
  rw [classifyTier]
  split
  case isTrue hl  => exact iff_of_true rfl (List.eq_nil_of_length_eq_zero hl)
  case isFalse hl =>
    have hn : slots ≠ [] := fun hs => hl (hs ▸ rfl)
    split
    · exact iff_of_false nofun hn
    · split
      · exact iff_of_false nofun hn
      · exact iff_of_false nofun hn

namespace SlotsFormed

variable {nReal : Nat} {slots : List Nat} (h : SlotsFormed nReal slots) (hr : nReal ≤ slotLimit)

include h

theorem foldl_eq : slots.foldl assocInsertSorted [] = slots :=
  foldl_assocInsertSorted h.ascending

theorem leftOut_range : SlotsFormed nReal (leftOut slots (List.range nReal)) := by
  rw [leftOut_eq_filter h.ascending List.pairwise_lt_range h.subset_range]
  exact ⟨List.pairwise_lt_range.filter _, fun s hs => List.mem_range.mp (List.mem_filter.mp hs).1⟩

include hr

theorem lt_slotLimit : ∀ s ∈ slots, s < slotLimit :=
  fun s hs => Nat.lt_of_lt_of_le (h.real s hs) hr

theorem length_lt : slots.length < sizeLimit :=
  Nat.lt_of_le_of_lt (h.length_le.trans hr) (by decide)

-- The tier of a cover with slots, and the list of its record. All slots but some exceptions, of
-- which there may be none, or just the slots.
theorem classifyTier_cases (hn : slots ≠ []) :
    (∃ exceptions, classifyTier slots nReal = (.all, exceptions) ∧ SlotsFormed nReal exceptions ∧
      leftOut exceptions (List.range nReal) = slots) ∨
    classifyTier slots nReal = (.sparse, []) := by
  rw [classifyTier, if_neg fun hl => hn (List.eq_nil_of_length_eq_zero hl)]
  split
  case isTrue hl =>
    refine .inl ⟨[], rfl, ⟨.nil, by simp⟩, ?_⟩
    rw [h.eq_range hl]
    cases List.range nReal <;> rfl
  case isFalse =>
    split
    case isFalse => exact .inr rfl
    case isTrue =>
      refine .inl ⟨_, rfl, ?_⟩
      rw [map_mod_eq_self (h.leftOut_range.lt_slotLimit hr)]
      exact ⟨h.leftOut_range, leftOut_leftOut h.ascending List.pairwise_lt_range h.subset_range⟩

-- Whichever tier is chosen for it, a record is read as the slots of the cover.
theorem readDeltaList_ntasRecord (hn : slots ≠ []) (rest : List UInt8) :
    ∃ list, readDeltaList (ntasRecord slots nReal ++ rest) = some (list, rest) ∧
      ntasSlots (classifyTier slots nReal).fst nReal list = slots := by
  cases h.classifyTier_cases hr hn
  case inl hc =>
    have ⟨exceptions, hc, hf, hl⟩ := hc
    refine ⟨exceptions, ?_, ?_⟩
    · rw [ntasRecord, hc, readDeltaList_writeDeltaList (hf.length_lt hr) (hf.lt_slotLimit hr)]
    · rw [hc, ntasSlots, hl, map_mod_eq_self (h.lt_slotLimit hr), h.foldl_eq]
  case inr hc =>
    refine ⟨slots, ?_, ?_⟩
    · rw [ntasRecord, hc, readDeltaList_writeDeltaList (h.length_lt hr) (h.lt_slotLimit hr)]
    · rw [hc]
      exact h.foldl_eq

end SlotsFormed

-- The payload is one record after the other.
theorem data_foldl_add (nReal : Nat) (p : NtasPayload) (cs : List (NcdbCover × Nat)) :
    (cs.foldl (NtasPayload.add nReal) p).data
      = p.data ++ cs.flatMap fun c => ntasRecord c.fst.assoc nReal := by
  induction cs generalizing p
  case nil => simp
  case cons c cs hi =>
    have hc : (p.add nReal c).data = p.data ++ ntasRecord c.fst.assoc nReal := by
      rw [NtasPayload.add]
      split
      case isFalse => rfl
      case isTrue hn =>
        rw [classifyTier_never_iff.mp hn]
        exact (List.append_nil _).symm
    rw [List.foldl_cons, hi, hc, List.append_assoc, List.flatMap_cons]

theorem data_payload (nReal : Nat) (cs : List NcdbCover) :
    (cs.zipIdx.foldl (NtasPayload.add nReal) {}).data
      = cs.flatMap fun c => ntasRecord c.assoc nReal := by
  rw [data_foldl_add, List.nil_append]
  conv => rhs; rw [← List.zipIdx_map_fst (l := cs) (i := 0), List.flatMap_map]

-- A cover takes over the slots of another one.
def NcdbCover.withAssoc (c : NcdbCover) (slots : List Nat) : NcdbCover :=
  { c with assoc := slots }

theorem map_assoc_withAssoc {cs : List NcdbCover} {assocs : List (List Nat)}
    (h : assocs.length = cs.length) :
    (List.zipWith NcdbCover.withAssoc cs assocs).map (·.assoc) = assocs := by
  have hz := List.map_snd_zip (Nat.le_of_eq h)
  rw [List.zip, List.map_zipWith] at hz
  rw [List.map_zipWith]
  exact hz

theorem readPayload_records {nReal : Nat} (hr : nReal ≤ slotLimit) {cs target : List NcdbCover}
    (hf : ∀ c ∈ cs, SlotsFormed nReal c.assoc) (hl : target.length = cs.length)
    (ht : ∀ c ∈ target, c.assoc = []) (rest : List UInt8) :
    readPayload nReal (cs.map fun c => (classifyTier c.assoc nReal).fst) target
        (cs.flatMap (fun c => ntasRecord c.assoc nReal) ++ rest)
      = (List.zipWith NcdbCover.withAssoc target (cs.map (·.assoc)), some rest) := by
  induction cs generalizing target
  case nil =>
    rw [List.eq_nil_of_length_eq_zero hl]
    rfl
  case cons c cs hi =>
    obtain ⟨t, target, rfl⟩ := List.exists_cons_of_length_eq_add_one hl
    have ⟨hfc, hf⟩ := List.forall_mem_cons.mp hf
    have ⟨htc, ht⟩ := List.forall_mem_cons.mp ht
    have hi := hi hf (Nat.succ.inj hl) ht
    rw [List.map_cons, List.flatMap_cons, List.append_assoc, readPayload]
    by_cases hn : c.assoc = []
    case pos =>
      have hd : ntasRecord [] nReal = [] := rfl
      have hw : t.withAssoc [] = t := by rw [NcdbCover.withAssoc, ← htc]
      rw [if_pos (classifyTier_never_iff.mpr hn), hn, hd, List.nil_append]
      simp only [hi, List.map_cons, List.zipWith_cons_cons, hn, hw]
    case neg =>
      have ⟨list, hd, hs⟩ := hfc.readDeltaList_ntasRecord hr hn
        (cs.flatMap (fun c => ntasRecord c.assoc nReal) ++ rest)
      rw [if_neg (mt classifyTier_never_iff.mp hn), hd]
      simp only [hi, hs]
      rfl

theorem readSkipTable_encodeSkip {skip : List (Nat × Nat)} (h : skip.length < sizeLimit) :
    (readSkipTable (encodeUInt64 (UInt64.ofNat skip.length) ++ skip.flatMap encodeSkip)).isSome := by
  have hf : skip.flatMap encodeSkip
      = (skip.map fun e => (UInt64.ofNat e.fst, UInt64.ofNat e.snd)).flatMap
        fun e => encodeUInt64 e.fst ++ encodeUInt64 e.snd := by
    rw [List.flatMap_map]
    rfl
  have hd : ∀ (e : UInt64 × UInt64) rest,
      decodeSkip (encodeUInt64 e.fst ++ encodeUInt64 e.snd ++ rest) = some (e, rest) := by
    intro e rest
    simp [decodeSkip, List.append_assoc, decodeUInt64_encodeUInt64]
  have hm := decodeMany_flatMap
    (fun e (_ : e ∈ skip.map fun e => (UInt64.ofNat e.fst, UInt64.ofNat e.snd)) => hd e) []
  rw [List.length_map, List.append_nil] at hm
  simp only [readSkipTable, decodeUInt64_encodeUInt64, Option.bind_eq_bind, Option.bind_some,
    toNat_ofNat_of_lt h, hf, hm, Option.pure_def, Option.isSome_some]

theorem readNtasHeader_encode {slotToHist : List Nat} (hl : slotToHist.length < sizeLimit)
    (nCovers : UInt64) (rest : List UInt8) :
    ∃ read, readNtasHeader (ntasMagic ++ [1, 0] ++
        (encodeUInt64 (UInt64.ofNat slotToHist.length) ++ (encodeUInt64 nCovers ++
          ((deltas sizeLimit 0 slotToHist).flatMap encodeVarint ++ rest))))
      = some (⟨slotToHist.length, nCovers, read⟩, rest) ∧
      ((∀ h ∈ slotToHist, h < slotLimit) → read = slotToHist) := by
  refine ⟨(undeltas sizeLimit 0 (deltas sizeLimit 0 slotToHist)).map (· % slotLimit), ?_, fun h => ?_⟩
  case refine_2 =>
    have hs : ∀ p ∈ slotToHist, p < sizeLimit :=
      fun p hp => Nat.lt_of_lt_of_le (h p hp) (by decide)
    rw [undeltas_deltas (by decide) hs, map_mod_eq_self h]
  case refine_1 =>
    have hd := decodeMany_deltas 0 slotToHist (by decide : 0 < sizeLimit) (Nat.le_refl sizeLimit) rest
    have hm := map_toNat_deltas 0 slotToHist (by decide : 0 < sizeLimit) (Nat.le_refl sizeLimit)
    rw [readNtasHeader, if_pos ⟨by simp [ntasMagic], rfl, rfl⟩]
    have hsix : ∀ bytes : List UInt8, (ntasMagic ++ [1, 0] ++ bytes).drop 6 = bytes := fun _ => rfl
    simp only [hsix, decodeUInt64_encodeUInt64, Option.bind_eq_bind, Option.bind_some,
      toNat_ofNat_of_lt hl, hd, hm, Option.pure_def]

namespace NcdbScope

mutual

theorem covers_putCovers : (s : NcdbScope) → {new : List NcdbCover} →
    (s.dfs.flatMap (·.covers)).length ≤ new.length →
    (s.putCovers new).dfs.flatMap (·.covers) = new.take (s.dfs.flatMap (·.covers)).length
  | mk d cs ss, new, h => by
    have hc : (mk d cs ss).covers = cs := rfl
    rw [dfs, List.flatMap_cons, List.length_append, hc] at h ⊢
    have hd : ((dfsAll ss).flatMap (·.covers)).length ≤ (new.drop cs.length).length := by
      rw [List.length_drop]
      omega
    rw [putCovers, dfs, List.flatMap_cons, covers_putCoversAll ss hd, List.take_add]
    rfl

theorem covers_putCoversAll : (ss : List NcdbScope) → {new : List NcdbCover} →
    ((dfsAll ss).flatMap (·.covers)).length ≤ new.length →
    (dfsAll (putCoversAll new ss)).flatMap (·.covers) = new.take ((dfsAll ss).flatMap (·.covers)).length
  | [], _, _ => rfl
  | s :: ss, new, h => by
    rw [dfsAll, List.flatMap_append, List.length_append] at h ⊢
    have hd : ((dfsAll ss).flatMap (·.covers)).length
        ≤ (new.drop (s.dfs.flatMap (·.covers)).length).length := by
      rw [List.length_drop]
      omega
    rw [putCoversAll, dfsAll, List.flatMap_append, covers_putCovers s (by omega),
      covers_putCoversAll ss hd, List.take_add]

end

end NcdbScope

theorem length_skip_le (nReal : Nat) (p : NtasPayload) (cs : List (NcdbCover × Nat)) :
    (cs.foldl (NtasPayload.add nReal) p).skip.length ≤ p.skip.length + cs.length := by
  induction cs generalizing p
  case nil => exact Nat.le_refl _
  case cons c cs hi =>
    have hc : (p.add nReal c).skip.length ≤ p.skip.length + 1 := by
      rw [NtasPayload.add]
      split
      · exact Nat.le_succ _
      · simp only
        split <;> simp
    refine (hi (p.add nReal c)).trans ?_
    rw [List.length_cons]
    omega

namespace Ncdb

theorem flattenCovers_putCovers {db : Ncdb} {new : List NcdbCover}
    (h : new.length = db.flattenCovers.length) : (db.putCovers new).flattenCovers = new := by
  have hc := NcdbScope.covers_putCoversAll db.roots (Nat.le_of_eq h.symm)
  exact hc.trans (List.take_of_length_le (Nat.le_of_eq h))

-- Every cover has a set of slots of real tests, of which there are as many as slots at most.
structure AssocFormed (db : Ncdb) : Prop where
  slots  : db.slotToHist.length ≤ slotLimit
  covers : ∀ c ∈ db.flattenCovers, SlotsFormed db.slotToHist.length c.assoc

variable {db target : Ncdb}

-- What reading a member that is there comes to.
theorem testsAssocDeserialize_eq (hf : db.AssocFormed)
    (hl : target.flattenCovers.length = db.flattenCovers.length)
    (ht : ∀ c ∈ target.flattenCovers, c.assoc = [])
    (hn : ¬db.flattenCovers.all (·.assoc.isEmpty)) :
    ∃ (skip : List (Nat × Nat)) (slotToHist : List Nat),
      target.testsAssocDeserialize db.testsAssocSerialize
        = (target.putCovers
            (List.zipWith NcdbCover.withAssoc target.flattenCovers (db.flattenCovers.map (·.assoc))),
          (readSkipTable (encodeUInt64 (UInt64.ofNat skip.length) ++ skip.flatMap encodeSkip)).isSome &&
            decide (target.slotToHist = slotToHist)) ∧
      skip.length ≤ db.flattenCovers.length ∧
      ((∀ h ∈ db.slotToHist, h < slotLimit) → slotToHist = db.slotToHist) := by
  have hskip := length_skip_le db.slotToHist.length {} db.flattenCovers.zipIdx
  rw [List.length_nil, Nat.zero_add, List.length_zipIdx] at hskip
  rw [testsAssocSerialize, if_neg hn]
  simp only [data_payload]
  generalize (db.flattenCovers.zipIdx.foldl (NtasPayload.add db.slotToHist.length) {}).skip = skip at hskip ⊢
  have ⟨slotToHist, hh, hread⟩ := readNtasHeader_encode
    (Nat.lt_of_le_of_lt hf.slots (by decide) : db.slotToHist.length < sizeLimit)
    (UInt64.ofNat db.flattenCovers.length)
    (NtasTier.pack (db.flattenCovers.map fun c => (classifyTier c.assoc db.slotToHist.length).fst) ++
      (db.flattenCovers.flatMap (fun c => ntasRecord c.assoc db.slotToHist.length) ++
        (encodeUInt64 (UInt64.ofNat skip.length) ++ skip.flatMap encodeSkip)))
  refine ⟨skip, slotToHist, ?_, hskip, hread⟩
  have hlen : (db.flattenCovers.map fun c => (classifyTier c.assoc db.slotToHist.length).fst).length
      = db.flattenCovers.length := List.length_map ..
  have hpack := NtasTier.length_pack
    (db.flattenCovers.map fun c => (classifyTier c.assoc db.slotToHist.length).fst)
  rw [hlen] at hpack
  have hunpack := NtasTier.unpack_pack
    (db.flattenCovers.map fun c => (classifyTier c.assoc db.slotToHist.length).fst)
    (db.flattenCovers.flatMap (fun c => ntasRecord c.assoc db.slotToHist.length) ++
      (encodeUInt64 (UInt64.ofNat skip.length) ++ skip.flatMap encodeSkip))
  rw [hlen] at hunpack
  have hpayload := readPayload_records hf.slots hf.covers hl ht
    (encodeUInt64 (UInt64.ofNat skip.length) ++ skip.flatMap encodeSkip)
  rw [testsAssocDeserialize, hh]
  simp only [hl, ne_eq, not_true_eq_false, false_or, List.length_append, hpack, hunpack,
    List.drop_left' hpack, hpayload, Option.bind_some]
  exact if_neg (by omega)

-- Every cover gets exactly its slots, and the member is accepted for the history it was written for.
theorem testsAssoc_roundTrip (hf : db.AssocFormed)
    (hl : target.flattenCovers.length = db.flattenCovers.length)
    (ht : ∀ c ∈ target.flattenCovers, c.assoc = []) :
    (target.testsAssocDeserialize db.testsAssocSerialize).fst.flattenCovers.map (·.assoc)
      = db.flattenCovers.map (·.assoc) ∧
    (target.slotToHist = db.slotToHist → (∀ h ∈ db.slotToHist, h < slotLimit) →
      db.flattenCovers.length < sizeLimit → (∃ c ∈ db.flattenCovers, c.assoc ≠ []) →
      (target.testsAssocDeserialize db.testsAssocSerialize).snd) := by
  by_cases hn : db.flattenCovers.all (·.assoc.isEmpty)
  case pos =>
    have ha : ∀ c ∈ db.flattenCovers, c.assoc = [] := by simpa using hn
    have hd : target.testsAssocDeserialize [] = (target, false) := rfl
    rw [testsAssocSerialize, if_pos hn, hd]
    refine ⟨?_, fun _ _ _ ⟨c, hc, hn⟩ => absurd (ha c hc) hn⟩
    rw [List.map_congr_left ha, List.map_congr_left ht, List.map_const', List.map_const', hl]
  case neg =>
    have ⟨skip, slotToHist, hd, hskip, hread⟩ := testsAssocDeserialize_eq hf hl ht hn
    rw [hd]
    constructor
    · rw [flattenCovers_putCovers (by simp [hl]), map_assoc_withAssoc (by simp [hl])]
    · intro hs hh hsize _
      rw [readSkipTable_encodeSkip (Nat.lt_of_le_of_lt hskip hsize), hread hh, hs]
      simp

-- Forty tests, and covers that none, one, all and all but one of them hit.

def fortyCovers (assocs : List (List Nat)) : Ncdb where
  roots        := [.mk { type := 0x2, name := "top" }
    (assocs.map fun slots => { NcdbCover.create 0x20 "s" 0 with assoc := slots }) []]
  historyNodes := List.replicate 40 { kind := ncdbHistoryTest }

def fortyAssocs : List (List Nat) :=
  [[], [7], List.range 40, (List.range 40).erase 5]

theorem testsAssoc_roundTrip_forty :
    ((fortyCovers [[], [], [], []]).testsAssocDeserialize
      (fortyCovers fortyAssocs).testsAssocSerialize).fst.flattenCovers.map (·.assoc) = fortyAssocs := by
  have hc : ∀ c ∈ (fortyCovers fortyAssocs).flattenCovers,
      c.assoc.Pairwise (· < ·) ∧ ∀ s ∈ c.assoc, s < 40 := by decide +kernel
  have hf : (fortyCovers fortyAssocs).AssocFormed :=
    ⟨by decide +kernel, fun c hm => ⟨(hc c hm).1, (hc c hm).2⟩⟩
  have ht : ∀ c ∈ (fortyCovers [[], [], [], []]).flattenCovers, c.assoc = [] := by decide
  have hl : (fortyCovers [[], [], [], []]).flattenCovers.length
      = (fortyCovers fortyAssocs).flattenCovers.length := rfl
  exact (testsAssoc_roundTrip hf hl ht).1

end Ncdb

-- When a member that is not accepted leaves slots on the covers.

-- The slots of the records of a payload that can be read, and the bytes behind the last one if all of
-- them can be.
def payloadSlots (nReal : Nat) : List NtasTier → List UInt8 → List (List Nat) × Option (List UInt8)
  | [],            bytes => ([], some bytes)
  | tier :: tiers, bytes =>
    if tier = .never then
      let (slots, rest) := payloadSlots nReal tiers bytes
      ([] :: slots, rest)
    else
      match readDeltaList bytes with
      | none               => ([], none)
      | some (list, bytes) =>
        let (slots, rest) := payloadSlots nReal tiers bytes
        (ntasSlots tier nReal list :: slots, rest)

theorem length_readPayload {nReal : Nat} {tiers : List NtasTier} {cs : List NcdbCover}
    {bytes : List UInt8} : (readPayload nReal tiers cs bytes).fst.length = cs.length := by
  fun_induction readPayload nReal tiers cs bytes <;> simp_all

-- The covers of the records that can be read get their slots, the others keep none.
theorem readPayload_slots (nReal : Nat) {tiers : List NtasTier} {cs : List NcdbCover}
    (bytes : List UInt8) (hl : tiers.length = cs.length) (hc : ∀ c ∈ cs, c.assoc = []) :
    (readPayload nReal tiers cs bytes).snd = (payloadSlots nReal tiers bytes).snd ∧
    ((∀ c ∈ (readPayload nReal tiers cs bytes).fst, c.assoc = []) ↔
      ∀ slots ∈ (payloadSlots nReal tiers bytes).fst, slots = []) := by
  induction tiers generalizing cs bytes
  case nil =>
    cases List.eq_nil_of_length_eq_zero hl.symm
    exact ⟨rfl, by simp [readPayload, payloadSlots]⟩
  case cons tier tiers hi =>
    obtain ⟨c, cs, rfl⟩ := List.exists_cons_of_length_eq_add_one hl.symm
    have ⟨hc₁, hcs⟩ := List.forall_mem_cons.mp hc
    rw [readPayload, payloadSlots]
    split
    case isTrue =>
      have ⟨hs, hf⟩ := hi bytes (Nat.succ.inj hl) hcs
      exact ⟨hs, by simp only [List.forall_mem_cons, hc₁, true_and, hf]⟩
    case isFalse =>
      cases readDeltaList bytes
      case none => exact ⟨rfl, iff_of_true hc (by simp)⟩
      case some r =>
        have ⟨hs, hf⟩ := hi r.snd (Nat.succ.inj hl) hcs
        exact ⟨hs, by simp only [List.forall_mem_cons, hf]⟩

namespace Ncdb

-- What a member holds before the payload, as far as it suits the database.
def ntasPayload (db : Ncdb) (data : List UInt8) : Option (NtasHeader × List NtasTier × List UInt8) :=
  (readNtasHeader data).bind fun (header, bytes) =>
    let n := db.flattenCovers.length
    if UInt64.ofNat n ≠ header.nCovers ∨ bytes.length < (n + 3) / 4 then
      none
    else
      some (header, NtasTier.unpack n bytes, bytes.drop ((n + 3) / 4))

-- A member that is sound, or in which no record stands for any slot before the first one that cannot
-- be read.
def NtasClean (db : Ncdb) (data : List UInt8) : Prop :=
  ∀ header tiers bytes, db.ntasPayload data = some (header, tiers, bytes) →
    (∀ slots ∈ (payloadSlots header.nReal tiers bytes).fst, slots = []) ∨
    (((payloadSlots header.nReal tiers bytes).snd.bind readSkipTable).isSome ∧
      db.slotToHist = header.slotToHist)

variable {db : Ncdb} {data : List UInt8}

-- A member that is not accepted leaves no slots exactly when it is clean.
theorem testsAssoc_rejected_iff (hc : ∀ c ∈ db.flattenCovers, c.assoc = []) :
    ((db.testsAssocDeserialize data).snd = false →
      ∀ c ∈ (db.testsAssocDeserialize data).fst.flattenCovers, c.assoc = []) ↔
    db.NtasClean data := by
  rw [testsAssocDeserialize, NtasClean, ntasPayload]
  cases hh : readNtasHeader data
  case none => exact iff_of_true (fun _ => hc) nofun
  case some h =>
    obtain ⟨header, bytes⟩ := h
    simp only [Option.bind_some]
    split
    case isTrue  => exact iff_of_true (fun _ => hc) nofun
    case isFalse =>
      have hl : (NtasTier.unpack db.flattenCovers.length bytes).length = db.flattenCovers.length := by
        simp [NtasTier.unpack]
      have ⟨hs, hf⟩ :=
        readPayload_slots header.nReal (bytes.drop ((db.flattenCovers.length + 3) / 4)) hl hc
      simp only [flattenCovers_putCovers length_readPayload, hs, hf, Option.some.injEq, Prod.mk.injEq, and_imp]
      constructor
      case mp =>
        rintro h header tiers rest rfl rfl rfl
        rw [or_iff_not_imp_right]
        intro hn
        refine h (Bool.eq_false_iff.mpr fun hb => hn ?_)
        exact ⟨(Bool.and_eq_true_iff.mp hb).1, of_decide_eq_true (Bool.and_eq_true_iff.mp hb).2⟩
      case mpr =>
        intro h hb
        refine (h header _ _ rfl rfl rfl).resolve_right fun hn => ?_
        rw [hn.1, hn.2, decide_eq_true rfl] at hb
        cases hb

-- One cover in a database with one test, and a member that ends before its table of skips.

def oneCover : Ncdb where
  roots        := [.mk { type := 0x2, name := "top" } [NcdbCover.create 0x20 "s" 0] []]
  historyNodes := [{ kind := ncdbHistoryTest }]

def cutMember : List UInt8 :=
  ntasMagic ++ [1, 0, 1, 1, 0, 1, 0]

theorem testsAssoc_rejected_iff_early :
    (oneCover.testsAssocDeserialize (cutMember.take 9)).snd = false ∧
    ∀ c ∈ (oneCover.testsAssocDeserialize (cutMember.take 9)).fst.flattenCovers, c.assoc = [] := by
  have hr : (oneCover.testsAssocDeserialize (cutMember.take 9)).snd = false := by decide
  refine ⟨hr, (testsAssoc_rejected_iff (by decide)).mpr ?_ hr⟩
  have hn : oneCover.ntasPayload (cutMember.take 9) = none := by rfl
  intro header tiers bytes h
  rw [hn] at h
  cases h

theorem testsAssoc_rejected_leaves :
    (oneCover.testsAssocDeserialize cutMember).snd = false ∧
    (oneCover.testsAssocDeserialize cutMember).fst.flattenCovers.map (·.assoc) = [[0]] ∧
    ¬∀ c ∈ (oneCover.testsAssocDeserialize cutMember).fst.flattenCovers, c.assoc = [] := by
  decide +kernel

end Ncdb
