import Covsight.Ncdb.HistoryBuckets

namespace BucketRecord

instance : Std.Total before where
  total r s := by unfold before; omega

instance : IsTrans BucketRecord before where
  trans r s t := by unfold before; omega

-- What the nibbles of a row keep of a record.
def truncated (r : BucketRecord) : BucketRecord :=
  { r with status := r.status % 16, flags := r.flags % 16 }

theorem truncated_eq {r : BucketRecord} (hs : r.status < 16) (hf : r.flags < 16) :
    r.truncated = r := by
  simp [truncated, Nat.mod_eq_of_lt hs, Nat.mod_eq_of_lt hf]

end BucketRecord

namespace BucketWriter

variable {accel : Bool} {w w' : BucketWriter} {file : BucketFile}

theorem sortedRecords_perm (w : BucketWriter) : w.sortedRecords.Perm w.records :=
  List.perm_insertionSort ..

theorem mem_sortedRecords {r : BucketRecord} : r ∈ w.sortedRecords ↔ r ∈ w.records :=
  (sortedRecords_perm w).mem_iff

theorem sortedRecords_pairwise (w : BucketWriter) :
    w.sortedRecords.Pairwise BucketRecord.before :=
  List.pairwise_insertionSort ..

theorem sortedRecords_pairwise_nameId (w : BucketWriter) :
    w.sortedRecords.Pairwise (·.nameId ≤ ·.nameId) :=
  (sortedRecords_pairwise w).imp fun h => by unfold BucketRecord.before at h; omega

-- Filling the rows of consecutive runs.
theorem fillRun_next (pre post : List Nat) (k n : Nat) :
    BucketFile.fillRun (pre ++ (List.replicate n 0 ++ post)) (k, pre.length, n)
      = pre ++ (List.replicate n k ++ post) := by
  refine List.ext_getElem (by simp [BucketFile.fillRun]) fun i _ _ => ?_
  simp only [BucketFile.fillRun, List.getElem_mapIdx, List.getElem_append, List.getElem_replicate,
    List.length_replicate]
  grind

theorem foldl_fillRun (xs : List BucketRecord) (ks pre : List Nat) :
    (runsFrom (·.nameId) xs pre.length ks).foldl BucketFile.fillRun
      (pre ++ List.replicate (ks.flatMap fun k => xs.filter (·.nameId = k)).length 0)
      = pre ++ (ks.flatMap fun k => xs.filter (·.nameId = k)).map (·.nameId) := by
  induction ks generalizing pre
  case nil => simp [runsFrom]
  case cons k ks hi =>
    have hk : (xs.filter (·.nameId = k)).map (·.nameId)
        = List.replicate (xs.filter (·.nameId = k)).length k := by
      rw [List.map_eq_replicate_iff]
      simp
    have hi := hi (pre ++ List.replicate (xs.filter (·.nameId = k)).length k)
    rw [List.length_append, List.length_replicate] at hi
    rw [List.flatMap_cons, List.length_append, List.replicate_add, runsFrom, List.foldl_cons,
      fillRun_next, ← List.append_assoc, hi, List.map_append, hk, List.append_assoc]

theorem encode_eq_some (h : w.encode accel = some file) :
    file = {
      tsBase      := w.tsBase.toNat
      nameIndex   := w.nameIndex
      seedIds     := w.seedIds
      seedCol     := w.sortedRecords.map fun r => w.seedIds.idxOf r.seedId
      tsDeltas    := w.deltas.map Int.toNat
      statusFlags := w.sortedRecords.map fun r => r.status % 16 * 16 + r.flags % 16
    } ∧ w.packs accel := by
  rw [encode] at h
  split at h <;> cases h
  case isTrue hp => exact ⟨rfl, hp⟩

theorem rowNames_encode (h : w.encode accel = some file) :
    file.rowNames = w.sortedRecords.map (·.nameId) := by
  have hr := foldl_fillRun w.sortedRecords (keysOf (·.nameId) w.sortedRecords) []
  rw [flatMap_keysOf (sortedRecords_pairwise_nameId w), List.nil_append, List.nil_append] at hr
  rw [(encode_eq_some h).1, BucketFile.rowNames, List.length_map]
  exact hr

-- Reading back rows whose deltas are not negative and whose seeds are numbered.
theorem decodeFrom_encoded (file : BucketFile) (prev : Dict Nat Int) {rs : List BucketRecord}
    (hd : ∀ d ∈ deltasFrom file.tsBase prev rs, 0 ≤ d) (hs : ∀ r ∈ rs, r.seedId ∈ file.seedIds) :
    file.decodeFrom prev ((rs.map (·.nameId)).zip <|
      ((deltasFrom file.tsBase prev rs).map Int.toNat).zip <|
      (rs.map fun r => file.seedIds.idxOf r.seedId).zip <|
      rs.map fun r => r.status % 16 * 16 + r.flags % 16) = rs.map BucketRecord.truncated := by
  induction rs generalizing prev
  case nil => rfl
  case cons r rs hi =>
    have hr := hd _ (.head _)
    have ht : (prev.get? r.nameId).getD file.tsBase
        + (r.ts - (prev.get? r.nameId).getD file.tsBase).toNat = r.ts := by omega
    have hl : file.seedIds[file.seedIds.idxOf r.seedId]?.getD 0 = r.seedId := by
      simp [List.getElem?_idxOf (hs r (.head _))]
    have hi := hi _ (fun d hd' => hd d (.tail _ hd')) fun r' hr' => hs r' (.tail _ hr')
    simp only [List.map_cons, deltasFrom, List.zip_cons_cons, BucketFile.decodeFrom, ht, hl, hi]
    congr 1
    simp only [BucketRecord.truncated, BucketRecord.mk.injEq, true_and]
    omega

theorem packs_iff : w.packs accel ↔
    (0 ≤ w.tsBase ∧ w.tsBase < 2 ^ 32) ∧
    (∀ d ∈ w.deltas, 0 ≤ d ∧ (accel → d < 2 ^ 64)) ∧
    w.records.length < 2 ^ 32 ∧ w.nameIndex.length < 2 ^ 16 ∧
    (∀ r ∈ w.nameIndex, r.1 < 2 ^ 32 ∧ r.2.1 < 2 ^ 32 ∧ r.2.2 < 2 ^ 16) ∧
    w.seedIds.length < 2 ^ 16 ∧ ∀ s ∈ w.seedIds, s < 2 ^ 32 := by
  simp only [packs, List.all_eq_true, decide_eq_true_eq, and_assoc, Prod.forall]

-- The writer has numbered the seeds of its records.
def SeedsNumbered (w : BucketWriter) : Prop :=
  ∀ r ∈ w.records, r.seedId ∈ w.seedIds

theorem add_spec {r : BucketRecord} (h : w.add r = some w') (hs : w.SeedsNumbered) :
    w'.records = w.records ++ [r] ∧ w'.SeedsNumbered := by
  rw [add] at h
  split at h
  case isTrue hm =>
    cases h
    refine ⟨rfl, fun r' hr' => ?_⟩
    cases List.mem_append.mp hr'
    case inl hr' => exact hs r' hr'
    case inr hr' => exact List.mem_singleton.mp hr' ▸ hm
  case isFalse =>
    split at h <;> cases h
    case isFalse =>
      refine ⟨rfl, fun r' hr' => ?_⟩
      cases List.mem_append.mp hr'
      case inl hr' => exact List.mem_append_left _ (hs r' hr')
      case inr hr' => exact List.mem_append_right _ (by rw [List.mem_singleton.mp hr']; simp)

theorem records_encode (h : w.encode accel = some file) (hs : w.SeedsNumbered) :
    file.records = w.sortedRecords.map BucketRecord.truncated := by
  have ⟨hf, hp⟩ := encode_eq_some h
  have ⟨hb, hd, _⟩ := packs_iff.mp hp
  have ht : (file.tsBase : Int) = w.tsBase := by rw [hf]; exact Int.toNat_of_nonneg hb.1
  have hn : file.seedIds = w.seedIds := by rw [hf]
  have hd := decodeFrom_encoded file ∅
    (fun d hm => (hd d (by rwa [ht] at hm)).1)
    (fun r hr => hn ▸ hs r (mem_sortedRecords.mp hr))
  rw [BucketFile.records, rowNames_encode h]
  rw [ht, hn] at hd
  rw [← hd, hf]
  rfl

-- A name's records are the slice of the rows that the name index holds for it.
theorem recordsForName_encode (h : w.encode accel = some file) (hs : w.SeedsNumbered)
    (nameId : Nat) :
    file.recordsForName nameId = file.records.filter (·.nameId = nameId) := by
  have hi : file.nameIndex = runsOf (·.nameId) w.sortedRecords := by rw [(encode_eq_some h).1]; rfl
  have hr := search_runsOf (sortedRecords_pairwise_nameId w) nameId
  rw [BucketFile.recordsForName, hi, records_encode h hs, List.filter_map]
  simp only [← List.map_drop, ← List.map_take]
  refine Eq.trans ?_ (congrArg (List.map BucketRecord.truncated) hr)
  cases search (runsOf (·.nameId) w.sortedRecords) nameId <;> rfl

section Deltas

variable {base : Int} {prev : Dict Nat Int} {rs : List BucketRecord}

-- In sorted rows only the first timestamp of a name can lie below the one it is counted from.
theorem deltasFrom_nonneg (hs : rs.Pairwise BucketRecord.before) (hb : ∀ r ∈ rs, base ≤ r.ts)
    (hp : ∀ r ∈ rs, ∀ t, prev.get? r.nameId = some t → t ≤ r.ts) :
    ∀ d ∈ deltasFrom base prev rs, 0 ≤ d := by
  induction rs generalizing prev
  case nil => nofun
  case cons r rs hi =>
    have ⟨hr, hs⟩ := List.pairwise_cons.mp hs
    intro d hd
    cases hd
    case head =>
      have hb := hb r (.head _)
      cases hg : prev.get? r.nameId
      case none   => simpa using hb
      case some t => simpa using hp r (.head _) t hg
    case tail hd =>
      refine hi hs (fun r' hr' => hb r' (.tail _ hr')) (fun r' hr' t ht => ?_) d hd
      rw [Dict.get?_set] at ht
      split at ht
      case isFalse => exact hp r' (.tail _ hr') t ht
      case isTrue hn =>
        have hbf := hr r' hr'
        unfold BucketRecord.before at hbf
        cases ht
        omega

theorem deltasFrom_base (hd : ∀ d ∈ deltasFrom base prev rs, 0 ≤ d)
    (hp : ∀ k t, prev.get? k = some t → base ≤ t) : ∀ r ∈ rs, base ≤ r.ts := by
  induction rs generalizing prev
  case nil => nofun
  case cons r rs hi =>
    have hr : base ≤ r.ts := by
      have hd := hd _ (.head _)
      cases hg : prev.get? r.nameId
      case none   => simpa [hg] using hd
      case some t =>
        have hp := hp _ t hg
        simp only [hg, Option.getD_some] at hd
        omega
    intro r' hr'
    cases hr'
    case head     => exact hr
    case tail hr' =>
      refine hi (fun d hd' => hd d (.tail _ hd')) (fun k t ht => ?_) r' hr'
      rw [Dict.get?_set] at ht
      split at ht
      case isFalse => exact hp k t ht
      case isTrue  => cases ht; exact hr

theorem deltasFrom_lt {bound : Int} (h : ∀ r ∈ rs, 0 ≤ r.ts ∧ r.ts < bound) (hb : 0 ≤ base)
    (hp : ∀ k t, prev.get? k = some t → 0 ≤ t) : ∀ d ∈ deltasFrom base prev rs, d < bound := by
  induction rs generalizing prev
  case nil => nofun
  case cons r rs hi =>
    have hr := h r (.head _)
    intro d hd
    cases hd
    case head =>
      cases hg : prev.get? r.nameId
      case none   => simp only [Option.getD_none]; omega
      case some t =>
        have hp := hp _ t hg
        simp only [Option.getD_some]
        omega
    case tail hd =>
      refine hi (fun r' hr' => h r' (.tail _ hr')) (fun k t ht => ?_) d hd
      rw [Dict.get?_set] at ht
      split at ht
      case isFalse => exact hp k t ht
      case isTrue  => cases ht; exact hr.1

end Deltas

-- The deltas can be encoded exactly when no record is older than the oldest one of the lowest name.
theorem deltas_nonneg_iff : (∀ d ∈ w.deltas, 0 ≤ d) ↔ ∀ r ∈ w.records, w.tsBase ≤ r.ts := by
  have he : ∀ k t, (∅ : Dict Nat Int).get? k = some t → w.tsBase ≤ t := nofun
  constructor
  case mp  => exact fun h r hr => deltasFrom_base h he r <| mem_sortedRecords.mpr hr
  case mpr =>
    intro h
    have hs := sortedRecords_pairwise w
    exact deltasFrom_nonneg hs (fun r hr => h r <| mem_sortedRecords.mp hr) nofun

theorem runsFrom_count (xs : List BucketRecord) (start : Nat) (ks : List Nat) :
    ∀ e ∈ runsFrom (·.nameId) xs start ks, e.1 ∈ ks ∧
      e.2.1 + e.2.2 ≤ start + (ks.flatMap fun k => xs.filter (·.nameId = k)).length := by
  induction ks generalizing start
  case nil => nofun
  case cons k ks hi =>
    intro e he
    rw [List.flatMap_cons, List.length_append]
    cases he
    case head => exact ⟨.head _, Nat.add_le_add_left (Nat.le_add_right ..) _⟩
    case tail he =>
      have ⟨hk, hc⟩ := hi _ e he
      exact ⟨.tail _ hk, by rwa [← Nat.add_assoc]⟩

theorem nameIndex_rows : ∀ e ∈ w.nameIndex, e.1 ∈ keysOf (·.nameId) w.sortedRecords ∧
    e.2.1 + e.2.2 ≤ w.records.length := by
  have hn := runsFrom_count w.sortedRecords 0 (keysOf (·.nameId) w.sortedRecords)
  rw [flatMap_keysOf (sortedRecords_pairwise_nameId w), (sortedRecords_perm w).length_eq,
    Nat.zero_add] at hn
  exact hn

-- A bucket can be encoded when its numbers are in range and no record is older than its base.
theorem encode_of_bounded (accel : Bool) (hl : w.records.length ≤ historyBucketMaxRecords)
    (hs : w.seedIds.length ≤ 255) (hi : ∀ s ∈ w.seedIds, s < 2 ^ 32)
    (hb : 0 ≤ w.tsBase ∧ w.tsBase < 2 ^ 32)
    (hr : ∀ r ∈ w.records, r.nameId < 2 ^ 32 ∧ w.tsBase ≤ r.ts ∧ r.ts < 2 ^ 64) :
    ∃ file, w.encode accel = some file := by
  have hnn := deltas_nonneg_iff.mpr fun r h => (hr r h).2.1
  have hlt : ∀ d ∈ w.deltas, d < 2 ^ 64 := by
    refine deltasFrom_lt (fun r h => ?_) hb.1 nofun
    obtain ⟨_, hr⟩ := hr r <| mem_sortedRecords.mp h
    exact ⟨Int.le_trans hb.1 hr.1, hr.2⟩
  have hkl : w.nameIndex.length ≤ w.records.length := by
    have hd := (List.dedup_sublist (w.sortedRecords.map (·.nameId))).length_le
    have hm : w.nameIndex.map Prod.fst = keysOf (·.nameId) w.sortedRecords := runsFrom_map_fst ..
    have hm := congrArg List.length hm
    rw [List.length_map, keysOf, List.length_insertionSort] at hm
    rw [List.length_map] at hd
    rw [hm, ← (sortedRecords_perm w).length_eq]
    exact hd
  have hp : w.packs accel := by
    unfold historyBucketMaxRecords at hl
    refine packs_iff.mpr ⟨hb, fun d hd => ⟨hnn d hd, fun _ => hlt d hd⟩, by omega, by omega,
      fun e he => ?_, by omega, hi⟩
    obtain ⟨hk, hc⟩ := nameIndex_rows e he
    obtain ⟨x, hx, hxk⟩ := keysOf.mem_iff.mp hk
    have hx := (hr x <| mem_sortedRecords.mp hx).1
    exact ⟨hxk ▸ hx, by omega, by omega⟩
  exact ⟨_, if_pos hp⟩

-- Some record with a 32-bit time is of the lowest name and as old as any other.
def Anchored (records : List BucketRecord) : Prop :=
  ∃ r ∈ records, (0 ≤ r.ts ∧ r.ts < 2 ^ 32) ∧
    ∀ r' ∈ records, r.nameId ≤ r'.nameId ∧ r.ts ≤ r'.ts

instance (records : List BucketRecord) : Decidable (Anchored records) :=
  inferInstanceAs (Decidable (∃ r ∈ records, _))

theorem Anchored.of_perm {rs rs' : List BucketRecord} (h : rs.Perm rs') :
    Anchored rs ↔ Anchored rs' := by
  simp only [Anchored, h.mem_iff]

-- Such a record has the base timestamp.
theorem tsBase_eq {w : BucketWriter} {r : BucketRecord} (hm : r ∈ w.records)
    (hr : ∀ r' ∈ w.records, r.nameId ≤ r'.nameId ∧ r.ts ≤ r'.ts) : w.tsBase = r.ts := by
  have hm := mem_sortedRecords.mpr hm
  have hp := sortedRecords_pairwise w
  rw [tsBase]
  cases hs : w.sortedRecords
  case nil => rw [hs] at hm; cases hm
  case cons f rs =>
    have ⟨hn, ht⟩ := hr f <| mem_sortedRecords.mp (by simp [hs])
    rw [hs] at hm hp
    rw [List.head?_cons, Option.map_some, Option.getD_some]
    cases hm
    case head    => rfl
    case tail hm =>
      have hb := (List.pairwise_cons.mp hp).1 r hm
      unfold BucketRecord.before at hb
      omega

-- The numbers that every bucket must fit to be encodable, whatever its order.
structure Bounded (w : BucketWriter) : Prop where
  numbered : w.SeedsNumbered
  length   : w.records.length ≤ historyBucketMaxRecords
  seedIds  : w.seedIds.Nodup ∧ w.seedIds.length ≤ 255 ∧ ∀ s ∈ w.seedIds, s < 2 ^ 32
  records  : ∀ r ∈ w.records,
    r.nameId < 2 ^ 32 ∧ r.ts < 2 ^ 64 ∧ r.status < 16 ∧ r.flags < 16

namespace Bounded

theorem empty : Bounded {} where
  numbered := nofun
  length   := Nat.zero_le _
  seedIds  := ⟨.nil, Nat.zero_le _, nofun⟩
  records  := nofun

theorem sortedRecords_truncated (h : w.Bounded) :
    w.sortedRecords.map BucketRecord.truncated = w.sortedRecords := by
  refine (List.map_congr_left fun r hr => ?_).trans (List.map_id _)
  have ⟨_, _, hs, hf⟩ := h.records r <| mem_sortedRecords.mp hr
  exact BucketRecord.truncated_eq hs hf

theorem records_encode (h : w.Bounded) (hf : w.encode accel = some file) :
    file.records.Perm w.records := by
  rw [BucketWriter.records_encode hf h.numbered, h.sortedRecords_truncated]
  exact sortedRecords_perm w

-- Its order decides whether a bucket can be encoded.
theorem encode_iff (h : w.Bounded) (accel : Bool) :
    (∃ file, w.encode accel = some file) ↔ (w.records ≠ [] → Anchored w.records) := by
  constructor
  case mp =>
    intro ⟨file, hf⟩ hn
    have ⟨hb, hd, _⟩ := packs_iff.mp (encode_eq_some hf).2
    have hd := deltas_nonneg_iff.mp fun d hm => (hd d hm).1
    have hs := sortedRecords_pairwise_nameId w
    cases hr : w.sortedRecords
    case nil => exact absurd ((sortedRecords_perm w).symm.trans (.of_eq hr)).eq_nil hn
    case cons r rs =>
      have ht : w.tsBase = r.ts := by rw [tsBase, hr]; rfl
      refine ⟨r, mem_sortedRecords.mp (by simp [hr]), ht ▸ hb, fun r' hr' => ⟨?_, ht ▸ hd r' hr'⟩⟩
      have hm := mem_sortedRecords.mpr hr'
      rw [hr] at hm hs
      cases hm
      case head    => exact Nat.le_refl _
      case tail hm => exact (List.pairwise_cons.mp hs).1 r' hm
  case mpr =>
    intro ha
    have hb : (0 ≤ w.tsBase ∧ w.tsBase < 2 ^ 32) ∧ ∀ r ∈ w.records, w.tsBase ≤ r.ts := by
      by_cases he : w.records = []
      case pos => simp [he, tsBase, sortedRecords]
      case neg =>
        have ⟨r, hm, ht, hr⟩ := ha he
        exact tsBase_eq hm hr ▸ ⟨ht, fun r' hr' => (hr r' hr').2⟩
    exact encode_of_bounded accel h.length h.seedIds.2.1 h.seedIds.2.2 hb.1 fun r hr =>
      have ⟨hn, ht, _⟩ := h.records r hr
      ⟨hn, hb.2 r hr, ht⟩

theorem add {r : BucketRecord} (h : w.Bounded) (ha : w.add r = some w')
    (hl : w.records.length < historyBucketMaxRecords)
    (hr : r.nameId < 2 ^ 32 ∧ r.ts < 2 ^ 64 ∧ r.status < 16 ∧ r.flags < 16)
    (hs : r.seedId < 2 ^ 32) : w'.Bounded := by
  have ⟨hw, hn⟩ := add_spec ha h.numbered
  refine ⟨hn, ?_, ?_, ?_⟩
  · rw [hw, List.length_append, List.length_singleton]
    exact hl
  · rw [BucketWriter.add] at ha
    split at ha
    case isTrue => cases ha; exact h.seedIds
    case isFalse hm =>
      split at ha <;> cases ha
      case isFalse hs' =>
        refine ⟨by simpa using h.seedIds.1.concat hm, ?_, fun s hm => ?_⟩
        · simp only [List.length_append, List.length_singleton]
          omega
        · cases List.mem_append.mp hm
          case inl hm => exact h.seedIds.2.2 s hm
          case inr hm => exact List.mem_singleton.mp hm ▸ hs
  · rw [hw]
    intro r' hr'
    cases List.mem_append.mp hr'
    case inl hr' => exact h.records r' hr'
    case inr hr' => exact List.mem_singleton.mp hr' ▸ hr

-- Records with few seeds can all be added.
theorem addAll {rs : List BucketRecord} {seeds : List Nat} (h : w.Bounded)
    (hl : w.records.length + rs.length ≤ historyBucketMaxRecords) (hw : w.seedIds ⊆ seeds)
    (hs : seeds.length ≤ 255 ∧ ∀ s ∈ seeds, s < 2 ^ 32)
    (hr : ∀ r ∈ rs, (r.nameId < 2 ^ 32 ∧ r.ts < 2 ^ 64 ∧ r.status < 16 ∧ r.flags < 16) ∧
      r.seedId ∈ seeds) :
    ∃ w', rs.foldlM BucketWriter.add w = some w' ∧ w'.Bounded ∧ w'.records = w.records ++ rs := by
  induction rs generalizing w
  case nil => exact ⟨w, rfl, h, (List.append_nil _).symm⟩
  case cons r rs hi =>
    have ⟨hb, hm⟩ := hr r (.head _)
    rw [List.length_cons] at hl
    have ⟨w', ha, hw'⟩ : ∃ w', w.add r = some w' ∧ w'.seedIds ⊆ seeds := by
      rw [BucketWriter.add]
      split
      case isTrue => exact ⟨_, rfl, hw⟩
      case isFalse hn =>
        have hsub : w.seedIds ++ [r.seedId] ⊆ seeds := by simpa [hw] using hm
        have hnd : (w.seedIds ++ [r.seedId]).Nodup := by simpa using h.seedIds.1.concat hn
        have hle := (List.subperm_of_subset hnd hsub).length_le
        rw [List.length_append, List.length_singleton] at hle
        exact ⟨_, if_neg (by omega), hsub⟩
    have hadd := h.add ha (by omega) hb (hs.2 _ hm)
    have hrec := (add_spec ha h.numbered).1
    have ⟨w'', hf, hb'', hr''⟩ := hi hadd
      (by rw [hrec, List.length_append, List.length_singleton]; omega) hw'
      fun r' hr' => hr r' (.tail _ hr')
    refine ⟨w'', by rw [List.foldlM_cons, ha]; exact hf, hb'', ?_⟩
    rw [hr'', hrec, List.append_assoc, List.singleton_append]

end Bounded

end BucketWriter

-- A bucket that was written from an encodable one.
def BucketFile.Written (file : BucketFile) : Prop :=
  ∃ accel, ∃ w : BucketWriter, w.Bounded ∧ w.encode accel = some file

namespace BucketFile.Written

variable {file : BucketFile}

theorem forName (h : file.Written) (nameId : Nat) :
    file.recordsForName nameId = file.records.filter (·.nameId = nameId) :=
  have ⟨_, _, hb, he⟩ := h
  BucketWriter.recordsForName_encode he hb.numbered nameId

-- The limits that the bucket it was written from respected.
theorem bounded (h : file.Written) : file.records.length ≤ historyBucketMaxRecords ∧
    (∀ r ∈ file.records, r.nameId < 2 ^ 32 ∧ r.ts < 2 ^ 64 ∧ r.status < 16 ∧ r.flags < 16) ∧
    ∃ seeds : List Nat, seeds.length ≤ 255 ∧ (∀ s ∈ seeds, s < 2 ^ 32) ∧
      ∀ r ∈ file.records, r.seedId ∈ seeds := by
  have ⟨_, w, hb, he⟩ := h
  have hp := hb.records_encode he
  exact ⟨hp.length_eq ▸ hb.length, fun r hr => hb.records r (hp.subset hr), w.seedIds,
    hb.seedIds.2.1, hb.seedIds.2.2, fun r hr => hb.numbered r (hp.subset hr)⟩

end BucketFile.Written
