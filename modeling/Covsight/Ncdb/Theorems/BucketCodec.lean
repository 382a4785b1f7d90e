import Covsight.Lib.StableSort
import Covsight.Ncdb.BucketCodec
import Covsight.Ncdb.Theorems.Accel
import Covsight.Ncdb.Theorems.HistoryBuckets

-- Sealing a bucket and reading it.

theorem Compression.decompress_compress (c : Compression) (highQuality useLzma : Bool)
    (data : List UInt8) : c.decompress (c.compress highQuality useLzma data) = some data := by
  have hz (level : Nat) : c.decompress (c.zlibCompress level data) = some data := by
    rw [decompress, if_neg (c.zlib_not_xz level data)]
    exact c.zlib_lossless level data
  rw [compress]
  split
  case isTrue  => exact hz 1
  case isFalse =>
    split
    case isFalse => exact hz 9
    case isTrue  =>
      cases hl : c.lzmaCompress data
      case none        => exact hz 9
      case some stream =>
        rw [Option.getD_some, decompress, if_pos (c.lzma_xz data stream hl)]
        exact c.lzma_lossless data stream hl

-- The numbers of a column are written and read by either kernel.

theorem varintSpan_encodeVarint (n : Nat) (rest : List UInt8) :
    varintSpan (encodeVarint n ++ rest) = (encodeVarint n).length := by
  have hr := (decodeVarint_rest (decodeVarint_encodeVarint n rest)).left
  have hl := congrArg List.length hr
  have hs := varintSpan_le (encodeVarint n ++ rest)
  rw [List.length_drop, List.length_append] at hl
  rw [List.length_append] at hs
  omega

theorem eachVarint_encoded {p : List UInt8 → Prop} {vs : List Nat} (h : ∀ v ∈ vs, p (encodeVarint v))
    (rest : List UInt8) : EachVarint p vs.length (vs.flatMap encodeVarint ++ rest) := by
  induction vs
  case nil => exact trivial
  case cons v vs hi =>
    rw [List.length_cons, EachVarint, List.flatMap_cons, List.append_assoc, varintSpan_encodeVarint,
      List.take_left' rfl, List.drop_left' rfl]
    exact ⟨h v (.head _), hi fun v hm => h v (.tail _ hm)⟩

theorem length_encodeVarint_le {v : Nat} (h : v < 2 ^ 64) : (encodeVarint v).length ≤ 10 := by
  have hl := Nat.log_lt_of_lt_pow' (b := 128) (x := 10) (y := v) (by decide)
    (Nat.lt_trans h (by decide))
  rw [length_encodeVarint, varintWidth]
  omega

theorem length_encoded_le {vs : List Nat} (h : ∀ v ∈ vs, v < 2 ^ 64) :
    (vs.flatMap encodeVarint).length ≤ vs.length * 10 := by
  induction vs
  case nil => exact Nat.le_refl 0
  case cons v vs hi =>
    have hv := length_encodeVarint_le (h v (.head _))
    have hi := hi fun v hm => h v (.tail _ hm)
    rw [List.flatMap_cons, List.length_append, List.length_cons]
    omega

theorem encodeVarints_eq (accel : Bool) {values : List Int} (h : ∀ v ∈ values, 0 ≤ v ∧ v < 2 ^ 64)
    (hl : values.length * 10 < 2 ^ 31) :
    encodeVarints accel values = .value ((values.map Int.toNat).flatMap encodeVarint) := by
  have hp : PureKernel.encodeVarints values = .value ((values.map Int.toNat).flatMap encodeVarint) := by
    have hn : ¬values.any (· < 0) := by
      simpa using fun v hm => (h v hm).left
    rw [PureKernel.encodeVarints, if_neg hn, List.flatMap_map]
  have ha : PureKernel.encodeVarints values = AccelKernel.encodeVarints values := by
    refine (encodeVarints_agree_iff values).mpr (.inr ⟨fun v hm => (h v hm).right, ?_⟩)
    have hw : ∀ v ∈ values.map Int.toNat, v < 2 ^ 64 := by
      intro v hm
      obtain ⟨d, hd, rfl⟩ := List.mem_map.mp hm
      obtain ⟨hn, hlt⟩ := h d hd
      omega
    have hlen := length_encoded_le hw
    rw [List.length_map, List.length_flatMap, List.map_map] at hlen
    simp only [length_encodeVarint, Function.comp_def] at hlen
    omega
  rw [encodeVarints]
  split
  case isTrue  => exact ha.symm.trans hp
  case isFalse => exact hp

theorem pure_decodeVarints_encoded (vs : List Nat) (before after : List UInt8) :
    PureKernel.decodeVarints (before ++ (vs.flatMap encodeVarint ++ after)) vs.length before.length =
      .value (vs, ((before ++ vs.flatMap encodeVarint).length : Nat)) := by
  have hd : decodeMany decodeVarint vs.length (vs.flatMap encodeVarint ++ after) = some (vs, after) :=
    decodeMany_flatMap (fun v _ => decodeVarint_encodeVarint v) after
  have hdrop : (before ++ (vs.flatMap encodeVarint ++ after)).drop before.length =
      vs.flatMap encodeVarint ++ after := List.drop_left' rfl
  have hidx : PureKernel.indexedFrom (before ++ (vs.flatMap encodeVarint ++ after)) before.length =
      vs.flatMap encodeVarint ++ after := by
    rw [PureKernel.indexedFrom, if_pos (Int.natCast_nonneg _), Int.toNat_natCast, hdrop]
  simp only [PureKernel.decodeVarints, hidx, Int.toNat_natCast, hd, CallResult.value.injEq,
    Prod.mk.injEq, true_and, List.length_append]
  omega

-- The extension module finds the numbers too, but may not be able to say where they end.
theorem accel_decodeVarints_encoded {vs : List Nat} (h : ∀ v ∈ vs, v < 2 ^ 64) (hz : vs ≠ [])
    (before after : List UInt8) (hr : ¬Refused vs.length before.length) :
    AccelKernel.decodeVarints (before ++ (vs.flatMap encodeVarint ++ after)) vs.length before.length =
      let newOff := int32 (before ++ vs.flatMap encodeVarint).length
      if newOff < 0 then .raised else .value (vs, newOff) := by
  have hd : decodeMany decodeVarint vs.length (vs.flatMap encodeVarint ++ after) = some (vs, after) :=
    decodeMany_flatMap (fun v _ => decodeVarint_encodeVarint v) after
  have hdrop : (before ++ (vs.flatMap encodeVarint ++ after)).drop before.length =
      vs.flatMap encodeVarint ++ after := List.drop_left' rfl
  have hne : vs.length ≠ 0 := fun h => hz (List.eq_nil_of_length_eq_zero h)
  have hs : EachVarint (·.length ≤ 10) vs.length
      ((before ++ (vs.flatMap encodeVarint ++ after)).drop before.length) :=
    hdrop.symm ▸ eachVarint_encoded (fun v hm => length_encodeVarint_le (h v hm)) after
  have hoff : (before ++ (vs.flatMap encodeVarint ++ after)).length - after.length =
      (before ++ vs.flatMap encodeVarint).length := by
    simp only [List.length_append]
    omega
  have hvs : vs.map (fun v => (UInt64.ofNat v).toNat) = vs :=
    (List.map_congr_left fun v hm => UInt64.toNat_ofNat_of_lt' (h v hm)).trans (List.map_id vs)
  rw [accel_decodeVarints hne hr hs, hdrop, hd]
  simp only [hoff, hvs]

theorem decodeVarints_eq (accel : Bool) {vs : List Nat} (h : ∀ v ∈ vs, v < 2 ^ 64)
    (before after : List UInt8) (hl : accel → before.length + vs.length * 10 < 2 ^ 31) :
    decodeVarints accel (before ++ (vs.flatMap encodeVarint ++ after)) vs.length before.length =
      .value (vs, ((before ++ vs.flatMap encodeVarint).length : Nat)) := by
  rw [decodeVarints]
  split
  case isFalse => exact pure_decodeVarints_encoded vs before after
  case isTrue ha =>
    have hl := hl ha
    by_cases hz : vs = []
    case pos =>
      subst hz
      have hz : (([] : List Nat).length : Int) = 0 := rfl
      rw [AccelKernel.decodeVarints, if_pos hz]
      simp
    case neg =>
      have hr : ¬Refused vs.length before.length := by
        unfold Refused
        omega
      have hlen := length_encoded_le h
      have hsize := (int32_eq_iff (before ++ vs.flatMap encodeVarint).length).mpr <| by
        rw [List.length_append]
        omega
      rw [accel_decodeVarints_encoded h hz before after hr]
      simp only [hsize]
      rw [if_neg (by omega)]

theorem decodeNameEntry_encodeNameEntry {e : Nat × Nat × Nat}
    (h : e.1 < 2 ^ 32 ∧ e.2.1 < 2 ^ 32 ∧ e.2.2 < 2 ^ 16) (rest : List UInt8) :
    decodeNameEntry (encodeNameEntry e ++ rest) = some (e, rest) := by
  have ⟨nameId, startRow, count⟩ := e
  have hn : nameId < 256 ^ 4 := h.1
  have hs : startRow < 256 ^ 4 := h.2.1
  have hc : count < 256 ^ 2 := h.2.2
  simp only [decodeNameEntry, encodeNameEntry, List.append_assoc, decodeFixed_encodeLe hn,
    decodeFixed_encodeLe hs, decodeFixed_encodeLe hc,
    decodeFixed_encodeLe (show 0 < 256 ^ 2 by decide), Option.bind_eq_bind, Option.bind_some]
  rfl

-- The numbers of the tables fit their fields.
structure BucketFile.TablesFit (file : BucketFile) : Prop where
  seedCol   : file.seedCol.length < 2 ^ 32
  tsBase    : file.tsBase < 2 ^ 32
  names     : file.nameIndex.length < 2 ^ 16
  nameIndex : ∀ e ∈ file.nameIndex, e.1 < 2 ^ 32 ∧ e.2.1 < 2 ^ 32 ∧ e.2.2 < 2 ^ 16
  seeds     : file.seedIds.length < 2 ^ 16
  seedIds   : ∀ s ∈ file.seedIds, s < 2 ^ 32

-- So do those of the columns, which have one entry for each record; the name index names no others.
structure BucketFile.ColumnsFit (file : BucketFile) : Prop where
  records     : file.seedCol.length ≤ historyBucketMaxRecords
  rows        : ∀ e ∈ file.nameIndex, e.2.1 + e.2.2 ≤ file.seedCol.length
  seedCol     : ∀ s ∈ file.seedCol, s < 256
  deltas      : file.tsDeltas.length = file.seedCol.length
  tsDeltas    : ∀ d ∈ file.tsDeltas, d < 2 ^ 64
  flags       : file.statusFlags.length = file.seedCol.length
  statusFlags : ∀ sf ∈ file.statusFlags, sf < 256

theorem length_encodeTables (file : BucketFile) : file.encodeTables.length =
    18 + 12 * file.nameIndex.length + 4 * file.seedIds.length := by
  have hn (e : Nat × Nat × Nat) : (encodeNameEntry e).length = 12 := by simp [encodeNameEntry]
  simp only [BucketFile.encodeTables, List.length_append, length_encodeLe, List.length_flatMap, hn,
    List.map_const', List.sum_replicate_nat]
  omega

theorem map_toNat_toUInt8 {ns : List Nat} (h : ∀ n ∈ ns, n < 256) :
    (ns.map Nat.toUInt8).map UInt8.toNat = ns := by
  rw [List.map_map]
  exact (List.map_congr_left fun n hn => toNat_toUInt8 (h n hn)).trans (List.map_id ns)

namespace BucketReader

theorem parseTables_encodeTables {file : BucketFile} (h : file.TablesFit) (rest : List UInt8) :
    parseTables (file.encodeTables ++ rest) =
      some ((file.seedCol.length, file.tsBase, file.nameIndex, file.seedIds), rest) := by
  have hrecords : file.seedCol.length < 256 ^ 4 := h.seedCol
  have hbase : file.tsBase < 256 ^ 4 := h.tsBase
  have hnames : file.nameIndex.length < 256 ^ 2 := h.names
  have hseeds : file.seedIds.length < 256 ^ 2 := h.seeds
  have hindex := decodeMany_flatMap (fun e he => decodeNameEntry_encodeNameEntry (h.nameIndex e he))
  have hids := decodeMany_flatMap fun s hs =>
    decodeFixed_encodeLe (show s < 256 ^ 4 from h.seedIds s hs)
  simp only [parseTables, BucketFile.encodeTables, List.append_assoc,
    decodeFixed_encodeLe (show bucketMagic < 256 ^ 4 by decide),
    decodeFixed_encodeLe (show bucketVersion < 256 ^ 1 by decide),
    decodeFixed_encodeLe (show 0 < 256 ^ 1 by decide), decodeFixed_encodeLe hrecords,
    decodeFixed_encodeLe hnames, decodeFixed_encodeLe hbase, decodeFixed_encodeLe hseeds, hindex, hids,
    Option.bind_eq_bind, Option.bind_some, guard_true, and_self]
  rfl

theorem parse_encoded {file : BucketFile} (accel : Bool) (ht : file.TablesFit) (hc : file.ColumnsFit) :
    parse accel (file.encodeTables ++ (file.seedCol.map Nat.toUInt8 ++
      (file.tsDeltas.flatMap encodeVarint ++ file.statusFlags.map Nat.toUInt8))) = .value file := by
  have hsize := length_encodeTables file
  have hnames := ht.names
  have hseeds := ht.seeds
  have hrecords := hc.records
  have hseedCol : (file.seedCol.map Nat.toUInt8).length = file.seedCol.length := List.length_map ..
  have hdecoded := decodeVarints_eq accel hc.tsDeltas
    (file.encodeTables ++ file.seedCol.map Nat.toUInt8) (file.statusFlags.map Nat.toUInt8) fun _ => by
      rw [List.length_append, hseedCol, hc.deltas]
      unfold historyBucketMaxRecords at hrecords
      omega
  rw [hc.deltas, List.append_assoc] at hdecoded
  rw [parse, parseTables_encodeTables ht]
  have hoff (tail : List UInt8) : (file.encodeTables ++ tail).length - tail.length + file.seedCol.length =
      (file.encodeTables ++ file.seedCol.map Nat.toUInt8).length := by
    simp only [List.length_append, hseedCol]
    omega
  have htail : (file.encodeTables ++ (file.seedCol.map Nat.toUInt8 ++
      (file.tsDeltas.flatMap encodeVarint ++ file.statusFlags.map Nat.toUInt8))).drop
        (file.encodeTables ++ file.seedCol.map Nat.toUInt8 ++ file.tsDeltas.flatMap encodeVarint).length =
      file.statusFlags.map Nat.toUInt8 := by
    simp only [← List.append_assoc]
    exact List.drop_left' rfl
  have hflags : (file.statusFlags.map Nat.toUInt8).length = file.seedCol.length := by
    rw [List.length_map, hc.flags]
  simp only [hoff, hdecoded, CallResult.bind, Int.toNat_natCast, htail, List.take_left' hseedCol,
    List.take_of_length_le hflags.le, map_toNat_toUInt8 hc.seedCol, map_toNat_toUInt8 hc.statusFlags]
  refine if_pos ⟨trivial, hc.flags, List.all_eq_true.mpr fun e he => ?_⟩
  exact decide_eq_true (.inr (hc.rows e he))

end BucketReader

namespace BucketWriter

variable {accel : Bool} {w : BucketWriter} {file : BucketFile}

theorem length_deltasFrom (base : Int) (prev : Dict Nat Int) (rs : List BucketRecord) :
    (deltasFrom base prev rs).length = rs.length := by
  induction rs generalizing prev
  case nil          => rfl
  case cons r rs hi => rw [deltasFrom, List.length_cons, hi, List.length_cons]

-- The deltas of an encodable bucket have 64 bits.
theorem Bounded.deltas_lt (h : w.Bounded) (hf : w.encode accel = some file) :
    ∀ d ∈ w.deltas, 0 ≤ d ∧ d < 2 ^ 64 := by
  have ⟨hb, hd, _⟩ := packs_iff.mp (encode_eq_some hf).right
  have hr := deltas_nonneg_iff.mp fun d hm => (hd d hm).left
  have hlt : ∀ d ∈ w.deltas, d < 2 ^ 64 := by
    refine deltasFrom_lt (fun r hm => ?_) hb.left nofun
    have hm := mem_sortedRecords.mp hm
    exact ⟨Int.le_trans hb.left (hr r hm), (h.records r hm).right.left⟩
  exact fun d hm => ⟨(hd d hm).left, hlt d hm⟩

theorem tablesFit_encode (hf : w.encode accel = some file) : file.TablesFit := by
  have ⟨he, hp⟩ := encode_eq_some hf
  have ⟨hb, _, hl, hnames, hindex, hseeds, hids⟩ := packs_iff.mp hp
  have hs := (sortedRecords_perm w).length_eq
  subst he
  exact {
    seedCol   := by rw [List.length_map, hs]; exact hl
    tsBase    := by simp only; omega
    names     := hnames
    nameIndex := hindex
    seeds     := hseeds
    seedIds   := hids
  }

theorem Bounded.columnsFit (h : w.Bounded) (hf : w.encode accel = some file) : file.ColumnsFit := by
  have ⟨he, _⟩ := encode_eq_some hf
  have hd := h.deltas_lt hf
  have hs := (sortedRecords_perm w).length_eq
  have hlen := h.length
  subst he
  exact {
    records     := by rw [List.length_map, hs]; exact h.length
    rows        := fun e he => by
      rw [List.length_map, hs]
      exact (nameIndex_rows e he).right
    seedCol     := fun s hm => by
      obtain ⟨r, hr, rfl⟩ := List.mem_map.mp hm
      have hlt := List.idxOf_lt_length_of_mem (h.numbered r (mem_sortedRecords.mp hr))
      have hle := h.seedIds.right.left
      omega
    deltas      := by simp only [List.length_map]; exact length_deltasFrom ..
    tsDeltas    := fun d hm => by
      obtain ⟨d, hm', rfl⟩ := List.mem_map.mp hm
      have hd := hd d hm'
      omega
    flags       := by simp only [List.length_map]
    statusFlags := fun sf hm => by
      obtain ⟨r, _, rfl⟩ := List.mem_map.mp hm
      omega
  }

theorem Bounded.encodeRaw_eq (h : w.Bounded) (hf : w.encode accel = some file) :
    w.encodeRaw accel = .value (file.encodeTables ++ (file.seedCol.map Nat.toUInt8 ++
      (file.tsDeltas.flatMap encodeVarint ++ file.statusFlags.map Nat.toUInt8))) := by
  have hlen : w.deltas.length * 10 < 2 ^ 31 := by
    have hl := h.length
    rw [deltas, length_deltasFrom, (sortedRecords_perm w).length_eq]
    unfold historyBucketMaxRecords at hl
    omega
  have hd : w.deltas.map Int.toNat = file.tsDeltas := by rw [(encode_eq_some hf).left]
  rw [encodeRaw, encodeVarints_eq accel (h.deltas_lt hf) hlen, hf, hd]
  rfl

-- What a sealed bucket of some quality is read as.
theorem Bounded.sealed_iff (h : w.Bounded) (c : Compression) (accel accel' highQuality useLzma : Bool)
    (p : BucketFile → Prop) :
    (∃ raw, w.encodeRaw accel = .value raw ∧
      ∃ file, BucketReader.read c accel' (c.compress highQuality useLzma raw) = .value file ∧ p file) ↔
    ∃ file, w.encode accel = some file ∧ p file := by
  have hread (raw : List UInt8) : BucketReader.read c accel' (c.compress highQuality useLzma raw) =
      BucketReader.parse accel' raw := by
    rw [BucketReader.read, c.decompress_compress]
  constructor
  case mp =>
    intro ⟨raw, he, file, hr, hp⟩
    cases hf : w.encode accel
    case none =>
      rw [encodeRaw, hf] at he
      cases hv : encodeVarints accel w.deltas <;> rw [hv] at he <;> cases he
    case some file' =>
      cases (h.encodeRaw_eq hf).symm.trans he
      rw [hread, BucketReader.parse_encoded accel' (tablesFit_encode hf) (h.columnsFit hf)] at hr
      cases hr
      exact ⟨file, rfl, hp⟩
  case mpr =>
    intro ⟨file, hf, hp⟩
    refine ⟨_, h.encodeRaw_eq hf, file, ?_, hp⟩
    rw [hread, BucketReader.parse_encoded accel' (tablesFit_encode hf) (h.columnsFit hf)]

end BucketWriter

-- The same records in the order of their names and times, and in the order they had where both are
-- the same.
structure StablySorted (records sorted : List BucketRecord) : Prop where
  perm   : sorted.Perm records
  before : sorted.Pairwise BucketRecord.before
  stable : ∀ nameId ts, sorted.filter (fun r => r.nameId = nameId ∧ r.ts = ts) =
    records.filter (fun r => r.nameId = nameId ∧ r.ts = ts)

-- The documented limits of a bucket.
structure WithinLimits (records : List BucketRecord) : Prop where
  length  : records.length ≤ historyBucketMaxRecords
  seeds   : (records.map (·.seedId)).dedup.length ≤ 255
  numbers : ∀ r ∈ records, r.nameId < 2 ^ 32 ∧ r.seedId < 2 ^ 32 ∧ (0 ≤ r.ts ∧ r.ts < 2 ^ 32) ∧
    r.status < 16 ∧ r.flags < 16

-- Adding the records and sealing the bucket succeeds, and so does reading it.
def RoundTrips (encode : BucketWriter → CallResult (List UInt8))
    (read : List UInt8 → CallResult BucketFile) (records : List BucketRecord) : Prop :=
  ∃ w data file, records.foldlM BucketWriter.add {} = some w ∧ encode w = .value data ∧
    read data = .value file ∧ StablySorted records file.records ∧
    ∀ nameId, file.recordsForName nameId = file.records.filter (·.nameId = nameId)

theorem stablySorted_records {accel : Bool} {w : BucketWriter} {file : BucketFile} (h : w.Bounded)
    (hf : w.encode accel = some file) : StablySorted w.records file.records := by
  have hr : file.records = w.sortedRecords :=
    (BucketWriter.records_encode hf h.numbered).trans h.sortedRecords_truncated
  rw [hr]
  refine ⟨BucketWriter.sortedRecords_perm w, BucketWriter.sortedRecords_pairwise w, fun nameId ts => ?_⟩
  refine filter_insertionSort (fun a b ha hb => ?_) w.records
  simp only [decide_eq_true_eq] at ha hb
  exact .inr (by omega)

-- Records within the limits round trip if one of the lowest name is as old as any other.
theorem roundTrips_iff {encode : BucketWriter → CallResult (List UInt8)} {accel accel' : Bool}
    {c : Compression} {highQuality useLzma : Bool} {records : List BucketRecord}
    (he : ∀ w, encode w = (w.encodeRaw accel).bind fun raw => .value (c.compress highQuality useLzma raw))
    (h : WithinLimits records) :
    RoundTrips encode (BucketReader.read c accel') records ↔ (records ≠ [] → BucketWriter.Anchored records) := by
  have hnumbers : ∀ r ∈ records, (r.nameId < 2 ^ 32 ∧ r.ts < 2 ^ 64 ∧ r.status < 16 ∧ r.flags < 16) ∧
      r.seedId ∈ (records.map (·.seedId)).dedup := by
    intro r hr
    have ⟨hn, _, ht, hs, hf⟩ := h.numbers r hr
    exact ⟨⟨hn, by omega, hs, hf⟩, List.mem_dedup.mpr (List.mem_map_of_mem hr)⟩
  have hseeds : ∀ s ∈ (records.map (·.seedId)).dedup, s < 2 ^ 32 := by
    intro s hs
    obtain ⟨r, hr, rfl⟩ := List.mem_map.mp (List.mem_dedup.mp hs)
    exact (h.numbers r hr).right.left
  have ⟨w, ha, hw, hrecords⟩ : ∃ w, records.foldlM BucketWriter.add {} = some w ∧ w.Bounded ∧
      w.records = [] ++ records :=
    BucketWriter.Bounded.empty.addAll (by simpa using h.length) (List.nil_subset _)
      ⟨h.seeds, hseeds⟩ hnumbers
  rw [List.nil_append] at hrecords
  have hsealed := hw.sealed_iff c accel accel' highQuality useLzma fun _ => True
  have hanchored := hw.encode_iff accel
  rw [hrecords] at hanchored
  rw [← hanchored]
  constructor
  case mp =>
    intro ⟨w', data, file, ha', hd, hr, _⟩
    cases ha.symm.trans ha'
    rw [he] at hd
    cases hraw : w.encodeRaw accel
    case value raw =>
      rw [hraw] at hd
      cases hd
      have ⟨file, hf, _⟩ := hsealed.mp ⟨raw, hraw, file, hr, trivial⟩
      exact ⟨file, hf⟩
    all_goals rw [hraw] at hd; cases hd
  case mpr =>
    intro ⟨file, hf⟩
    have hsealed := hw.sealed_iff c accel accel' highQuality useLzma (· = file)
    have ⟨raw, hraw, _, hr, hfile⟩ := hsealed.mpr ⟨file, hf, rfl⟩
    subst hfile
    refine ⟨w, _, _, ha, (he w).trans (congrArg (CallResult.bind · _) hraw), hr, ?_, ?_⟩
    · exact hrecords ▸ stablySorted_records hw hf
    · exact BucketWriter.recordsForName_encode hf hw.numbered

-- Records within the limits are sealed and read back, in order, if there are none or some record of
-- the lowest name is as old as any other.
theorem seal_roundTrips_iff (c : Compression) (accel accel' useLzma : Bool)
    {records : List BucketRecord} (h : WithinLimits records) :
    (RoundTrips (BucketWriter.sealWith c accel useLzma) (BucketReader.read c accel') records ↔
      (records ≠ [] → BucketWriter.Anchored records)) ∧
    (RoundTrips (BucketWriter.sealFast c accel) (BucketReader.read c accel') records ↔
      (records ≠ [] → BucketWriter.Anchored records)) :=
  ⟨roundTrips_iff (fun _ => rfl) h, roundTrips_iff (fun _ => rfl) h⟩

section Streams

-- A zlib that packs one text as the real one does and stores all others.

variable (text fast best : List UInt8)

def packText (level : Nat) (data : List UInt8) : List UInt8 :=
  if data = text then (if level = 1 then fast else best) else 0x78 :: 0x00 :: data

def unpackText (stream : List UInt8) : Option (List UInt8) :=
  if stream = fast ∨ stream = best then
    some text
  else if stream.take 2 = [0x78, 0x00] then
    some (stream.drop 2)
  else
    none

def Compression.ofText (hf : fast.take 2 = [0x78, 0x01]) (hb : best.take 2 = [0x78, 0xDA]) :
    Compression where
  zlibCompress   := packText text fast best
  zlibDecompress := unpackText text fast best
  lzmaCompress   := fun _ => none
  lzmaDecompress := fun _ => none
  zlib_lossless  := by
    intro level data
    have hstored : ¬(0x78 :: 0x00 :: data = fast ∨ 0x78 :: 0x00 :: data = best) := by
      rintro (rfl | rfl) <;> simp at hf hb
    rw [packText]
    split
    case isTrue h =>
      have hp : (if level = 1 then fast else best) = fast ∨ (if level = 1 then fast else best) = best := by
        split
        case isTrue  => exact .inl rfl
        case isFalse => exact .inr rfl
      rw [unpackText, if_pos hp, h]
    case isFalse =>
      rw [unpackText, if_neg hstored]
      rfl
  zlib_not_xz    := by
    intro level data
    have hxz {stream : List UInt8} (flags : UInt8) (h : stream.take 2 = [0x78, flags]) :
        stream.take 6 ≠ [0xFD, 0x37, 0x7A, 0x58, 0x5A, 0x00] := by
      intro hx
      have ht := congrArg (List.take 2) hx
      rw [List.take_take, show min 2 6 = 2 from rfl, h] at ht
      simp at ht
    rw [packText]
    split
    case isTrue =>
      split
      case isTrue  => exact hxz _ hf
      case isFalse => exact hxz _ hb
    case isFalse => exact hxz 0x00 rfl
  lzma_lossless  := nofun
  lzma_xz        := nofun

end Streams

theorem seal_roundTrips_one :
    let records := [{ nameId := 0, seedId := 0, ts := 100, status := 1, flags := 4 }]
    let c := Compression.ofText
      [66, 89, 68, 72, 1, 1, 0, 0, 0, 1, 0, 0, 100, 0, 0, 0, 0, 0, 0, 0, 0, 0, 0, 0, 1, 0, 0, 0, 1, 0,
        0, 0, 0, 0, 0, 0, 20]
      [120, 1, 115, 138, 116, 241, 96, 100, 100, 96, 96, 0, 226, 20, 32, 5, 3, 80, 33, 48, 87, 4, 0,
        51, 90, 1, 165]
      [120, 218, 115, 138, 116, 241, 96, 100, 100, 96, 96, 0, 226, 20, 6, 4, 128, 10, 129, 129, 8, 0,
        51, 90, 1, 165]
      rfl rfl
    WithinLimits records ∧
      (RoundTrips (BucketWriter.sealWith c false true) (BucketReader.read c false) records ↔
        (records ≠ [] → BucketWriter.Anchored records)) ∧
      (RoundTrips (BucketWriter.sealFast c false) (BucketReader.read c false) records ↔
        (records ≠ [] → BucketWriter.Anchored records)) := by
  have h : WithinLimits [{ nameId := 0, seedId := 0, ts := 100, status := 1, flags := 4 }] :=
    ⟨by decide, by decide, by decide⟩
  exact ⟨h, seal_roundTrips_iff _ false false true h⟩

-- A record of a later name that is older than the base takes a negative delta.
theorem older_record_not_sealed :
    let records := [
      { nameId := 0, seedId := 0, ts := 100, status := 0, flags := 0 },
      { nameId := 1, seedId := 0, ts := 50, status := 0, flags := 0 }
    ]
    WithinLimits records ∧ ∀ c accel accel' useLzma,
      ¬RoundTrips (BucketWriter.sealWith c accel useLzma) (BucketReader.read c accel') records := by
  have h : WithinLimits [{ nameId := 0, seedId := 0, ts := 100, status := 0, flags := 0 },
      { nameId := 1, seedId := 0, ts := 50, status := 0, flags := 0 }] :=
    ⟨by decide, by decide, by decide⟩
  refine ⟨h, fun c accel accel' useLzma hr => ?_⟩
  exact absurd ((roundTrips_iff (fun _ => rfl) h).mp hr) (by decide)
