import Covsight.Lib.EncodedReads
import Covsight.Ncdb.CountsCodec
import Covsight.Ncdb.Theorems.BucketCodec
import Covsight.NcdbC.MemberDecoders

-- Counts are read back as they were written, in Python and in C, unless a size is too much for the
-- extension module.

section Reads

open Decoder

theorem foldl_snoc {α : Type} (xs ys : List α) : xs.foldl (fun vals x => vals ++ [x]) ys = ys ++ xs := by
  induction xs generalizing ys
  case nil => rw [List.foldl_nil, List.append_nil]
  case cons x xs hi => rw [List.foldl_cons, hi, List.append_assoc, List.singleton_append]

theorem reads_ncdbVarintDecodeMany {vals : List UInt64} (hl : vals.length < 2 ^ 64) :
    (ncdbVarintDecodeMany (UInt64.ofNat vals.length)).Reads
      (vals.flatMap fun n => encodeVarint n.toNat) vals := by
  have hbody (n : UInt64) (_ : n ∈ vals) (_ : Nat) (read : List UInt64) :
      (do return read ++ [← varint] : Decoder _).Reads (encodeVarint n.toNat) (read ++ [n]) :=
    (reads_varint n).map (read ++ [·])
  have hrecords := reads_records hl hbody []
  rw [foldl_snoc, List.nil_append] at hrecords
  exact hrecords

-- All numbers fit in before the first of them is read.
theorem reads_ncdbUint32DecodeMany {vals : List UInt64} (h : ∀ n ∈ vals, n.toNat < 2 ^ 32)
    (hl : vals.length * 4 < 2 ^ 63) :
    (ncdbUint32DecodeMany (UInt64.ofNat vals.length)).Reads
      (vals.flatMap fun n => encodeLe 4 n.toNat) vals := by
  have hsize : (vals.flatMap fun n => encodeLe 4 n.toNat).length = vals.length * 4 := by
    simp [List.length_flatMap]
  have hfour : (UInt64.ofNat vals.length * 4).toNat = vals.length * 4 := by
    have hlt : vals.length < 2 ^ 64 := by omega
    rw [UInt64.toNat_mul, UInt64.toNat_ofNat_of_lt' hlt]
    exact Nat.mod_eq_of_lt (by change vals.length * 4 < _; omega)
  have hbody (n : UInt64) (hn : n ∈ vals) (_ : Nat) (read : List UInt64) :
      (do return read ++ [(← take 4).foldr (fun b n => 256 * n + b.toUInt64) 0] : Decoder _).Reads
        (encodeLe 4 n.toNat) (read ++ [n]) := by
    have hr := (reads_take (encodeLe 4 n.toNat)).map
      fun bs : List UInt8 => read ++ [bs.foldr (fun b n => 256 * n + b.toUInt64) 0]
    rwa [length_encodeLe, foldr_encodeLe (h n hn), UInt64.ofNat_toNat] at hr
  have hrecords := reads_records (by omega) hbody []
  rw [foldl_snoc, List.nil_append] at hrecords
  intro r c hm hn
  have hfits : ¬r.buffer.size < r.add c.off (UInt64.ofNat vals.length * 4).toNat := by
    rw [hfour, ← hsize, Reading.add_of_hasNext hn]
    exact Nat.not_lt_of_le hn.length_le
  have hdone : fits false (UInt64.ofNat vals.length * 4) r c =
      (.done (), c.noting (UInt64.ofNat vals.length * 4) false) := by
    rw [fits, if_neg hfits]
  obtain ⟨c', hd, ho⟩ :=
    hrecords r (c.noting (UInt64.ofNat vals.length * 4) false) hm ⟨hn.le_size, hn.next⟩
  exact ⟨c', (bind_of_done hdone).trans hd, ho⟩

end Reads

-- How many bytes the counts take as numbers of any length.
def countsWidth (counts : Counts) : Nat :=
  (counts.map varintWidth).sum

theorem length_flatMap_encodeVarint (counts : Counts) :
    (counts.flatMap encodeVarint).length = countsWidth counts := by
  rw [List.length_flatMap, countsWidth]
  exact congrArg List.sum (List.map_congr_left fun n _ => length_encodeVarint n)

-- Numbers of four bytes are written.
def Counts.Fixed (counts : Counts) : Prop :=
  (∀ n ∈ counts, n < 2 ^ 32) ∧ counts.length * 4 ≤ countsWidth counts

namespace CountsMember

variable {accel : Bool} {counts : Counts}

theorem encodeVarints_pure (counts : Counts) :
    encodeVarints false (counts.map Int.ofNat) = .value (counts.flatMap encodeVarint) := by
  have hn : ¬(counts.map Int.ofNat).any (· < 0) := by simp
  change PureKernel.encodeVarints (counts.map Int.ofNat) = _
  rw [PureKernel.encodeVarints, if_neg hn, List.flatMap_map]
  rfl

-- The extension module gives as many bytes as the size says that comes back.
theorem encodeVarints_accel (h : ∀ n ∈ counts, n < 2 ^ 64) :
    encodeVarints true (counts.map Int.ofNat) =
      let written := int32 (countsWidth counts)
      if written < 0 then .raised else .value ((counts.flatMap encodeVarint).take written.toNat) := by
  have hn : ¬(counts.map Int.ofNat).any (fun v => v < 0 ∨ 2 ^ 64 ≤ v) := by
    simp only [List.any_map, List.any_eq_true, not_exists, not_and, Function.comp_apply]
    intro n hm
    have := h n hm
    simp only [decide_eq_true_eq, Int.ofNat_eq_natCast]
    omega
  have hout : ((counts.map Int.ofNat).map fun v => UInt64.ofNat v.toNat).flatMap
      (fun v => encodeVarint v.toNat) = counts.flatMap encodeVarint := by
    rw [List.map_map, List.flatMap_map]
    refine List.flatMap_congr fun n hm => congrArg encodeVarint ?_
    exact UInt64.toNat_ofNat_of_lt' (h n hm)
  change AccelKernel.encodeVarints (counts.map Int.ofNat) = _
  rw [AccelKernel.encodeVarints, if_neg hn,
    ncdbEncodeVarints_eq (by rw [List.length_map]; exact Nat.le_max_left ..), hout]
  simp only [length_flatMap_encodeVarint]

theorem encodeVarints_small (h : ∀ n ∈ counts, n < 2 ^ 64) (hw : accel = false ∨ countsWidth counts < 2 ^ 31) :
    encodeVarints accel (counts.map Int.ofNat) = .value (counts.flatMap encodeVarint) := by
  cases accel
  case false => exact encodeVarints_pure counts
  case true =>
    have hs := (int32_eq_iff (countsWidth counts)).mpr (hw.resolve_left nofun)
    rw [encodeVarints_accel h]
    simp only [hs]
    rw [if_neg (by omega), Int.toNat_natCast,
      List.take_of_length_le (length_flatMap_encodeVarint counts).le]

theorem serialize_of_encoded
    (h : encodeVarints accel (counts.map Int.ofNat) = .value (counts.flatMap encodeVarint)) :
    serialize accel counts = .value (CountsWriter.serialize counts) := by
  rw [serialize, h, CallResult.bind, CountsWriter.serialize]
  split <;> rfl

theorem any_large_iff (counts : Counts) : counts.any (0xFFFFFFFF < ·) ↔ ¬∀ n ∈ counts, n < 2 ^ 32 := by
  simp only [List.any_eq_true, decide_eq_true_eq, not_forall, exists_prop]
  exact exists_congr fun n => and_congr_right' (by omega)

-- What is written, by the way that was chosen.
theorem serialize_eq (counts : Counts) : CountsWriter.serialize counts =
    if counts.any (0xFFFFFFFF < ·) ∨ countsWidth counts < counts.length * 4 then
      countsModeVarint :: (encodeVarint counts.length ++ counts.flatMap encodeVarint)
    else
      countsModeUint32 :: (encodeVarint counts.length ++ counts.flatMap (encodeLe 4)) := by
  rw [CountsWriter.serialize, length_flatMap_encodeVarint]

theorem fixed_iff (counts : Counts) :
    ¬(counts.any (0xFFFFFFFF < ·) ∨ countsWidth counts < counts.length * 4) ↔ counts.Fixed := by
  rw [any_large_iff, Counts.Fixed, not_or, not_not, Nat.not_lt]

-- The counts as they follow on the mode and their number.

theorem deserialize_varints (count : Nat) (bytes : List UInt8) :
    deserialize accel (countsModeVarint :: (encodeVarint count ++ bytes)) =
      if (bytes.take count).length = count ∧ (bytes.take count).all (·.toNat < 128) then
        .value ((bytes.take count).map (·.toNat))
      else
        (decodeVarints accel (countsModeVarint :: encodeVarint count ++ bytes) count
          (countsModeVarint :: encodeVarint count).length).bind fun (values, _) => .value values := by
  have hoff : (countsModeVarint :: (encodeVarint count ++ bytes)).length - bytes.length =
      (countsModeVarint :: encodeVarint count).length := by
    simp only [List.length_cons, List.length_append]
    omega
  rw [deserialize, decodeVarint_encodeVarint]
  simp only [if_true, hoff]
  rfl

theorem deserialize_fixed (h : ∀ n ∈ counts, n < 2 ^ 32) :
    deserialize accel (countsModeUint32 :: (encodeVarint counts.length ++ counts.flatMap (encodeLe 4))) =
      .value counts := by
  have hd := decodeMany_flatMap
    (fun n hm => CountsReader.decodeUint32_encodeLe (Nat.le_of_lt_succ (h n hm))) []
  rw [List.append_nil] at hd
  have hm : ¬countsModeUint32 = countsModeVarint := by decide
  rw [deserialize, decodeVarint_encodeVarint]
  simp only [hm, if_false, hd]

theorem flatMap_encodeVarint_of_lt (h : ∀ n ∈ counts, n < 128) :
    counts.flatMap encodeVarint = counts.map Nat.toUInt8 := by
  induction counts
  case nil => rfl
  case cons n counts hi =>
    rw [List.forall_mem_cons] at h
    have hb : encodeVarint n = [n.toUInt8] := by
      rw [encodeVarint, varintBytes_eq (Nat.le_refl n), if_pos h.left]
    rw [List.flatMap_cons, hb, hi h.right]
    rfl

-- The bytes are taken for the counts if that is what they are.
theorem payload_iff (counts : Counts) :
    let payload := (counts.flatMap encodeVarint).take counts.length
    payload.length = counts.length ∧ payload.all (·.toNat < 128) ↔ ∀ n ∈ counts, n < 128 := by
  intro payload
  constructor
  case mp =>
    intro ⟨hl, hp⟩
    have hb := CountsReader.decodeMany_bytes payload ((counts.flatMap encodeVarint).drop counts.length) hp
    have hd := decodeMany_flatMap (fun n (_ : n ∈ counts) => decodeVarint_encodeVarint n) []
    rw [List.append_nil] at hd
    rw [hl, List.take_append_drop, hd, Option.some.injEq, Prod.mk.injEq] at hb
    intro n hm
    rw [hb.left] at hm
    have ⟨b, hbm, he⟩ := List.mem_map.mp hm
    exact he ▸ of_decide_eq_true (List.all_eq_true.mp hp b hbm)
  case mpr =>
    intro h
    have hpay : payload = counts.map Nat.toUInt8 := by
      change (counts.flatMap encodeVarint).take counts.length = _
      rw [flatMap_encodeVarint_of_lt h, List.take_of_length_le (List.length_map ..).le]
    rw [hpay, List.length_map, List.all_map]
    refine ⟨rfl, List.all_eq_true.mpr fun n hm => decide_eq_true ?_⟩
    exact (toNat_toUInt8 (Nat.lt_trans (h n hm) (by decide))).symm ▸ h n hm

theorem deserialize_bytes (h : ∀ n ∈ counts, n < 128) :
    deserialize accel (countsModeVarint :: (encodeVarint counts.length ++ counts.flatMap encodeVarint)) =
      .value counts := by
  have hp := (payload_iff counts).mpr h
  rw [deserialize_varints, if_pos hp, flatMap_encodeVarint_of_lt h,
    List.take_of_length_le (List.length_map ..).le,
    map_toNat_toUInt8 fun n hm => Nat.lt_trans (h n hm) (by decide)]

-- What the reader makes of numbers that are not all of one byte.
theorem deserialize_general (h : ¬∀ n ∈ counts, n < 128) :
    deserialize accel (countsModeVarint :: (encodeVarint counts.length ++ counts.flatMap encodeVarint)) =
      (decodeVarints accel (countsModeVarint :: encodeVarint counts.length ++
        counts.flatMap encodeVarint) counts.length
          (countsModeVarint :: encodeVarint counts.length).length).bind fun (values, _) => .value values := by
  rw [deserialize_varints, if_neg fun hp => h ((payload_iff counts).mp hp)]

theorem length_le_countsWidth (counts : Counts) : counts.length ≤ countsWidth counts := by
  induction counts
  case nil => exact Nat.le_refl 0
  case cons n counts hi =>
    have hw : 1 ≤ varintWidth n := Nat.le_add_left 1 _
    have hs : countsWidth (n :: counts) = varintWidth n + countsWidth counts := List.sum_cons
    rw [List.length_cons, hs]
    omega

theorem varintWidth_le {n width : Nat} (hw : width ≠ 0) (h : n < 128 ^ width) : varintWidth n ≤ width := by
  have := Nat.log_lt_of_lt_pow' hw h
  rw [varintWidth]
  omega

-- The size of all that is written is the size of the counts and a few bytes.
theorem int32_size (hw : countsWidth counts < 2 ^ 31) :
    int32 (1 + varintWidth counts.length + countsWidth counts) < 0 ↔
      ¬1 + varintWidth counts.length + countsWidth counts < 2 ^ 31 := by
  have hl := length_le_countsWidth counts
  have hv : varintWidth counts.length ≤ 5 := varintWidth_le (by decide) (by omega)
  generalize hsize : 1 + varintWidth counts.length + countsWidth counts = size
  have he := int32_eq_iff size
  by_cases hs : size < 2 ^ 31
  case pos => exact iff_of_false (by omega) (not_not_intro hs)
  case neg => exact iff_of_true (int32_neg (by omega) (by omega)) hs

theorem deserialize_serialize_iff (h : ∀ n ∈ counts, n < 2 ^ 64)
    (hw : accel = false ∨ countsWidth counts < 2 ^ 31) :
    deserialize accel (CountsWriter.serialize counts) = .value counts ↔
      accel = false ∨ counts.Fixed ∨ (∀ n ∈ counts, n < 128) ∨
        1 + varintWidth counts.length + countsWidth counts < 2 ^ 31 := by
  rw [serialize_eq]
  split
  case isFalse hf =>
    have hf := (fixed_iff counts).mp hf
    exact iff_of_true (deserialize_fixed hf.left) (.inr <| .inl hf)
  case isTrue hf =>
    have hf : ¬counts.Fixed := fun hc => (fixed_iff counts).mpr hc hf
    by_cases hb : ∀ n ∈ counts, n < 128
    case pos => exact iff_of_true (deserialize_bytes hb) (.inr <| .inr <| .inl hb)
    case neg =>
      have hz : counts ≠ [] := fun hz => hb (hz ▸ nofun)
      rw [deserialize_general hb]
      cases accel
      case false =>
        have hp := pure_decodeVarints_encoded counts (countsModeVarint :: encodeVarint counts.length) []
        rw [List.append_nil] at hp
        refine iff_of_true ?_ (.inl rfl)
        exact congrArg (CallResult.bind · fun (values, _) => .value values) hp
      case true =>
        have hw := hw.resolve_left nofun
        have hl := length_le_countsWidth counts
        have hs := int32_size hw
        have hlen : (countsModeVarint :: encodeVarint counts.length).length =
            1 + varintWidth counts.length := by
          rw [List.length_cons, length_encodeVarint, Nat.add_comm]
        have hv : varintWidth counts.length ≤ 5 := varintWidth_le (by decide) (by omega)
        have hr : ¬Refused counts.length (countsModeVarint :: encodeVarint counts.length).length := by
          unfold Refused
          omega
        have ha := accel_decodeVarints_encoded h hz (countsModeVarint :: encodeVarint counts.length) [] hr
        rw [List.append_nil] at ha
        simp only [List.length_append, hlen, length_flatMap_encodeVarint] at ha
        change CallResult.bind (AccelKernel.decodeVarints ..) _ = _ ↔ _
        rw [hlen, ha]
        split
        case isTrue hn =>
          exact iff_of_false nofun <| not_or.mpr ⟨nofun, not_or.mpr ⟨hf, not_or.mpr ⟨hb, hs.mp hn⟩⟩⟩
        case isFalse hn =>
          exact iff_of_true rfl (.inr <| .inr <| .inr <| not_not.mp fun hc => hn (hs.mpr hc))

-- Where the size of the counts takes more than 31 bits, what is written breaks off, if anything is
-- written.

theorem decodeMany_taken {size : Nat} (h : size < countsWidth counts) :
    decodeMany decodeVarint counts.length ((counts.flatMap encodeVarint).take size) = none := by
  by_contra hn
  have ⟨⟨vs, rest⟩, hd⟩ := Option.ne_none_iff_exists'.mp hn
  have hwhole := (local_decodeMany local_decodeVarint counts.length).append hd
    ((counts.flatMap encodeVarint).drop size)
  have hd := decodeMany_flatMap (fun n (_ : n ∈ counts) => decodeVarint_encodeVarint n) []
  rw [List.append_nil] at hd
  rw [List.take_append_drop, hd, Option.some.injEq, Prod.mk.injEq] at hwhole
  have hnil := (List.append_eq_nil_iff.mp hwhole.right.symm).right
  rw [List.drop_eq_nil_iff, length_flatMap_encodeVarint] at hnil
  omega

theorem countsWidth_le {width : Nat} (hz : width ≠ 0) (h : ∀ n ∈ counts, n < 128 ^ width) :
    countsWidth counts ≤ width * counts.length := by
  induction counts
  case nil => exact Nat.zero_le _
  case cons n counts hi =>
    rw [List.forall_mem_cons] at h
    have hn := varintWidth_le hz h.left
    have hi := hi h.right
    have hs : countsWidth (n :: counts) = varintWidth n + countsWidth counts := List.sum_cons
    rw [hs, List.length_cons, Nat.mul_succ]
    omega

theorem decodeVarints_few {count : Nat} {before bytes : List UInt8} (hc : count ≠ 0)
    (h : decodeMany decodeVarint count bytes = none) (values : List Nat × Int) :
    decodeVarints accel (before ++ bytes) count before.length ≠ .value values := by
  have hdrop : (before ++ bytes).drop before.length = bytes := List.drop_left' rfl
  cases accel
  case false =>
    have hidx : PureKernel.indexedFrom (before ++ bytes) before.length = bytes := by
      rw [PureKernel.indexedFrom, if_pos (Int.natCast_nonneg _), Int.toNat_natCast, hdrop]
    change PureKernel.decodeVarints .. ≠ _
    rw [PureKernel.decodeVarints, hidx, Int.toNat_natCast, h]
    rintro ⟨⟩
  case true =>
    have hc' : (count : Int) ≠ 0 := Int.natCast_ne_zero.mpr hc
    change AccelKernel.decodeVarints .. ≠ _
    by_cases hr : Refused count before.length
    case pos =>
      rw [accel_raised hc' hr]
      rintro ⟨⟩
    case neg =>
      by_cases hs : EachVarint (·.length ≤ 10) count ((before ++ bytes).drop before.length)
      case pos =>
        rw [accel_decodeVarints hc hr hs, hdrop, h]
        rintro ⟨⟩
      case neg =>
        rw [accel_undefined hc' hr hs]
        rintro ⟨⟩

-- What is left of the counts is not read as the counts.
theorem deserialize_taken {size : Nat} (h : size < countsWidth counts) :
    deserialize accel (countsModeVarint :: (encodeVarint counts.length ++
      (counts.flatMap encodeVarint).take size)) ≠ .value counts := by
  have hnone := decodeMany_taken h
  have hc : counts.length ≠ 0 := by
    intro hz
    rw [List.eq_nil_of_length_eq_zero hz] at h
    exact Nat.not_lt_zero _ h
  rw [deserialize_varints, if_neg]
  case hnc =>
    intro ⟨hl, hp⟩
    have hb := CountsReader.decodeMany_bytes _
      (((counts.flatMap encodeVarint).take size).drop counts.length) hp
    rw [hl, List.take_append_drop, hnone] at hb
    cases hb
  have hf : ∀ values, decodeVarints accel (countsModeVarint :: encodeVarint counts.length ++
    (counts.flatMap encodeVarint).take size) counts.length
      (countsModeVarint :: encodeVarint counts.length).length ≠ .value values := decodeVarints_few hc hnone
  intro he
  cases hd : decodeVarints accel (countsModeVarint :: encodeVarint counts.length ++
    (counts.flatMap encodeVarint).take size) counts.length
      (countsModeVarint :: encodeVarint counts.length).length
  case value values => exact hf values hd
  case raised => rw [hd] at he; cases he
  case undefined => rw [hd] at he; cases he

theorem serialize_wide (h : ∀ n ∈ counts, n < 2 ^ 64) (hw : 2 ^ 31 ≤ countsWidth counts)
    {data : List UInt8} (hd : serialize true counts = .value data) :
    ∃ size < countsWidth counts, data = countsModeVarint :: (encodeVarint counts.length ++
      (counts.flatMap encodeVarint).take size) := by
  have hlt := int32_lt (countsWidth counts)
  rw [serialize, encodeVarints_accel h] at hd
  simp only at hd
  split at hd
  case isTrue => cases hd
  case isFalse hn =>
    have hsize : 2 ^ 32 ≤ countsWidth counts := Nat.le_of_not_lt fun hl => hn (int32_neg hw hl)
    have hmode : counts.any (0xFFFFFFFF < ·) ∨
        ((counts.flatMap encodeVarint).take (int32 (countsWidth counts)).toNat).length <
          counts.length * 4 := by
      by_cases hs : counts.any (0xFFFFFFFF < ·)
      case pos => exact .inl hs
      case neg =>
        have hs := not_not.mp (mt (any_large_iff counts).mpr hs)
        have hc : countsWidth counts ≤ 5 * counts.length :=
          countsWidth_le (by decide) fun n hm => Nat.lt_trans (hs n hm) (by decide)
        rw [List.length_take]
        omega
    rw [CallResult.bind, if_pos hmode, CallResult.value.injEq] at hd
    exact ⟨(int32 (countsWidth counts)).toNat, by omega, hd.symm⟩

-- The C library.

section Library

open Decoder

theorem toNat_ofNat (h : ∀ n ∈ counts, n < 2 ^ 64) (encode : Nat → List UInt8) :
    (counts.map UInt64.ofNat).flatMap (fun n => encode n.toNat) = counts.flatMap encode := by
  rw [List.flatMap_map]
  exact List.flatMap_congr fun n hm => congrArg encode (UInt64.toNat_ofNat_of_lt' (h n hm))

theorem reads_ncdbCountsDecode (h : ∀ n ∈ counts, n < 2 ^ 64) {calloc : UInt64 → Bool}
    (ha : ∀ n, calloc n) (hs : (CountsWriter.serialize counts).length < 2 ^ 63) :
    (ncdbCountsDecode calloc).Reads (CountsWriter.serialize counts) (counts.map UInt64.ofNat) := by
  have hlen : (counts.map UInt64.ofNat).length = counts.length := List.length_map ..
  have hcount (hl : counts.length < 2 ^ 64) :
      varint.Reads (encodeVarint counts.length) (UInt64.ofNat counts.length) := by
    have hv := reads_varint (UInt64.ofNat counts.length)
    rwa [UInt64.toNat_ofNat_of_lt' hl] at hv
  rw [serialize_eq] at hs ⊢
  split at hs
  case isTrue hf =>
    rw [List.length_cons, List.length_append, length_flatMap_encodeVarint] at hs
    have hl := length_le_countsWidth counts
    have hp : (ncdbVarintDecodeMany (UInt64.ofNat (counts.map UInt64.ofNat).length)).Reads _ _ :=
      reads_ncdbVarintDecodeMany (by omega)
    rw [toNat_ofNat h encodeVarint, hlen] at hp
    rw [if_pos hf]
    exact (reads_take [countsModeVarint]).bind <| (hcount (by omega)).bind <|
      (reads_check (ha (UInt64.ofNat counts.length))).bind hp
  case isFalse hf =>
    have hfixed := (fixed_iff counts).mp hf
    have hfour : (counts.flatMap (encodeLe 4)).length = counts.length * 4 := by
      simp [List.length_flatMap]
    rw [List.length_cons, List.length_append, hfour] at hs
    have hsmall : ∀ n ∈ counts.map UInt64.ofNat, n.toNat < 2 ^ 32 := by
      intro n hm
      have ⟨m, hmem, he⟩ := List.mem_map.mp hm
      rw [← he, UInt64.toNat_ofNat_of_lt' (h m hmem)]
      exact hfixed.left m hmem
    have hp := reads_ncdbUint32DecodeMany hsmall (by omega)
    rw [toNat_ofNat h (encodeLe 4), hlen] at hp
    rw [if_neg hf]
    exact (reads_take [countsModeUint32]).bind <| (hcount (by omega)).bind <|
      (reads_check (ha (UInt64.ofNat counts.length))).bind hp

theorem ncdb_read (h : ∀ n ∈ counts, n < 2 ^ 64) {calloc : UInt64 → Bool} {r : Reading}
    (ha : ∀ n, calloc n) (hm : ∀ n, r.malloc n) (hr : r.buffer.bytes = CountsWriter.serialize counts) :
    ∃ c, ncdbCountsDeserialize calloc r {} = (.done (counts.map UInt64.ofNat), c) := by
  have hn : r.HasNext {} (CountsWriter.serialize counts) :=
    ⟨Nat.zero_le _, by rw [← hr, List.drop_zero]⟩
  have hz : r.buffer.size ≠ 0 := by
    rw [ByteBuffer.size, hr, serialize_eq]
    split <;> rw [List.length_cons] <;> exact Nat.succ_ne_zero _
  obtain ⟨c, hd, _⟩ := reads_ncdbCountsDecode h ha (hr ▸ r.buffer.small) r {} hm hn
  exact ⟨c, (if_neg hz).trans hd⟩

end Library

-- The counts come back in Python, and the C library finds them in the same bytes.
structure RoundTrips (accel : Bool) (counts : Counts) (data : List UInt8) : Prop where
  written : serialize accel counts = .value data
  reread  : deserialize accel data = .value counts
  library : ∀ (calloc : UInt64 → Bool) (r : Reading), (∀ n, calloc n) → (∀ n, r.malloc n) →
    r.buffer.bytes = data →
      ∃ c, ncdbCountsDeserialize calloc r {} = (.done (counts.map UInt64.ofNat), c)

theorem counts_come_back_iff (accel : Bool) (counts : Counts) (h : ∀ n ∈ counts, n < 2 ^ 64) :
    (∃ data, RoundTrips accel counts data) ↔
      accel = false ∨ countsWidth counts < 2 ^ 31 ∧ (counts.Fixed ∨ (∀ n ∈ counts, n < 128) ∨
        1 + varintWidth counts.length + countsWidth counts < 2 ^ 31) := by
  by_cases hw : accel = false ∨ countsWidth counts < 2 ^ 31
  case pos =>
    have hs := serialize_of_encoded (encodeVarints_small h hw)
    have hd := deserialize_serialize_iff h hw
    constructor
    case mp =>
      intro ⟨data, ht⟩
      obtain rfl := CallResult.value.inj (ht.written.symm.trans hs)
      have := hd.mp ht.reread
      tauto
    case mpr =>
      intro hc
      exact ⟨_, hs, hd.mpr (by tauto), fun _ _ ha hm hr => ncdb_read h ha hm hr⟩
  case neg =>
    have ⟨ha, hwide⟩ := not_or.mp hw
    obtain rfl := Bool.eq_true_of_not_eq_false ha
    refine iff_of_false (fun ⟨data, ht⟩ => ?_) (fun hc => hw (hc.imp_right And.left))
    have ⟨size, hlt, he⟩ := serialize_wide h (Nat.le_of_not_lt hwide) ht.written
    exact deserialize_taken hlt (he ▸ ht.reread)

theorem counts_come_back_small : ∃ data, RoundTrips true [0, 300] data := by
  have hw : countsWidth [0, 300] = 3 := by rw [← length_flatMap_encodeVarint]; rfl
  have hn : varintWidth [0, 300].length = 1 := by rw [← length_encodeVarint]; rfl
  refine (counts_come_back_iff true [0, 300] (by decide)).mpr (.inr ⟨?_, .inr <| .inr ?_⟩)
  all_goals
    simp only [hw, hn]
    decide

theorem countsWidth_replicate_zero (n : Nat) : countsWidth (List.replicate n 0) = n := by
  have hz : varintWidth 0 = 1 := by rw [varintWidth, Nat.log_zero_right]
  rw [countsWidth, List.map_replicate, hz]
  simp

-- Counts that are all zero, one more than a size may be.
theorem zeros_not_written :
    (∀ n ∈ List.replicate (2 ^ 31) 0, n < 2 ^ 64) ∧
    serialize true (List.replicate (2 ^ 31) 0) = .raised ∧
    ¬∃ data, RoundTrips true (List.replicate (2 ^ 31) 0) data := by
  have hz : ∀ n ∈ List.replicate (2 ^ 31) 0, n < 2 ^ 64 := by
    intro n hm
    rw [List.eq_of_mem_replicate hm]
    exact Nat.two_pow_pos 64
  have hr : serialize true (List.replicate (2 ^ 31) 0) = .raised := by
    have hn : int32 (2 ^ 31) < 0 := int32_neg (Nat.le_refl _) (by decide)
    rw [serialize, encodeVarints_accel hz, countsWidth_replicate_zero]
    simp only [hn, if_true]
    rfl
  exact ⟨hz, hr, fun ⟨data, ht⟩ => nomatch hr.symm.trans ht.written⟩

end CountsMember
