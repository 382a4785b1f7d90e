import Covsight.NcdbC.MemberDecoders

-- The decoders of the members stay within their buffers, unless a length they come across ends
-- beyond the address space.

open Decoder

variable {width : Nat}

theorem readLpStr_careful : readLpStr.Careful width 1 :=
  map_careful cString copy_careful

theorem readU32le_careful : readU32le.Careful width 4 :=
  map_careful _ <| littleEndian_careful (by omega)

theorem readU64le_careful : readU64le.Careful width 8 :=
  littleEndian_careful (by omega)

-- A member with a mark, a version and other bytes that are not looked at.
theorem marked_careful {α : Type} {mark : List UInt8} {more : Nat}
    {f : Option (List UInt8) → Decoder α} (hn : (f none).Careful width 0)
    (hs : ∀ bs, (f (some bs)).Careful width 0) : (opening mark more >>= f).Careful width 0 :=
  (opening_careful mark more).bind fun | none => hn | some bs => hs bs

theorem ite_careful {α : Type} {c : Prop} [Decidable c] {d e : Decoder α} {least : Nat}
    (hd : d.Careful width least) (he : e.Careful width least) :
    (if c then d else e).Careful width least := by
  split
  case isTrue => exact hd
  case isFalse => exact he

theorem stringsDeserialize_careful (p : NcdbPlatform) : (stringsDeserialize p).Careful 1 0 := by
  refine (varint_careful.bind fun count => records_careful (fun i tab => ?_) count []).of_le
    (Nat.zero_le _)
  exact readLpStr_careful.bind fun s => (check_careful _).bind fun _ => pure_careful _

theorem readManifestV1_careful : readManifestV1.Careful width 0 := by
  have hr : readLpStr.Careful width 1 := readLpStr_careful
  have hv : varint.Careful width 1 := varint_careful
  refine Careful.of_le (k := 17) ?_ (Nat.zero_le _)
  exact hr.bind fun _ => hr.bind fun _ => hr.bind fun _ => hr.bind fun _ => hr.bind fun _ =>
    hr.bind fun _ => hr.bind fun _ => hr.bind fun _ => hr.bind fun _ => hr.bind fun _ =>
    hr.bind fun _ => hr.bind fun _ => hv.bind fun _ => hv.bind fun _ => hv.bind fun _ =>
    hv.bind fun _ => hv.bind fun _ => pure_careful _

theorem readManifestV2_careful (m : NcdbManifest) : (readManifestV2 m).Careful width 0 := by
  have hv : varint.Careful width 1 := varint_careful
  refine Careful.of_le (k := 18) ?_ (Nat.zero_le _)
  exact readU32le_careful.bind fun _ => readU32le_careful.bind fun _ =>
    readU64le_careful.bind fun _ => hv.bind fun _ => hv.bind fun _ => pure_careful _

theorem manifestDeserialize_careful (json : List UInt8 → Option NcdbManifest) :
    (manifestDeserialize json).Careful width 0 := by
  refine marked_careful (whole_careful json) fun bs => ite_careful fail_careful ?_
  refine readManifestV1_careful.bind (l := 0) fun m => ?_
  exact ite_careful (readManifestV2_careful m) (pure_careful m)

-- Four numbers of any length, three of eight bytes and fifteen strings.
theorem readHistoryNode_careful (p : NcdbPlatform) (i : Nat) :
    (readHistoryNode p i).Careful width 43 := by
  have hr : readLpDup.Careful width 1 := readLpStr_careful
  have hv : varint.Careful width 1 := varint_careful
  have hu : readU64le.Careful width 8 := readU64le_careful
  exact byte_careful.bind fun _ => hv.bind fun _ => hv.bind fun _ => (byteIf_careful _).bind fun _ =>
    hu.bind fun _ => hu.bind fun _ => hu.bind fun _ =>
    hr.bind fun _ => hr.bind fun _ => hr.bind fun _ => hr.bind fun _ => hr.bind fun _ =>
    hr.bind fun _ => hr.bind fun _ => hr.bind fun _ => hr.bind fun _ => hr.bind fun _ =>
    hr.bind fun _ => hr.bind fun _ => hr.bind fun _ => hr.bind fun _ => hr.bind fun _ =>
    pure_careful _

theorem historyDeserialize_careful (p : NcdbPlatform)
    (json : List UInt8 → Option (List NcdbHistoryEntry)) :
    (historyDeserialize p json).Careful 43 0 := by
  refine marked_careful (whole_careful json) fun bs => ite_careful fail_careful ?_
  refine (varint_careful.bind fun n => records_careful (fun i nodes => ?_) n []).of_le
    (Nat.zero_le _)
  exact map_careful (nodes ++ [·]) (readHistoryNode_careful p i)

theorem readToggle_careful (flat : List NcdbToggle) : (readToggle flat).Careful width 2 :=
  varint_careful.bind fun _ => byte_careful.bind fun _ => (check_careful _).bind fun _ =>
    (optional_careful _ readLpStr_careful).bind fun _ => (optional_careful _ byte_careful).bind fun _ =>
    (optional_careful _ byte_careful).bind fun _ => (optional_careful _ byte_careful).bind fun _ =>
    pure_careful _

theorem toggleDeserialize_careful (flat : List NcdbToggle) :
    (toggleDeserialize flat).Careful 2 0 := by
  refine marked_careful (pure_careful flat) fun bs => ite_careful (pure_careful flat) ?_
  exact (varint_careful.bind fun n => records_careful (fun _ => readToggle_careful) n flat).of_le
    (Nat.zero_le _)

theorem readFsmStates_careful (sc : UInt64) : (readFsmStates sc).Careful 2 0 :=
  records_careful (fun _ _ => readLpStr_careful.bind fun _ => varint_careful.bind fun _ =>
    pure_careful _) sc []

theorem readFsm_careful (p : NcdbPlatform) (flat : List (List NcdbFsmState)) :
    (readFsm p flat).Careful 2 2 := by
  refine varint_careful.bind (l := 1) fun k => (check_careful _).bind fun _ =>
    varint_careful.bind (l := 0) fun sc => ite_careful (pure_careful flat) ?_
  exact (check_careful _).bind fun _ => (readFsmStates_careful sc).bind fun _ => pure_careful _

theorem fsmDeserialize_careful (p : NcdbPlatform) (flat : List (List NcdbFsmState)) :
    (fsmDeserialize p flat).Careful 2 0 := by
  refine marked_careful (pure_careful flat) fun bs => ite_careful (pure_careful flat) ?_
  exact (varint_careful.bind fun n => records_careful (fun _ => readFsm_careful p) n flat).of_le
    (Nat.zero_le _)

theorem readFormal_careful (p : NcdbPlatform) (total i : Nat) (table : List NcdbFormalRecord) :
    (readFormal p total i table).Careful width 2 := by
  refine varint_careful.bind (l := 1) fun dfs => byte_careful.bind (l := 0) fun _ =>
    ite_careful ?gone ?here
  case gone =>
    exact (optional_careful _ byte_careful).bind fun _ =>
      (optional_careful _ varint_careful).bind fun _ =>
      (optional_careful _ pass_careful).bind fun _ => pure_careful table
  case here =>
    exact (check_careful _).bind fun _ => (optional_careful _ byte_careful).bind fun _ =>
      (optional_careful _ varint_careful).bind fun _ =>
      (optional_careful _ readLpStr_careful).bind fun _ => pure_careful _

theorem formalDeserialize_careful (p : NcdbPlatform) (total : Nat)
    (table : List NcdbFormalRecord) : (formalDeserialize p total table).Careful 2 0 := by
  refine marked_careful fail_careful fun bs => ite_careful fail_careful ?_
  exact (varint_careful.bind fun n => records_careful (readFormal_careful p total) n table).of_le
    (Nat.zero_le _)

theorem readMetric_careful (p : NcdbPlatform) (i : Nat) (metrics : List NcdbMetric) :
    (readMetric p i metrics).Careful width 11 :=
  varint_careful.bind fun _ => byte_careful.bind fun _ => readU64le_careful.bind fun _ =>
    readLpStr_careful.bind fun _ => (check_careful _).bind fun _ => pure_careful _

theorem metricDeserialize_careful (p : NcdbPlatform) (metrics : List NcdbMetric) :
    (metricDeserialize p metrics).Careful 11 0 := by
  refine marked_careful fail_careful fun bs => ite_careful fail_careful ?_
  exact (varint_careful.bind fun n => records_careful (readMetric_careful p) n metrics).of_le
    (Nat.zero_le _)

namespace Decoder

-- Whatever the bytes are and whichever requests for memory are granted, a run is safe if and only
-- if reading on unbounded numbers comes across no length that ends beyond the address space.
def SafeUnlessHarmful {α : Type} (width : Nat) (d : Decoder α) : Prop :=
  ∀ r : Reading, d.Safe width r.wrapping ↔ r.Harmless (d r.exact {}).snd

theorem Careful.safeUnlessHarmful {α : Type} {d : Decoder α} {least : Nat}
    (h : d.Careful width least) : d.SafeUnlessHarmful width :=
  fun r => (h.checked r {} (start_within r)).safe_iff

end Decoder

theorem memberDecoders_safe_iff (p : NcdbPlatform) (manifest : List UInt8 → Option NcdbManifest)
    (history : List UInt8 → Option (List NcdbHistoryEntry)) (toggles : List NcdbToggle)
    (fsms : List (List NcdbFsmState)) (total : Nat) (formal : List NcdbFormalRecord)
    (metrics : List NcdbMetric) :
    (stringsDeserialize p).SafeUnlessHarmful 1 ∧
    (manifestDeserialize manifest).SafeUnlessHarmful 1 ∧
    (historyDeserialize p history).SafeUnlessHarmful 43 ∧
    (toggleDeserialize toggles).SafeUnlessHarmful 2 ∧
    (fsmDeserialize p fsms).SafeUnlessHarmful 2 ∧
    (formalDeserialize p total formal).SafeUnlessHarmful 2 ∧
    (metricDeserialize p metrics).SafeUnlessHarmful 11 :=
  ⟨(stringsDeserialize_careful p).safeUnlessHarmful,
    (manifestDeserialize_careful manifest).safeUnlessHarmful,
    (historyDeserialize_careful p history).safeUnlessHarmful,
    (toggleDeserialize_careful toggles).safeUnlessHarmful,
    (fsmDeserialize_careful p fsms).safeUnlessHarmful,
    (formalDeserialize_careful p total formal).safeUnlessHarmful,
    (metricDeserialize_careful p metrics).safeUnlessHarmful⟩

-- A table of one string that is said to be 2 ^ 64 - 1 bytes long; there is memory for small
-- requests.
def endlessString : Reading where
  buffer := ⟨[0x01, 0xFF, 0xFF, 0xFF, 0xFF, 0xFF, 0xFF, 0xFF, 0xFF, 0xFF, 0x01], by decide⟩
  malloc := (· < 1024)
  wraps  := true

theorem endlessString_unsafe :
    ¬(stringsDeserialize ⟨fun _ => true, fun _ => true⟩).Safe 1 endlessString :=
  fun h => h.no_overrun rfl
