import Covsight.Ncdb.Signature
import Covsight.Ncdb.Theorems.Signature

-- The column comes back as it was written, and whatever is taken for a column has as many bins as
-- it says and is about the bins that are expected.

variable {sigIds : List Nat} {numBins : Nat}

def expandPairs (pairs : List (Nat × Nat)) : List Nat :=
  pairs.flatMap fun (value, length) => List.replicate length value

theorem expandPairs_rlePairsFrom (value length : Nat) (sigIds : List Nat) :
    expandPairs (rlePairsFrom value length sigIds) = List.replicate length value ++ sigIds := by
  induction sigIds generalizing value length
  case nil => simp [rlePairsFrom, expandPairs]
  case cons sigId sigIds hi =>
    rw [rlePairsFrom]
    split
    case isTrue h =>
      rw [hi, h, List.replicate_succ', List.append_assoc, List.singleton_append]
    case isFalse =>
      have hs := hi sigId 1
      rw [expandPairs] at hs ⊢
      rw [List.flatMap_cons, hs]
      rfl

theorem expandPairs_rlePairs (sigIds : List Nat) : expandPairs (rlePairs sigIds) = sigIds := by
  cases sigIds
  case nil => rfl
  case cons sigId sigIds => exact expandPairs_rlePairsFrom sigId 1 sigIds

-- No run is empty.
theorem pos_of_mem_rlePairsFrom {value length : Nat} (hl : 0 < length) (sigIds : List Nat) :
    ∀ pair ∈ rlePairsFrom value length sigIds, 0 < pair.snd := by
  induction sigIds generalizing value length
  case nil => exact List.forall_mem_singleton.mpr hl
  case cons sigId sigIds hi =>
    rw [rlePairsFrom]
    split
    case isTrue  => exact hi (Nat.succ_pos length)
    case isFalse => exact List.forall_mem_cons.mpr ⟨hl, hi Nat.one_pos⟩

theorem pos_of_mem_rlePairs (sigIds : List Nat) : ∀ pair ∈ rlePairs sigIds, 0 < pair.snd := by
  cases sigIds
  case nil => nofun
  case cons sigId sigIds => exact pos_of_mem_rlePairsFrom Nat.one_pos sigIds

theorem decodeRuns_done {bytes : List UInt8} (h : numBins ≤ sigIds.length) :
    decodeRuns numBins sigIds bytes = some sigIds := by
  rw [decodeRuns, if_neg (Nat.not_lt_of_le h)]

theorem decodeRuns_pair (h : sigIds.length < numBins) (value length : Nat) (rest : List UInt8) :
    decodeRuns numBins sigIds (encodePair (value, length) ++ rest) =
      decodeRuns numBins (sigIds ++ List.replicate length value) rest := by
  have hv := decodeVarint_encodeVarint value (encodeVarint length ++ rest)
  have hl := decodeVarint_encodeVarint length rest
  rw [encodePair, List.append_assoc, decodeRuns, if_pos h]
  split
  case h_1 hn => rw [hv] at hn; cases hn
  case h_2 hs =>
    rw [hv] at hs
    cases hs
    split
    case h_1 hn => rw [hl] at hn; cases hn
    case h_2 hs =>
      rw [hl] at hs
      cases hs
      rfl

-- As long as there are runs there are bins to come, because each run has some.
theorem decodeRuns_pairs {pairs : List (Nat × Nat)} (hp : ∀ pair ∈ pairs, 0 < pair.snd)
    (hn : numBins = (sigIds ++ expandPairs pairs).length) :
    decodeRuns numBins sigIds (pairs.flatMap encodePair) = some (sigIds ++ expandPairs pairs) := by
  induction pairs generalizing sigIds
  case nil =>
    have he : sigIds ++ expandPairs [] = sigIds := List.append_nil sigIds
    rw [he] at hn ⊢
    exact decodeRuns_done hn.le
  case cons pair pairs hi =>
    have ⟨value, length⟩ := pair
    rw [List.forall_mem_cons] at hp
    have he : sigIds ++ expandPairs ((value, length) :: pairs) =
        (sigIds ++ List.replicate length value) ++ expandPairs pairs := by
      rw [List.append_assoc]
      rfl
    have hlt : sigIds.length < numBins := by
      rw [hn, he, List.length_append, List.length_append, List.length_replicate]
      have := hp.left
      omega
    rw [he] at hn ⊢
    rw [List.flatMap_cons, decodeRuns_pair hlt]
    exact hi hp.right hn

-- What the header of a column says.
def declaredBins (data : List UInt8) : Option Nat :=
  (decodeVarint (data.drop 13)).map Prod.fst

def declaredFingerprint (data : List UInt8) : Nat :=
  decodeLe ((data.drop 5).take 8)

-- The payload is read by the way that was chosen.
theorem decodeSigIds_encodeSigIds (sigIds : List Nat) :
    decodeSigIds (encodeSigIds sigIds).fst sigIds.length (encodeSigIds sigIds).snd = some sigIds := by
  have hvarints := decodeMany_flatMap (fun n (_ : n ∈ sigIds) => decodeVarint_encodeVarint n) []
  rw [List.append_nil] at hvarints
  have hruns : decodeRuns sigIds.length [] ((rlePairs sigIds).flatMap encodePair) =
      some ([] ++ expandPairs (rlePairs sigIds)) :=
    decodeRuns_pairs (pos_of_mem_rlePairs sigIds) (by rw [expandPairs_rlePairs, List.nil_append])
  rw [expandPairs_rlePairs, List.nil_append] at hruns
  have hne : ¬idxRle = idxVarint := by decide
  by_cases hs : ((rlePairs sigIds).flatMap encodePair).length < (sigIds.flatMap encodeVarint).length
  case pos =>
    have he : encodeSigIds sigIds = (idxRle, (rlePairs sigIds).flatMap encodePair) := if_pos hs
    rw [he, decodeSigIds, if_neg hne, if_pos rfl, hruns]
  case neg =>
    have he : encodeSigIds sigIds = (idxVarint, sigIds.flatMap encodeVarint) := if_neg hs
    rw [he, decodeSigIds, if_pos rfl, hvarints, Option.map_some]

theorem encodeBinSignatures_iff {fingerprint : Int} {column : List UInt8} :
    encodeBinSignatures sigIds fingerprint = some column ↔ (0 ≤ fingerprint ∧ fingerprint < 2 ^ 64) ∧
      encodeLe 4 binSigMagic ++ (encodeLe 1 binSigVersion ++ (encodeLe 8 fingerprint.toNat ++
        (encodeVarint sigIds.length ++ (encodeSigIds sigIds).fst :: (encodeSigIds sigIds).snd))) = column := by
  have hb : (256 : Int) ^ 8 = 2 ^ 64 := by decide
  simp only [encodeBinSignatures, Option.bind_eq_bind, Option.bind_eq_some_iff, toBytes_eq_some_iff, hb,
    Option.pure_def, Option.some.injEq]
  constructor
  case mp  => rintro ⟨_, ⟨hf, he⟩, hc⟩; exact ⟨hf, he ▸ hc⟩
  case mpr => rintro ⟨hf, hc⟩; exact ⟨_, ⟨hf, rfl⟩, hc⟩

theorem decode_encode {fingerprint : Int} {column : List UInt8}
    (h : encodeBinSignatures sigIds fingerprint = some column) (expected : Option Int) :
    decodeBinSignatures column expected =
      if checkFingerprint fingerprint.toNat expected then some (sigIds, fingerprint.toNat) else none := by
  have ⟨hf, he⟩ := encodeBinSignatures_iff.mp h
  have hmagic : ∀ rest, decodeFixed 4 (encodeLe 4 binSigMagic ++ rest) = some (binSigMagic, rest) :=
    decodeFixed_encodeLe (by decide)
  have hversion : ∀ rest, decodeFixed 1 (encodeLe 1 binSigVersion ++ rest) = some (binSigVersion, rest) :=
    decodeFixed_encodeLe (by decide)
  have hfingerprint : fingerprint.toNat < 256 ^ 8 := by omega
  rw [← he, decodeBinSignatures, guard, if_pos]
  case hc =>
    simp only [List.length_append, length_encodeLe, List.length_cons]
    omega
  simp only [Option.bind_eq_bind, Option.pure_def, Option.bind_some, hmagic, hversion,
    decodeFixed_encodeLe hfingerprint, decodeVarint_encodeVarint, List.head?_cons, List.tail_cons,
    decodeSigIds_encodeSigIds, guard, and_self, if_true]
  split <;> rfl

theorem decodeFixed_eq_some {width n : Nat} {bytes rest : List UInt8}
    (h : decodeFixed width bytes = some (n, rest)) :
    n = decodeLe (bytes.take width) ∧ rest = bytes.drop width := by
  rw [decodeFixed] at h
  split at h
  case isTrue => cases h
  case isFalse =>
    cases h
    exact ⟨rfl, rfl⟩

theorem header_of_decode {data : List UInt8} {expected : Option Int} {fingerprint : Nat}
    (h : decodeBinSignatures data expected = some (sigIds, fingerprint)) :
    declaredBins data = some sigIds.length ∧ declaredFingerprint data = fingerprint ∧
      checkFingerprint fingerprint expected := by
  simp only [decodeBinSignatures, Option.bind_eq_bind, Option.bind_eq_some_iff, Option.guard_eq_some',
    Option.pure_def, Prod.exists] at h
  obtain ⟨_, _, _, bytes₁, h₁, _, bytes₂, h₂, found, bytes₃, h₃, _, _, _, hc, numBins, bytes₄, h₄, h⟩ := h
  obtain ⟨_, _, _, _, _, hl, he⟩ := h
  cases he
  obtain ⟨_, rfl⟩ := decodeFixed_eq_some h₁
  obtain ⟨_, rfl⟩ := decodeFixed_eq_some h₂
  obtain ⟨hf, rfl⟩ := decodeFixed_eq_some h₃
  rw [List.drop_drop] at hf
  rw [List.drop_drop, List.drop_drop] at h₄
  refine ⟨?_, hf.symm, hc⟩
  rw [declaredBins, h₄, Option.map_some, hl]

-- Fingerprints that do not stand for any bins are not compared.
theorem checkFingerprint_iff (fingerprint : Nat) (expected : Option Int) :
    checkFingerprint fingerprint expected ↔ ∀ e ∈ expected, fingerprint ≠ 0 ∧ e = fingerprint := by
  cases expected
  case none => simp [checkFingerprint]
  case some e =>
    simp only [checkFingerprint, decide_eq_true_eq, Option.mem_some, forall_eq']
    omega

-- A fingerprint has 64 bits. The decoder ends on all bytes, since each run that it reads takes some.
theorem bin_signatures_exact (sigIds : List Nat) (fingerprint : Int) (data : List UInt8)
    (expected : Option Int) :
    ((∃ column, encodeBinSignatures sigIds fingerprint = some column) ↔
      0 ≤ fingerprint ∧ fingerprint < 2 ^ 64) ∧
    (∀ column, encodeBinSignatures sigIds fingerprint = some column →
      decodeBinSignatures column none = some (sigIds, fingerprint.toNat) ∧
      ∀ e, decodeBinSignatures column (some e) =
        if fingerprint ≠ 0 ∧ e = fingerprint then some (sigIds, fingerprint.toNat) else none) ∧
    ∀ found f, decodeBinSignatures data expected = some (found, f) →
      declaredBins data = some found.length ∧ declaredFingerprint data = f ∧
        ∀ e ∈ expected, f ≠ 0 ∧ e = f := by
  refine ⟨?encodes, fun column h => ⟨?plain, fun e => ?expected⟩, fun found f h => ?decodes⟩
  case encodes =>
    exact ⟨fun ⟨_, h⟩ => (encodeBinSignatures_iff.mp h).left,
      fun h => ⟨_, encodeBinSignatures_iff.mpr ⟨h, rfl⟩⟩⟩
  case plain => exact decode_encode h none
  case expected =>
    have ⟨⟨hn, _⟩, _⟩ := encodeBinSignatures_iff.mp h
    have hc : checkFingerprint fingerprint.toNat (some e) ↔ fingerprint ≠ 0 ∧ e = fingerprint := by
      simp only [checkFingerprint_iff, Option.mem_some, forall_eq']
      omega
    rw [decode_encode h, if_congr hc rfl rfl]
  case decodes =>
    have ⟨hb, hf, hc⟩ := header_of_decode h
    exact ⟨hb, hf, (checkFingerprint_iff f expected).mp hc⟩
