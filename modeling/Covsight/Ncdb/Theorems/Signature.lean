import Covsight.Lib.Rearrangement
import Covsight.Ncdb.Signature

-- The dictionary of signatures comes back from its bytes.

namespace SignatureRecord

variable {runSpace baseId : Nat} {resolved : List Signature} {base : Signature} {positions : List Nat}

theorem least_mem (r : SignatureRecord) (rs : List SignatureRecord) : r.least rs ∈ r :: rs := by
  rw [least]
  induction rs generalizing r
  case nil => exact .head _
  case cons s rs hi =>
    rw [List.foldl_cons]
    split
    case isTrue  => exact .tail _ (hi s)
    case isFalse =>
      rcases List.mem_cons.mp (hi r) with h | h
      case inl => exact h.symm ▸ .head _
      case inr => exact .tail _ (.tail _ h)

-- What is read from each kind of record.

theorem decode_array (h : positions.Pairwise (· ≤ ·)) (rest : List UInt8) :
    decodeSignature runSpace resolved ((array positions).bytes ++ rest) =
      some (positions.toFinset, rest) := by
  have he : ¬encArray = encEmpty := by decide
  have hf : ¬encArray = encFull := by decide
  simp only [bytes, encoding, payload, List.cons_append, List.append_assoc, decodeSignature, he, hf,
    if_false, if_true, decodeVarint_encodeVarint, Option.bind_eq_bind, Option.bind_some,
    decodePositions_encodePositions h, Option.pure_def]

theorem decode_bitmap {bits : List UInt8} (h : bits.length = bitmapBytes runSpace) (rest : List UInt8) :
    decodeSignature runSpace resolved ((bitmap bits).bytes ++ rest) =
      some (((List.range runSpace).filter (hasBit bits)).toFinset, rest) := by
  have he : ¬encBitmap = encEmpty := by decide
  have hf : ¬encBitmap = encFull := by decide
  have ha : ¬encBitmap = encArray := by decide
  simp only [bytes, encoding, payload, List.cons_append, decodeSignature, he, hf, ha, if_false,
    if_true, List.take_left' h, List.drop_left' h, h, ne_eq, not_true_eq_false]

theorem decode_delta (h : positions.Pairwise (· ≤ ·)) (hb : resolved[baseId]? = some base)
    (rest : List UInt8) :
    decodeSignature runSpace resolved ((delta baseId positions).bytes ++ rest) =
      some (symmDiff base positions.toFinset, rest) := by
  have he : ¬encDelta = encEmpty := by decide
  have hf : ¬encDelta = encFull := by decide
  have ha : ¬encDelta = encArray := by decide
  have hm : ¬encDelta = encBitmap := by decide
  simp only [bytes, encoding, payload, List.cons_append, List.append_assoc, decodeSignature, he, hf,
    ha, hm, if_false, if_true, decodeVarint_encodeVarint, Option.bind_eq_bind, Option.bind_some,
    decodePositions_encodePositions h, hb, Option.pure_def]

end SignatureRecord

section Encoding

variable {bits : Signature} {runSpace : Nat} {base : Option (Nat × Signature)} {record : SignatureRecord}

theorem bitmapOf_eq (h : ∀ position ∈ bits, position < runSpace) :
    bitmapOf runSpace bits.sort =
      some (bits.sort.foldl setBit (List.replicate (bitmapBytes runSpace) 0)) := by
  refine if_neg fun ha => ?_
  have ⟨position, hm, hp⟩ := List.any_eq_true.mp ha
  have hlt := h position ((Finset.mem_sort _).mp hm)
  have hle := of_decide_eq_true hp
  rw [bitmapBytes] at hle
  omega

theorem filter_hasBit (h : ∀ position ∈ bits, position < runSpace) :
    ((List.range runSpace).filter (hasBit
      (bits.sort.foldl setBit (List.replicate (bitmapBytes runSpace) 0)))).toFinset = bits := by
  have hin : ∀ position ∈ bits.sort,
      position / 8 < (List.replicate (bitmapBytes runSpace) (0 : UInt8)).length := by
    intro position hm
    have := h position ((Finset.mem_sort _).mp hm)
    rw [List.length_replicate, bitmapBytes]
    omega
  ext position
  rw [List.mem_toFinset, List.mem_filter, List.mem_range, hasBit_foldl_setBit hin,
    hasBit_replicate_zero, Bool.or_false, decide_eq_true_iff, Finset.mem_sort]
  exact and_iff_right_of_imp (h position)

-- What the records are among which the smallest one is taken.
theorem encodeSignature_cases (h : ∀ position ∈ bits, position < runSpace)
    (he : encodeSignature bits runSpace base = some record) :
    bits = ∅ ∧ record = .empty ∨
    bits = Finset.range runSpace ∧ record = .full ∨
    record = .array bits.sort ∨
    record = .bitmap (bits.sort.foldl setBit (List.replicate (bitmapBytes runSpace) 0)) ∨
    ∃ b, base = some b ∧ record = .delta b.fst (symmDiff bits b.snd).sort := by
  rw [encodeSignature] at he
  split at he
  case isTrue hz => exact .inl ⟨hz, (Option.some.inj he).symm⟩
  case isFalse =>
    split at he
    case isTrue hc =>
      have hsub : bits ⊆ Finset.range runSpace := fun p hp => Finset.mem_range.mpr (h p hp)
      have hcard : (Finset.range runSpace).card ≤ bits.card := by rw [Finset.card_range, hc]
      exact .inr <| .inl ⟨Finset.eq_of_subset_of_card_le hsub hcard, (Option.some.inj he).symm⟩
    case isFalse =>
      rw [bitmapOf_eq h] at he
      have hm := Option.some.inj he ▸ SignatureRecord.least_mem ..
      rw [List.mem_cons, List.mem_cons, Option.mem_toList, Option.map_eq_some_iff] at hm
      rcases hm with hm | hm | ⟨b, hb, hm⟩
      case inl         => exact .inr <| .inr <| .inl hm
      case inr.inl     => exact .inr <| .inr <| .inr <| .inl hm
      case inr.inr     => exact .inr <| .inr <| .inr <| .inr ⟨b, hb, hm.symm⟩

theorem encodeSignature_isSome (h : ∀ position ∈ bits, position < runSpace) :
    ∃ record, encodeSignature bits runSpace base = some record := by
  rw [encodeSignature, bitmapOf_eq h]
  split
  case isTrue => exact ⟨_, rfl⟩
  case isFalse => split <;> exact ⟨_, rfl⟩

theorem decodeSignature_encodeSignature {resolved : List Signature}
    (h : ∀ position ∈ bits, position < runSpace) (hb : ∀ b, base = some b → resolved[b.fst]? = some b.snd)
    (he : encodeSignature bits runSpace base = some record) (rest : List UInt8) :
    decodeSignature runSpace resolved (record.bytes ++ rest) = some (bits, rest) := by
  rcases encodeSignature_cases h he with ⟨rfl, rfl⟩ | ⟨rfl, rfl⟩ | rfl | rfl | ⟨b, hs, rfl⟩
  case inl => rfl
  case inr.inl => rfl
  case inr.inr.inl =>
    rw [SignatureRecord.decode_array (Finset.pairwise_sort ..), Finset.sort_toFinset]
  case inr.inr.inr.inl =>
    rw [SignatureRecord.decode_bitmap, filter_hasBit h]
    rw [length_foldl_setBit, List.length_replicate]
  case inr.inr.inr.inr =>
    rw [SignatureRecord.decode_delta (Finset.pairwise_sort ..) (hb b hs), Finset.sort_toFinset,
      symmDiff_comm bits, symmDiff_symmDiff_cancel_left]

end Encoding

-- How far each record has to go back, from the first one on.
def chainDepths (records : List SignatureRecord) : List Nat :=
  records.foldl (fun depth record => depth ++ [record.chain depth]) []

-- Bases come before what is told by them, and no chain is longer than a reader follows it.
structure WithinReach (records : List SignatureRecord) : Prop where
  bases  : ∀ sigId baseId flipped,
    records[sigId]? = some (SignatureRecord.delta baseId flipped) → baseId < sigId
  chains : ∀ depth ∈ chainDepths records, depth < maxDeltaChainDepth

namespace SignatureTable

variable {runSpace : Nat} {signatures sets : List Signature} {depth : List Nat}
  {records : List SignatureRecord} {bits : Signature} {record : SignatureRecord}

theorem chooseBase_eq_some {b : Nat × Signature}
    (h : chooseBase signatures depth depth.length = some b) :
    b.fst < depth.length ∧ depth.getD b.fst 0 + 1 < maxDeltaChainDepth ∧
      signatures[b.fst]? = some b.snd := by
  rw [chooseBase] at h
  split at h
  case isTrue => cases h
  case isFalse hs =>
    simp only at h
    split at h
    case isTrue => cases h
    case isFalse hd =>
      have ⟨base, hb, he⟩ := Option.map_eq_some_iff.mp h
      subst he
      have hpos : sigFull < depth.length := Nat.lt_of_not_le hs
      simp only at hb ⊢
      unfold maxDeltaChainDepth at hd ⊢
      exact ⟨by omega, by omega, hb⟩

-- A record is a difference from the signature that was offered for it, if it is one.
theorem chain_le (h : ∀ position ∈ bits, position < runSpace)
    (he : encodeSignature bits runSpace (chooseBase signatures depth depth.length) = some record) :
    (∀ baseId flipped, record = .delta baseId flipped → baseId < depth.length) ∧
      record.chain depth < maxDeltaChainDepth := by
  rcases encodeSignature_cases h he with ⟨_, rfl⟩ | ⟨_, rfl⟩ | rfl | rfl | ⟨b, hs, rfl⟩
  case inr.inr.inr.inr =>
    have ⟨hl, hd, _⟩ := chooseBase_eq_some hs
    refine ⟨fun baseId flipped he => ?_, hd⟩
    cases he
    exact hl
  all_goals exact ⟨nofun, Nat.succ_pos 7⟩

theorem readChain_bytes (hl : ∀ baseId flipped, record = .delta baseId flipped → baseId < depth.length)
    (hc : record.chain depth < maxDeltaChainDepth) (rest : List UInt8) :
    readChain depth (record.bytes ++ rest) = some (record.chain depth) := by
  cases record
  case delta baseId flipped =>
    have hl := hl baseId flipped rfl
    rw [SignatureRecord.chain] at hc
    simp only [SignatureRecord.bytes, SignatureRecord.encoding, SignatureRecord.payload,
      SignatureRecord.chain, List.cons_append, List.append_assoc, readChain, if_true,
      decodeVarint_encodeVarint, Option.bind_eq_bind, Option.bind_some, guard, hl, hc]
    rfl
  all_goals rfl

-- What has been written of the signatures so far is what has been read.
theorem readFrom_recordsFrom {done : List Signature} (hs : signatures = done ++ sets)
    (hd : depth.length = done.length) (h : ∀ bits ∈ sets, ∀ position ∈ bits, position < runSpace)
    (he : recordsFrom runSpace signatures depth sets = some records) :
    readFrom runSpace sets.length depth done (records.flatMap (·.bytes)) = some signatures := by
  induction sets generalizing depth done records
  case nil =>
    rw [List.length_nil, readFrom, hs, List.append_nil]
  case cons bits sets hi =>
    have ⟨record, hr, he⟩ := Option.bind_eq_some_iff.mp he
    have ⟨records, hrs, he⟩ := Option.bind_eq_some_iff.mp he
    cases he
    rw [List.forall_mem_cons] at h
    have ⟨hl, hc⟩ := chain_le h.left hr
    have hbase : ∀ b, chooseBase signatures depth depth.length = some b → done[b.fst]? = some b.snd := by
      intro b hb
      have ⟨hlt, _, hsome⟩ := chooseBase_eq_some hb
      rwa [hs, List.getElem?_append_left (hd ▸ hlt)] at hsome
    have hs : signatures = (done ++ [bits]) ++ sets := by rw [hs, List.append_assoc]; rfl
    have hnext := hi hs (by simp [hd]) h.right hrs
    rw [List.length_cons, readFrom, List.flatMap_cons]
    simp only [decodeSignature_encodeSignature h.left hbase hr, readChain_bytes hl hc,
      Option.bind_eq_bind, Option.bind_some, hnext]

theorem recordsFrom_isSome (h : ∀ bits ∈ sets, ∀ position ∈ bits, position < runSpace) :
    ∃ records, recordsFrom runSpace signatures depth sets = some records := by
  induction sets generalizing depth
  case nil => exact ⟨[], rfl⟩
  case cons bits sets hi =>
    rw [List.forall_mem_cons] at h
    have ⟨record, hr⟩ : ∃ record, encodeSignature bits runSpace
      (chooseBase signatures depth depth.length) = some record := encodeSignature_isSome h.left
    have ⟨records, hrs⟩ : ∃ records, recordsFrom runSpace signatures (depth ++ [record.chain depth]) sets =
      some records := hi h.right
    refine ⟨record :: records, ?_⟩
    rw [recordsFrom]
    simp only [hr, hrs, Option.bind_eq_bind, Option.bind_some, Option.pure_def]

theorem recordsFrom_reach (h : ∀ bits ∈ sets, ∀ position ∈ bits, position < runSpace)
    (hd : ∀ d ∈ depth, d < maxDeltaChainDepth)
    (he : recordsFrom runSpace signatures depth sets = some records) :
    (∀ k baseId flipped, records[k]? = some (SignatureRecord.delta baseId flipped) →
        baseId < depth.length + k) ∧
      ∀ d ∈ records.foldl (fun depth record => depth ++ [record.chain depth]) depth, d < maxDeltaChainDepth := by
  induction sets generalizing depth records
  case nil =>
    cases he
    exact ⟨nofun, hd⟩
  case cons bits sets hi =>
    have ⟨record, hr, he⟩ := Option.bind_eq_some_iff.mp he
    have ⟨records, hrs, he⟩ := Option.bind_eq_some_iff.mp he
    cases he
    rw [List.forall_mem_cons] at h
    have ⟨hl, hc⟩ := chain_le h.left hr
    have hd : ∀ d ∈ depth ++ [record.chain depth], d < maxDeltaChainDepth := by
      intro d hm
      rcases List.mem_append.mp hm with hm | hm
      case inl => exact hd d hm
      case inr => exact List.mem_singleton.mp hm ▸ hc
    have ⟨hbases, hchains⟩ := hi h.right hd hrs
    refine ⟨fun k baseId flipped hk => ?_, hchains⟩
    cases k
    case zero   => exact hl baseId flipped (Option.some.inj hk)
    case succ k =>
      have := hbases k baseId flipped hk
      rw [List.length_append, List.length_singleton] at this
      omega

-- Interning.

-- What is found under a set of positions is its number, and all positions are in the run space.
structure Coherent (t : SignatureTable) : Prop where
  keyed  : ∀ bits sigId, t.byKey.get? bits = some sigId → t.signatures[sigId]? = some bits
  inside : ∀ bits ∈ t.signatures, ∀ position ∈ bits, position < t.runSpace

-- Earlier signatures keep their numbers.
structure Extends (t' t : SignatureTable) : Prop where
  runIds     : t'.runIds = t.runIds
  assocType  : t'.assocType = t.assocType
  signatures : t.signatures <+: t'.signatures

theorem Extends.trans {t t₁ t₂ : SignatureTable} (h₂ : t₂.Extends t₁) (h₁ : t₁.Extends t) : t₂.Extends t :=
  ⟨h₂.runIds.trans h₁.runIds, h₂.assocType.trans h₁.assocType, h₁.signatures.trans h₂.signatures⟩

theorem foldl_keyed_spec (es : List (Signature × Nat)) (byKey : Dict Signature Nat)
    (he : ∀ e ∈ es, signatures[e.snd]? = some e.fst)
    (hb : ∀ bits sigId, byKey.get? bits = some sigId → signatures[sigId]? = some bits) (bits : Signature) (sigId : Nat)
    (h : (es.foldl (fun byKey (bits, sigId) =>
      if bits ∈ byKey.keys then byKey else byKey.set bits sigId) byKey).get? bits = some sigId) :
    signatures[sigId]? = some bits := by
  induction es generalizing byKey
  case nil => exact hb bits sigId h
  case cons e es hi =>
    rw [List.forall_mem_cons] at he
    refine hi _ he.right (fun bits sigId hk => ?_) h
    simp only at hk
    split at hk
    case isTrue => exact hb bits sigId hk
    case isFalse =>
      rw [Dict.get?_set] at hk
      split at hk
      case isTrue hx  => exact hx ▸ Option.some.inj hk ▸ he.left
      case isFalse => exact hb bits sigId hk

theorem keyed_spec {sigId : Nat} (h : (keyed signatures).get? bits = some sigId) :
    signatures[sigId]? = some bits := by
  refine foldl_keyed_spec signatures.zipIdx ∅ (fun e hm => ?_) (fun _ _ h => ?_) bits sigId h
  case refine_1 => exact List.mem_zipIdx_iff_getElem?.mp hm
  case refine_2 => rw [Dict.get?_empty] at h; cases h

theorem coherent_new (runIds : List Int) (assocType : Int) : (new runIds assocType).Coherent where
  keyed _ _ := keyed_spec
  inside bits hm position hp := by
    rcases List.mem_pair.mp hm with rfl | rfl
    case inl => nomatch hp
    case inr => exact Finset.mem_range.mp hp

theorem Coherent.intern {t : SignatureTable} (hc : t.Coherent) (h : ∀ position ∈ bits, position < t.runSpace) :
    (t.intern bits).fst.Coherent ∧ (t.intern bits).fst.Extends t ∧
      (t.intern bits).fst.signatures[(t.intern bits).snd]? = some bits := by
  rw [SignatureTable.intern]
  split
  case h_1 existing he => exact ⟨hc, ⟨rfl, rfl, List.prefix_refl _⟩, hc.keyed bits existing he⟩
  case h_2 =>
    refine ⟨⟨fun bits' sigId hk => ?keyed, ?inside⟩, ⟨rfl, rfl, List.prefix_append ..⟩, ?found⟩
    case keyed =>
      simp only [Dict.get?_set] at hk
      split at hk
      case isTrue he =>
        obtain rfl := Option.some.inj hk
        rw [he]
        exact List.getElem?_concat_length ..
      case isFalse =>
        have hk := hc.keyed bits' sigId hk
        have ⟨hlt, _⟩ := List.getElem?_eq_some_iff.mp hk
        exact (List.getElem?_append_left hlt).trans hk
    case inside =>
      intro bits' hm
      rcases List.mem_append.mp hm with hm | hm
      case inl => exact hc.inside bits' hm
      case inr => exact List.mem_singleton.mp hm ▸ h
    case found => exact List.getElem?_concat_length ..

theorem Coherent.internAll {t : SignatureTable} (hc : t.Coherent)
    (h : ∀ bits ∈ sets, ∀ position ∈ bits, position < t.runSpace) :
    (t.internAll sets).fst.Coherent ∧ (t.internAll sets).fst.Extends t ∧
      sets.Forall₂ (fun bits sigId => (t.internAll sets).fst.signatures[sigId]? = some bits)
        (t.internAll sets).snd := by
  induction sets generalizing t
  case nil => exact ⟨hc, ⟨rfl, rfl, List.prefix_refl _⟩, .nil⟩
  case cons bits sets hi =>
    rw [List.forall_mem_cons] at h
    have ⟨hc₁, he₁, hf₁⟩ := hc.intern h.left
    have hspace : (t.intern bits).fst.runSpace = t.runSpace := congrArg List.length he₁.runIds
    have ⟨hc₂, he₂, hf₂⟩ := hi hc₁ (hspace ▸ h.right)
    refine ⟨hc₂, he₂.trans he₁, .cons ?_ hf₂⟩
    have ⟨_, hm⟩ := he₂.signatures
    have ⟨hlt, _⟩ := List.getElem?_eq_some_iff.mp hf₁
    change ((t.intern bits).fst.internAll sets).fst.signatures[(t.intern bits).snd]? = some bits
    rw [← hm, List.getElem?_append_left hlt, hf₁]

theorem internAll_fields (t : SignatureTable) (sets : List Signature) :
    (t.internAll sets).fst.runIds = t.runIds ∧ (t.internAll sets).fst.assocType = t.assocType := by
  induction sets generalizing t
  case nil => exact ⟨rfl, rfl⟩
  case cons bits sets hi =>
    have ⟨hr, ha⟩ := hi (t.intern bits).fst
    have hf : (t.intern bits).fst.runIds = t.runIds ∧ (t.intern bits).fst.assocType = t.assocType := by
      rw [intern]
      split <;> exact ⟨rfl, rfl⟩
    exact ⟨hr.trans hf.left, ha.trans hf.right⟩

-- The header has room for the kind of the association and for the number of runs, and runs have no
-- negative ids.
structure Fits (runIds : List Int) (assocType : Int) : Prop where
  assocType : 0 ≤ assocType ∧ assocType < 2 ^ 16
  runSpace  : runIds.length < 2 ^ 32
  runIds    : ∀ runId ∈ runIds, 0 ≤ runId

theorem mapM_encodeInt {runIds : List Int} (h : ∀ runId ∈ runIds, 0 ≤ runId) :
    runIds.mapM encodeInt = some (runIds.map fun runId => encodeVarint runId.toNat) := by
  refine mapM_eq_some_iff.mpr (List.forall₂_map_right_iff.mpr <| List.forall₂_same.mpr fun runId hm => ?_)
  exact if_neg (Int.not_lt.mpr (h runId hm))

theorem nonneg_of_mapM_encodeInt {runIds : List Int} {encoded : List (List UInt8)}
    (h : runIds.mapM encodeInt = some encoded) : ∀ runId ∈ runIds, 0 ≤ runId := by
  intro runId hm
  have ⟨hl, hg⟩ := List.forall₂_iff_get.mp (mapM_eq_some_iff.mp h)
  have ⟨i, hi, he⟩ := List.mem_iff_getElem.mp hm
  have hb := hg i hi (hl ▸ hi)
  rw [List.get_eq_getElem, he, encodeInt] at hb
  by_contra hn
  rw [if_pos (Int.not_le.mp hn)] at hb
  cases hb

-- The bytes of a table that fits.
theorem serialize_eq {t : SignatureTable} (h : Fits t.runIds t.assocType) (hr : t.records = some records) :
    t.serialize = some (encodeLe 4 signaturesMagic ++ (encodeLe 1 signaturesVersion ++
      (encodeLe 2 t.assocType.toNat ++ (encodeLe 4 t.runIds.length ++
        (encodeVarint t.signatures.length ++ ((t.runIds.map Int.toNat).flatMap encodeVarint ++
          records.flatMap (·.bytes))))))) := by
  have ha : toBytes 2 t.assocType = _ := toBytes_eq_some_iff.mpr ⟨h.assocType, rfl⟩
  have hs : toBytes 4 (t.runSpace : Int) = _ :=
    toBytes_eq_some_iff.mpr ⟨⟨Int.natCast_nonneg _, by exact_mod_cast h.runSpace⟩, rfl⟩
  rw [serialize, ha, hs, mapM_encodeInt h.runIds, hr]
  simp only [Option.bind_eq_bind, Option.bind_some, Option.pure_def, Int.toNat_natCast, runSpace,
    List.flatMap_def, List.map_map]
  rfl

theorem deserialize_serialized {t : SignatureTable} (hc : t.Coherent) (h : Fits t.runIds t.assocType)
    (hr : t.records = some records) : ∃ data loaded, t.serialize = some data ∧
      deserialize data = some loaded ∧ loaded.runIds = t.runIds ∧ loaded.assocType = t.assocType ∧
        loaded.signatures = t.signatures := by
  have hids : (t.runIds.map Int.toNat).map Int.ofNat = t.runIds := by
    rw [List.map_map]
    exact (List.map_congr_left fun n hm => Int.toNat_of_nonneg (h.runIds n hm)).trans (List.map_id' _)
  have hread : readFrom t.runIds.length t.signatures.length [] [] (records.flatMap (·.bytes)) =
      some t.signatures := readFrom_recordsFrom rfl rfl hc.inside hr
  have hruns := decodeMany_flatMap
    (fun n (_ : n ∈ t.runIds.map Int.toNat) => decodeVarint_encodeVarint n) (records.flatMap (·.bytes))
  rw [List.length_map] at hruns
  have hmagic : ∀ rest, decodeFixed 4 (encodeLe 4 signaturesMagic ++ rest) = some (signaturesMagic, rest) :=
    decodeFixed_encodeLe (by decide)
  have hversion : ∀ rest,
      decodeFixed 1 (encodeLe 1 signaturesVersion ++ rest) = some (signaturesVersion, rest) :=
    decodeFixed_encodeLe (by decide)
  have hassoc : t.assocType.toNat < 256 ^ 2 := by
    have := h.assocType
    omega
  have hspace : t.runIds.length < 256 ^ 4 := h.runSpace
  have htype : (t.assocType.toNat : Int) = t.assocType := Int.toNat_of_nonneg h.assocType.left
  refine ⟨_, { t with byKey := keyed t.signatures }, serialize_eq h hr, ?_, rfl, rfl, rfl⟩
  rw [deserialize, guard, if_pos]
  case hc => simp only [List.length_append, length_encodeLe]; omega
  simp only [Option.bind_eq_bind, Option.pure_def, Option.bind_some, hmagic, hversion,
    decodeFixed_encodeLe hassoc, decodeFixed_encodeLe hspace, decodeVarint_encodeVarint, hruns, hread,
    hids, htype, guard, and_self, if_true]

theorem fits_of_serialize {t : SignatureTable} {data : List UInt8} (h : t.serialize = some data) :
    Fits t.runIds t.assocType := by
  have ⟨_, ha, h⟩ := Option.bind_eq_some_iff.mp h
  have ⟨_, hs, h⟩ := Option.bind_eq_some_iff.mp h
  have ⟨_, hr, _⟩ := Option.bind_eq_some_iff.mp h
  have hs := (toBytes_eq_some_iff.mp hs).left.right
  exact ⟨(toBytes_eq_some_iff.mp ha).left, by exact_mod_cast hs, nonneg_of_mapM_encodeInt hr⟩

-- A table comes back with each set under the number that it was given, and no reader turns its
-- records down.
structure RoundTrips (runIds : List Int) (assocType : Int) (sets : List Signature) (t : SignatureTable)
    (sigIds : List Nat) (data : List UInt8) (loaded : SignatureTable) : Prop where
  interned     : (new runIds assocType).internAll sets = (t, sigIds)
  serialized   : t.serialize = some data
  deserialized : deserialize data = some loaded
  runIds       : loaded.runIds = runIds
  assocType    : loaded.assocType = assocType
  signatures   : loaded.signatures = t.signatures
  restored     : sets.Forall₂ (fun bits sigId => loaded.signatures[sigId]? = some bits) sigIds
  withinReach  : ∀ records, t.records = some records → WithinReach records

theorem RoundTrips.fits {runIds : List Int} {assocType : Int} {t loaded : SignatureTable}
    {sigIds : List Nat} {data : List UInt8} (h : RoundTrips runIds assocType sets t sigIds data loaded) :
    Fits runIds assocType := by
  have hf := fits_of_serialize h.serialized
  have ⟨hr, ha⟩ := internAll_fields (new runIds assocType) sets
  rw [h.interned] at hr ha
  rwa [show t.runIds = runIds from hr, show t.assocType = assocType from ha] at hf

theorem table_restored_iff (runIds : List Int) (assocType : Int) (sets : List Signature)
    (h : ∀ bits ∈ sets, ∀ position ∈ bits, position < runIds.length) :
    (∃ t sigIds data loaded, RoundTrips runIds assocType sets t sigIds data loaded) ↔
      Fits runIds assocType := by
  constructor
  case mp => exact fun ⟨_, _, _, _, ht⟩ => ht.fits
  case mpr =>
    intro hfits
    have ⟨hc, he, hf⟩ := (coherent_new runIds assocType).internAll h
    generalize hi : (new runIds assocType).internAll sets = interned at hc he hf
    obtain ⟨t, sigIds⟩ := interned
    have hruns : t.runIds = runIds := he.runIds
    have hassoc : t.assocType = assocType := he.assocType
    have ⟨records, hr⟩ : ∃ records, t.records = some records := recordsFrom_isSome hc.inside
    have ⟨data, loaded, hs, hd, hids, ha, hsig⟩ :=
      deserialize_serialized hc (hruns.symm ▸ hassoc.symm ▸ hfits) hr
    refine ⟨t, sigIds, data, loaded, hi, hs, hd, hids.trans hruns, ha.trans hassoc, hsig, hsig ▸ hf,
      fun records hr => ?_⟩
    have ⟨hbases, hchains⟩ := recordsFrom_reach hc.inside (List.forall_mem_nil _) hr
    exact ⟨fun sigId baseId flipped hk => by simpa using hbases sigId baseId flipped hk, hchains⟩

theorem table_restored_three :
    ∃ t sigIds data loaded,
      RoundTrips [3, 5, 9] assocTesthit [{0, 2}, {0, 1}, {0, 2}] t sigIds data loaded :=
  (table_restored_iff [3, 5, 9] assocTesthit [{0, 2}, {0, 1}, {0, 2}] (by decide)).mpr
    ⟨by decide, by decide, by decide⟩

-- The number of runs takes four bytes, and the id of a run is not negative.
theorem table_not_written :
    (¬∃ t sigIds data loaded,
      RoundTrips (List.replicate (2 ^ 32) 0) assocTesthit [] t sigIds data loaded) ∧
    ¬∃ t sigIds data loaded, RoundTrips [-1] assocTesthit [] t sigIds data loaded := by
  constructor
  case left =>
    intro ⟨_, _, _, _, ht⟩
    have hs := ht.fits.runSpace
    rw [List.length_replicate] at hs
    exact Nat.lt_irrefl _ hs
  case right =>
    intro ⟨_, _, _, _, ht⟩
    exact absurd (ht.fits.runIds (-1) (.head _)) (by decide)

end SignatureTable
