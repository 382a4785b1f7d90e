import Covsight.NcdbC.ScopeTree

-- Decoding the records of a scope tree stream gives them back.

theorem decodeUInt64_encodeVarint {n : Nat} (h : n < sizeLimit) (rest : List UInt8) :
    decodeUInt64 (encodeVarint n ++ rest) = some (UInt64.ofNat n, rest) := by
  have hl : n < 128 ^ 10 := Nat.lt_trans h (by decide)
  rw [decodeUInt64, encodeVarint, decodeVarintWithin_varintBytes (Nat.le_refl n) (by decide) hl]
  rfl

theorem decodeUInt64_encodeUInt64 (n : UInt64) (rest : List UInt8) :
    decodeUInt64 (encodeUInt64 n ++ rest) = some (n, rest) := by
  rw [encodeUInt64, decodeUInt64_encodeVarint n.toNat_lt, UInt64.ofNat_toNat]

theorem toNat_ofNat_of_lt {n : Nat} (h : n < sizeLimit) : (UInt64.ofNat n).toNat = n :=
  UInt64.toNat_ofNat_of_lt' h

-- Reading the bit of a field off a word of bits.

@[simp]
theorem presentBit_zero (present : Bool) : presentBit present 0 = 0 := by
  cases present <;> rfl

@[simp]
theorem presentBit_land (present : Bool) (a b : Nat) :
    presentBit present a &&& b = presentBit present (a &&& b) := by
  cases present <;> simp [presentBit]

theorem presentBit_eq_zero {present : Bool} {bit : Nat} (h : bit ≠ 0) :
    presentBit present bit = 0 ↔ present = false := by
  cases present <;> simp [presentBit, h]

theorem presentBit_lt {present : Bool} {bit n : Nat} (h : bit < 2 ^ n) :
    presentBit present bit < 2 ^ n := by
  cases present
  case false => exact Nat.two_pow_pos n
  case true  => exact h

namespace NcdbSourceRef

theorem decode_encode (ref : NcdbSourceRef) (rest : List UInt8) :
    decode (ref.encode ++ rest) = some (ref, rest) := by
  simp [decode, encode, List.append_assoc, decodeUInt64_encodeUInt64]

end NcdbSourceRef

theorem encodeUInt64_ne_nil (n : UInt64) : encodeUInt64 n ≠ [] :=
  varintBytes_ne_nil _ _

-- A counted list is decoded if it fits in memory.
theorem decodeMany_encodeVarint {α : Type} {encode : α → List UInt8}
    {decode : List UInt8 → Option (α × List UInt8)} {xs : List α}
    (hd : ∀ x ∈ xs, ∀ rest, decode (encode x ++ rest) = some (x, rest)) (hl : xs.length < sizeLimit)
    (rest : List UInt8) :
    (do
      let (count, bytes) ← decodeUInt64 (encodeVarint xs.length ++ (xs.flatMap encode ++ rest))
      decodeMany decode count.toNat bytes) = some (xs, rest) := by
  simp only [decodeUInt64_encodeVarint hl, Option.bind_eq_bind, Option.bind_some,
    toNat_ofNat_of_lt hl]
  exact decodeMany_flatMap hd rest

namespace NcdbPropRecord

theorem decodeDouble_encodeLe (bits : UInt64) (rest : List UInt8) :
    decodeDouble (encodeLe 8 bits.toNat ++ rest) = some (bits, rest) := by
  have hl : 8 ≤ (encodeLe 8 bits.toNat ++ rest).length := by simp
  have hd : decodeLe (encodeLe 8 bits.toNat) = bits.toNat :=
    decodeLe_encodeLe (Nat.lt_of_lt_of_le bits.toNat_lt (by decide))
  rw [decodeDouble, if_pos hl, List.take_append_of_le_length (by simp),
    List.drop_append_of_le_length (by simp), List.take_of_length_le (by simp),
    List.drop_of_length_le (by simp), hd, UInt64.ofNat_toNat, List.nil_append]

theorem decodePayload_encodePayload (p : NcdbPropPayload) (rest : List UInt8) :
    decodePayload (encodePayload p ++ rest) = some (p, rest) := by
  cases p <;>
    simp [encodePayload, decodePayload, decodeUInt64_encodeUInt64, decodeDouble_encodeLe]

theorem decode_encode (p : NcdbPropRecord) (rest : List UInt8) :
    decode (p.encode ++ rest) = some (p, rest) := by
  simp [decode, encode, List.append_assoc, decodeUInt64_encodeUInt64, decodePayload_encodePayload]

theorem encode_ne_nil (p : NcdbPropRecord) : p.encode ≠ [] :=
  List.append_ne_nil_of_left_ne_nil (encodeUInt64_ne_nil _) _

theorem length_le_encodeTable (ps : List NcdbPropRecord) : ps.length ≤ (encodeTable ps).length := by
  have hl := length_le_flatMap fun p (_ : p ∈ ps) => encode_ne_nil p
  rw [encodeTable, List.length_append]
  omega

theorem decodeTable_encodeTable {ps : List NcdbPropRecord} (h : (encodeTable ps).length < sizeLimit)
    (rest : List UInt8) : decodeTable (encodeTable ps ++ rest) = some (ps, rest) := by
  rw [decodeTable, encodeTable, List.append_assoc]
  exact decodeMany_encodeVarint (fun p _ => decode_encode p)
    (Nat.lt_of_le_of_lt (length_le_encodeTable ps) h) rest

end NcdbPropRecord

-- The part of an optional field in the length of what it is encoded in.
theorem length_encodeOption {α : Type*} {encode : α → List UInt8} {a : Option α} {x : α}
    (h : x ∈ a) : (encodeOption encode a).length = (encode x).length := by
  cases h
  rfl

-- Decoding an optional field whose presence is the bit of a word.
theorem decodeIf_presentBit {α : Type*} {decode : List UInt8 → Option (α × List UInt8)}
    {encode : α → List UInt8} {a : Option α} {word bit : Nat} (hn : bit ≠ 0)
    (hb : word &&& bit = presentBit a.isSome bit)
    (h : ∀ x ∈ a, ∀ rest, decode (encode x ++ rest) = some (x, rest)) (rest : List UInt8) :
    decodeIf word bit decode (encodeOption encode a ++ rest) = some (a, rest) := by
  refine decodeIf_encodeOption h ?_ rest
  rw [hb, presentBit_eq_zero hn, Option.isSome_eq_false_iff, Option.isNone_iff_eq_none]

theorem decodeUInt64_of_mem (a : Option UInt64) :
    ∀ x ∈ a, ∀ rest, decodeUInt64 (encodeUInt64 x ++ rest) = some (x, rest) :=
  fun x _ => decodeUInt64_encodeUInt64 x

theorem decodeSourceRef_of_mem (a : Option NcdbSourceRef) :
    ∀ x ∈ a, ∀ rest, NcdbSourceRef.decode (x.encode ++ rest) = some (x, rest) :=
  fun x _ => NcdbSourceRef.decode_encode x

namespace NcdbCoverRecord

theorem presence_lt (c : NcdbCoverRecord) : c.presence < 2 ^ 8 := by
  simp only [presence]
  repeat' apply Nat.or_lt_two_pow
  all_goals exact presentBit_lt (by decide)

-- A bit of the presence byte is set exactly if its field is there.
theorem presence_land (c : NcdbCoverRecord) :
    c.presence &&& ncdbCoverPresenceSource = presentBit c.source.isSome ncdbCoverPresenceSource ∧
    c.presence &&& ncdbCoverPresenceWeight = presentBit c.weight.isSome ncdbCoverPresenceWeight ∧
    c.presence &&& ncdbCoverPresenceGoal = presentBit c.goal.isSome ncdbCoverPresenceGoal ∧
    c.presence &&& ncdbCoverPresenceComment = presentBit c.comment.isSome ncdbCoverPresenceComment ∧
    c.presence &&& ncdbCoverPresenceAtLeast = presentBit c.atLeast.isSome ncdbCoverPresenceAtLeast ∧
    c.presence &&& ncdbCoverPresenceTypedProps
      = presentBit c.props.isSome ncdbCoverPresenceTypedProps := by
  simp [-Nat.and_one_is_mod, presence, Nat.and_or_distrib_right, ncdbCoverPresenceSource, ncdbCoverPresenceWeight,
    ncdbCoverPresenceGoal, ncdbCoverPresenceComment, ncdbCoverPresenceAtLeast,
    ncdbCoverPresenceTypedProps]

theorem decodeExt_encodeExt {c : NcdbCoverRecord} (h : c.encodeExt.length < sizeLimit)
    (rest : List UInt8) : decodeExt c.nameRef (c.encodeExt ++ rest) = some (c, rest) := by
  have hp : c.presence.toUInt8.toNat = c.presence := toNat_toUInt8 c.presence_lt
  have ⟨hs, hw, hg, hc, ha, ht⟩ := c.presence_land
  have hd : ∀ ps ∈ c.props, ∀ rest,
      NcdbPropRecord.decodeTable (NcdbPropRecord.encodeTable ps ++ rest) = some (ps, rest) := by
    intro ps hm
    have hl := @length_encodeOption _ NcdbPropRecord.encodeTable _ _ hm
    simp only [encodeExt, List.length_cons, List.length_append] at h
    exact NcdbPropRecord.decodeTable_encodeTable (by omega)
  simp only [encodeExt, List.cons_append, decodeExt, hp, List.append_assoc, Option.bind_eq_bind,
    Option.bind_some, decodeIf_presentBit (by decide) hs (decodeSourceRef_of_mem _),
    decodeIf_presentBit (by decide) hw (decodeUInt64_of_mem _),
    decodeIf_presentBit (by decide) hg (decodeUInt64_of_mem _),
    decodeIf_presentBit (by decide) hc (decodeUInt64_of_mem _),
    decodeIf_presentBit (by decide) ha (decodeUInt64_of_mem _),
    decodeIf_presentBit (by decide) ht hd, Option.pure_def]

-- Without the extended fields there is nothing but the name.
theorem decode_encode {ext : Bool} {c : NcdbCoverRecord} (he : ext = false → c = { nameRef := c.nameRef })
    (h : (c.encode ext).length < sizeLimit) (rest : List UInt8) :
    decode ext (c.encode ext ++ rest) = some (c, rest) := by
  rw [decode, encode, List.append_assoc, decodeUInt64_encodeUInt64]
  cases ext
  case false => exact congrArg (fun c => some (c, rest)) (he rfl).symm
  case true  =>
    rw [encode, List.length_append] at h
    exact decodeExt_encodeExt (Nat.lt_of_le_of_lt (Nat.le_add_left ..) h) rest

theorem encode_ne_nil (ext : Bool) (c : NcdbCoverRecord) : c.encode ext ≠ [] :=
  List.append_ne_nil_of_left_ne_nil (encodeUInt64_ne_nil _) _

end NcdbCoverRecord

namespace NcdbScopeHeader

theorem presence_lt (h : NcdbScopeHeader) : h.presence < 2 ^ 64 := by
  simp only [presence]
  repeat' apply Nat.or_lt_two_pow
  all_goals exact presentBit_lt (by decide)

theorem presence_land (h : NcdbScopeHeader) :
    h.presence &&& ncdbPresenceFlags = presentBit h.flags.isSome ncdbPresenceFlags ∧
    h.presence &&& ncdbPresenceSource = presentBit h.source.isSome ncdbPresenceSource ∧
    h.presence &&& ncdbPresenceWeight = presentBit h.weight.isSome ncdbPresenceWeight ∧
    h.presence &&& ncdbPresenceAtLeast = presentBit h.atLeast.isSome ncdbPresenceAtLeast ∧
    h.presence &&& ncdbPresenceGoal = presentBit h.goal.isSome ncdbPresenceGoal ∧
    h.presence &&& ncdbPresenceSourceType = presentBit h.sourceType.isSome ncdbPresenceSourceType ∧
    h.presence &&& ncdbPresenceDuLink = presentBit h.duLink.isSome ncdbPresenceDuLink ∧
    h.presence &&& ncdbPresenceDuSig = presentBit h.duSig.isSome ncdbPresenceDuSig ∧
    h.presence &&& ncdbPresenceExprTerms = presentBit h.exprTerms.isSome ncdbPresenceExprTerms ∧
    h.presence &&& ncdbPresenceDuFiles = presentBit h.duFiles.isSome ncdbPresenceDuFiles ∧
    h.presence &&& ncdbPresenceTypedProps = presentBit h.props.isSome ncdbPresenceTypedProps ∧
    h.presence &&& ncdbPresenceExtCovers = presentBit h.extCovers ncdbPresenceExtCovers := by
  simp [-Nat.and_one_is_mod, presence, Nat.and_or_distrib_right, ncdbPresenceFlags, ncdbPresenceSource,
    ncdbPresenceWeight, ncdbPresenceAtLeast, ncdbPresenceGoal, ncdbPresenceSourceType,
    ncdbPresenceDuLink, ncdbPresenceDuSig, ncdbPresenceExprTerms, ncdbPresenceDuFiles,
    ncdbPresenceTypedProps, ncdbPresenceExtCovers]

theorem decodeFiles_encodeFiles {files : List UInt64} (h : (encodeFiles files).length < sizeLimit)
    (rest : List UInt8) : decodeFiles (encodeFiles files ++ rest) = some (files, rest) := by
  have hl := length_le_flatMap fun f (_ : f ∈ files) => encodeUInt64_ne_nil f
  rw [encodeFiles, List.length_append] at h
  rw [decodeFiles, encodeFiles, List.append_assoc]
  exact decodeMany_encodeVarint (fun f _ => decodeUInt64_encodeUInt64 f) (by omega) rest

theorem decode_encode {h : NcdbScopeHeader} (hl : h.encode.length < sizeLimit) (rest : List UInt8) :
    decode (h.encode ++ rest) = some (h, rest) := by
  have ⟨hf, hs, hw, ha, hg, ht, hk, hi, he, hd, hp, hx⟩ := h.presence_land
  simp only [encode, List.length_append] at hl
  have hdf : ∀ files ∈ h.duFiles, ∀ rest,
      decodeFiles (encodeFiles files ++ rest) = some (files, rest) := by
    intro files hm
    have hl' := @length_encodeOption _ encodeFiles _ _ hm
    exact decodeFiles_encodeFiles (by omega)
  have hdp : ∀ ps ∈ h.props, ∀ rest,
      NcdbPropRecord.decodeTable (NcdbPropRecord.encodeTable ps ++ rest) = some (ps, rest) := by
    intro ps hm
    have hl' := @length_encodeOption _ NcdbPropRecord.encodeTable _ _ hm
    exact NcdbPropRecord.decodeTable_encodeTable (by omega)
  have hext : (h.presence &&& ncdbPresenceExtCovers ≠ 0) ↔ h.extCovers = true := by
    rw [hx]
    cases h.extCovers <;> decide
  rw [encode, decode]
  simp only [List.append_assoc]
  refine (bind_of_eq_some (decodeUInt64_encodeUInt64 ..) _).trans ?_
  refine (bind_of_eq_some (decodeUInt64_encodeUInt64 ..) _).trans ?_
  refine (bind_of_eq_some (decodeUInt64_encodeVarint h.presence_lt _) _).trans ?_
  simp only [toNat_ofNat_of_lt h.presence_lt]
  refine (bind_of_eq_some (decodeIf_presentBit (by decide) hf (decodeUInt64_of_mem _) _) _).trans ?_
  refine (bind_of_eq_some (decodeIf_presentBit (by decide) hs (decodeSourceRef_of_mem _) _) _).trans ?_
  refine (bind_of_eq_some (decodeIf_presentBit (by decide) hw (decodeUInt64_of_mem _) _) _).trans ?_
  refine (bind_of_eq_some (decodeIf_presentBit (by decide) ha (decodeUInt64_of_mem _) _) _).trans ?_
  refine (bind_of_eq_some (decodeIf_presentBit (by decide) hg (decodeUInt64_of_mem _) _) _).trans ?_
  refine (bind_of_eq_some (decodeIf_presentBit (by decide) ht (decodeUInt64_of_mem _) _) _).trans ?_
  refine (bind_of_eq_some (decodeIf_presentBit (by decide) hk (decodeUInt64_of_mem _) _) _).trans ?_
  refine (bind_of_eq_some (decodeIf_presentBit (by decide) hi (decodeUInt64_of_mem _) _) _).trans ?_
  refine (bind_of_eq_some (decodeIf_presentBit (by decide) he (decodeUInt64_of_mem _) _) _).trans ?_
  refine (bind_of_eq_some (decodeIf_presentBit (by decide) hd hdf _) _).trans ?_
  refine (bind_of_eq_some (decodeIf_presentBit (by decide) hp hdp _) _).trans ?_
  simp only [Option.pure_def, hext, Bool.decide_eq_true]

end NcdbScopeHeader

namespace NcdbScopeRecord

mutual

-- A record has a cover type if and only if it has covers, and extended fields only where its header
-- says so.
def Formed : NcdbScopeRecord → Prop
  | togglePair _                             => True
  | regular header coverType covers children =>
    (coverType = none ↔ covers = []) ∧
    (∀ c ∈ covers, header.extCovers = false → c = { nameRef := c.nameRef }) ∧ FormedAll children

def FormedAll : List NcdbScopeRecord → Prop
  | []                => True
  | record :: records => record.Formed ∧ FormedAll records

end

theorem FormedAll.of_mem {records : List NcdbScopeRecord} (h : FormedAll records)
    {r : NcdbScopeRecord} (hm : r ∈ records) : r.Formed := by
  induction records
  case nil => cases hm
  case cons record records hi =>
    rw [FormedAll] at h
    cases hm
    case head    => exact h.1
    case tail hm => exact hi h.2 hm

theorem encodeAll_eq_flatMap (records : List NcdbScopeRecord) :
    encodeAll records = records.flatMap encode := by
  induction records
  case nil          => rfl
  case cons r rs hi => rw [encodeAll, hi, List.flatMap_cons]

theorem encode_ne_nil (record : NcdbScopeRecord) : record.encode ≠ [] := by
  cases record <;> simp [encode]

theorem length_encode_le {record : NcdbScopeRecord} {records : List NcdbScopeRecord}
    (h : record ∈ records) : record.encode.length ≤ (encodeAll records).length := by
  rw [encodeAll_eq_flatMap]
  exact (List.sublist_flatten_of_mem (List.mem_map_of_mem h)).length_le

theorem length_le_encodeAll (records : List NcdbScopeRecord) :
    records.length ≤ (encodeAll records).length := by
  rw [encodeAll_eq_flatMap]
  exact length_le_flatMap fun r _ => encode_ne_nil r

theorem decodeCoverType_encode {coverType : Option UInt64} {covers : List NcdbCoverRecord}
    (h : coverType = none ↔ covers = []) (rest : List UInt8) :
    decodeCoverType covers.length (encodeOption encodeUInt64 coverType ++ rest)
      = some (coverType, rest) := by
  rw [decodeCoverType]
  cases coverType
  case none      => simp [h.mp rfl, encodeOption]
  case some type =>
    have hn : covers.length ≠ 0 := fun hc => nomatch h.mpr (List.length_eq_zero_iff.mp hc)
    rw [if_neg hn]
    simp [encodeOption, decodeUInt64_encodeUInt64]

-- The fuel suffices when there is as much as bytes.
theorem decode_encode {fuel : Nat} : ∀ {record : NcdbScopeRecord}, record.Formed →
    record.encode.length ≤ fuel → record.encode.length < sizeLimit →
    ∀ rest, decode fuel (record.encode ++ rest) = some (record, rest) := by
  induction fuel
  case zero =>
    intro record _ hl
    exact absurd (List.length_eq_zero_iff.mp (Nat.le_zero.mp hl)) (encode_ne_nil record)
  case succ fuel hi =>
    intro record hf hl hs rest
    cases record
    case togglePair nameRef =>
      rw [encode, List.cons_append, decode, if_pos rfl, decodeUInt64_encodeUInt64]
      rfl
    case regular header coverType covers children =>
      rw [Formed] at hf
      simp only [encode, List.length_cons, List.length_append] at hl hs
      have hchildren := length_le_encodeAll children
      have hcovers : covers.length ≤ (covers.flatMap (·.encode header.extCovers)).length :=
        length_le_flatMap fun c _ => NcdbCoverRecord.encode_ne_nil header.extCovers c
      have hn : children.length < sizeLimit := by omega
      have hm : covers.length < sizeLimit := by omega
      have hh : header.encode.length < sizeLimit := by omega
      have hrec : ∀ s ∈ children, ∀ rest, decode fuel (s.encode ++ rest) = some (s, rest) := by
        intro s hm
        have hle := length_encode_le hm
        exact hi (hf.2.2.of_mem hm) (by omega) (by omega)
      have hcov : ∀ c ∈ covers, ∀ rest, NcdbCoverRecord.decode header.extCovers
          (c.encode header.extCovers ++ rest) = some (c, rest) := by
        intro c hm
        have hle : (c.encode header.extCovers).length ≤
            (covers.flatMap (·.encode header.extCovers)).length :=
          (List.sublist_flatten_of_mem (List.mem_map_of_mem hm)).length_le
        exact NcdbCoverRecord.decode_encode (hf.2.1 c hm) (by omega)
      rw [encode, List.cons_append, decode, if_neg (by decide), if_pos rfl]
      simp only [List.append_assoc, NcdbScopeHeader.decode_encode hh, Option.bind_eq_bind,
        Option.bind_some, decodeUInt64_encodeVarint hn, decodeUInt64_encodeVarint hm,
        toNat_ofNat_of_lt hn, toNat_ofNat_of_lt hm, decodeCoverType_encode hf.1,
        decodeMany_flatMap hcov, encodeAll_eq_flatMap, decodeMany_flatMap hrec, Option.pure_def]

end NcdbScopeRecord

-- No part of the decoder looks past what it takes.

theorem local_decodeUInt64 : Local decodeUInt64 :=
  (local_decodeVarintWithin 10).map UInt64.ofNat

theorem NcdbSourceRef.local_decode : Local decode :=
  .bind local_decodeUInt64 fun _ => .bind local_decodeUInt64 fun _ =>
    .bind local_decodeUInt64 fun _ => .pure _

namespace NcdbPropRecord

theorem local_decodeDouble : Local decodeDouble where
  append {bytes} _ _ h more := by
    rw [decodeDouble] at h ⊢
    split at h
    case isFalse => nomatch h
    case isTrue hl =>
      cases h
      rw [if_pos (by rw [List.length_append]; omega), List.take_append_of_le_length hl,
        List.drop_append_of_le_length hl]

theorem local_decodePayload : Local decodePayload where
  append {bytes} _ _ h more := by
    rw [decodePayload.eq_def] at h
    split at h
    case h_1 => exact (local_decodeUInt64.map NcdbPropPayload.int32).append h more
    case h_2 => exact (local_decodeUInt64.map NcdbPropPayload.int64).append h more
    case h_3 => exact (local_decodeDouble.map NcdbPropPayload.double).append h more
    case h_4 => exact (local_decodeUInt64.map NcdbPropPayload.string).append h more
    case h_5 => nomatch h

theorem local_decode : Local decode :=
  .bind local_decodeUInt64 fun _ => .bind local_decodePayload fun _ => .pure _

theorem local_decodeTable : Local decodeTable :=
  .bind local_decodeUInt64 fun _ => local_decodeMany local_decode _

end NcdbPropRecord

namespace NcdbCoverRecord

theorem local_decodeFields (cp nameRef : _) : Local fun bytes => decodeExt nameRef (cp :: bytes) :=
  .bind (local_decodeIf NcdbSourceRef.local_decode _ _) fun _ =>
  .bind (local_decodeIf local_decodeUInt64 _ _) fun _ =>
  .bind (local_decodeIf local_decodeUInt64 _ _) fun _ =>
  .bind (local_decodeIf local_decodeUInt64 _ _) fun _ =>
  .bind (local_decodeIf local_decodeUInt64 _ _) fun _ =>
  .bind (local_decodeIf NcdbPropRecord.local_decodeTable _ _) fun _ => .pure _

theorem local_decodeExt (nameRef : UInt64) : Local (decodeExt nameRef) where
  append {bytes} _ _ h more := by
    cases bytes
    case nil           => nomatch h
    case cons cp bytes => exact (local_decodeFields cp nameRef).append h more

theorem local_decode (ext : Bool) : Local (decode ext) := by
  cases ext
  case false => exact .bind local_decodeUInt64 fun _ => .pure _
  case true  => exact .bind local_decodeUInt64 fun nameRef => local_decodeExt nameRef

end NcdbCoverRecord

namespace NcdbScopeHeader

theorem local_decodeFiles : Local decodeFiles :=
  .bind local_decodeUInt64 fun _ => local_decodeMany local_decodeUInt64 _

theorem local_decode : Local decode :=
  have field (presence bit : Nat) := local_decodeIf local_decodeUInt64 presence bit
  .bind local_decodeUInt64 fun _ => .bind local_decodeUInt64 fun _ =>
  .bind local_decodeUInt64 fun _ => .bind (field _ _) fun _ =>
  .bind (local_decodeIf NcdbSourceRef.local_decode _ _) fun _ =>
  .bind (field _ _) fun _ => .bind (field _ _) fun _ => .bind (field _ _) fun _ =>
  .bind (field _ _) fun _ => .bind (field _ _) fun _ => .bind (field _ _) fun _ =>
  .bind (field _ _) fun _ => .bind (local_decodeIf local_decodeFiles _ _) fun _ =>
  .bind (local_decodeIf NcdbPropRecord.local_decodeTable _ _) fun _ => .pure _

end NcdbScopeHeader

namespace NcdbScopeRecord

theorem local_decodeCoverType (covers : Nat) : Local (decodeCoverType covers) where
  append h more := by
    rw [decodeCoverType] at h ⊢
    split at h
    case isTrue hb =>
      cases h
      exact if_pos hb
    case isFalse hb =>
      rw [if_neg hb]
      exact (local_decodeUInt64.map some).append h more

theorem local_decode (fuel : Nat) : Local (decode fuel) := by
  induction fuel
  case zero => exact ⟨fun h => nomatch h⟩
  case succ fuel hi =>
    refine ⟨fun {bytes} _ _ h more => ?_⟩
    cases bytes
    case nil => nomatch h
    case cons marker bytes =>
      rw [decode] at h
      rw [List.cons_append, decode]
      split at h
      case isTrue hp =>
        rw [if_pos hp]
        exact (local_decodeUInt64.map togglePair).append h more
      case isFalse hp =>
        rw [if_neg hp]
        split at h
        case isFalse   => nomatch h
        case isTrue hr =>
          rw [if_pos hr]
          refine (Local.bind NcdbScopeHeader.local_decode fun header => ?_).append h more
          exact .bind local_decodeUInt64 fun numChildren => .bind local_decodeUInt64 fun numCovers =>
            .bind (local_decodeCoverType _) fun coverType =>
            .bind (local_decodeMany (NcdbCoverRecord.local_decode _) _) fun covers =>
            .bind (local_decodeMany hi _) fun children => .pure _

end NcdbScopeRecord

-- The footer of a trailer is found.
theorem trailerOffset_footer {before : List UInt8} {offset : Nat} (h : offset < before.length)
    (hl : offset < sizeLimit) :
    trailerOffset (before ++ (encodeLe 8 offset ++ trailerMagic)) = some offset := by
  have hsize : (before ++ (encodeLe 8 offset ++ trailerMagic)).length = before.length + 12 := by
    simp [trailerMagic]
  have hoff : (before ++ (encodeLe 8 offset ++ trailerMagic)).drop before.length
      = encodeLe 8 offset ++ trailerMagic := List.drop_left' rfl
  have hmagic : (before ++ (encodeLe 8 offset ++ trailerMagic)).drop (before.length + 8)
      = trailerMagic := by
    rw [← List.drop_drop, hoff, List.drop_left' (length_encodeLe ..)]
  have hle : decodeLe ((encodeLe 8 offset ++ trailerMagic).take 8) = offset := by
    rw [List.take_left' (length_encodeLe ..)]
    exact decodeLe_encodeLe (Nat.lt_of_lt_of_le hl (by decide))
  rw [trailerOffset, hsize]
  simp only [Nat.add_sub_cancel, hoff, hle]
  exact if_pos ⟨by omega, hmagic, h⟩
