import Covsight.Ncdb.Theorems.Accel

-- Single numbers as the readers and writers in Python and in the C library take and give them.

-- In Python, where numbers have any size.

def decodeVarintFrom : (offset shift result : Nat) → List UInt8 → Option (Nat × Nat)
  | _,      _,     _,      []           => none
  | offset, shift, result, byte :: rest =>
    let result := result ||| (byte.toNat &&& 0x7F) <<< shift
    if byte.toNat &&& 0x80 = 0 then
      some (result, offset + 1)
    else
      decodeVarintFrom (offset + 1) (shift + 7) result rest

def decodeVarintAt (buf : List UInt8) (offset : Nat) : Option (Nat × Nat) :=
  decodeVarintFrom offset 0 0 (buf.drop offset)

-- In C, where what is written needs at most ten bytes.

def ncdbVarintEncodeFrom : (fuel : Nat) → UInt64 → List UInt8
  | 0,        _     => []
  | fuel + 1, value =>
    let byte  := (value &&& 0x7F).toUInt8
    let value := value >>> 7
    if value ≠ 0 then (byte ||| 0x80) :: ncdbVarintEncodeFrom fuel value else [byte]

def ncdbVarintEncode (value : UInt64) : List UInt8 :=
  ncdbVarintEncodeFrom 10 value

def ncdbVarintDecodeFrom : (offset shift : Nat) → (result : UInt64) → List UInt8 → Option (UInt64 × Nat)
  | _,      _,     _,      []           => none
  | offset, shift, result, byte :: rest =>
    if 70 ≤ shift then
      none
    else
      let result := result ||| (byte &&& 0x7F).toUInt64 <<< UInt64.ofNat shift
      if byte &&& 0x80 = 0 then
        some (result, offset + 1)
      else
        ncdbVarintDecodeFrom (offset + 1) (shift + 7) result rest

def ncdbVarintDecode (data : List UInt8) (offset : Nat) : Option (UInt64 × Nat) :=
  ncdbVarintDecodeFrom offset 0 0 (data.drop offset)

variable {bytes data : List UInt8} {offset : Nat}

theorem decodeVarintFrom_eq (offset : Nat) {k result : Nat} (hr : result < 2 ^ (7 * k)) :
    decodeVarintFrom offset (7 * k) result bytes =
      (decodeVarint bytes).map fun r => (result + r.fst * 2 ^ (7 * k), offset + varintSpan bytes) := by
  induction bytes generalizing offset k result
  case nil => rfl
  case cons b bytes hi =>
    have ho : result ||| (b.toNat &&& 0x7F) <<< (7 * k) = result + b.toNat % 128 * 2 ^ (7 * k) := by
      rw [Nat.and_two_pow_sub_one_eq_mod b.toNat 7, Nat.shiftLeft_eq, Nat.or_comm, Nat.mul_comm,
        ← Nat.two_pow_add_eq_or_of_lt hr, Nat.add_comm]
    have hb : b.toNat &&& 0x80 = 0 ↔ b.toNat < 128 := by
      rw [← Decoder.and_128, ← UInt8.toNat_inj]
      exact Iff.rfl
    rw [decodeVarintFrom, decodeVarint, varintSpan, ho]
    simp only [hb]
    split
    case isTrue hs => rw [Option.map_some, Nat.mod_eq_of_lt hs]
    case isFalse hs =>
      have hlow : b.toNat % 128 = b.toNat - 128 := by
        have hlt := b.toNat_lt
        omega
      have hpow : 2 ^ (7 * (k + 1)) = 2 ^ (7 * k) * 128 := Nat.pow_add ..
      have hr' : result + b.toNat % 128 * 2 ^ (7 * k) < 2 ^ (7 * (k + 1)) := by
        have hle : (b.toNat % 128 + 1) * 2 ^ (7 * k) ≤ 128 * 2 ^ (7 * k) :=
          Nat.mul_le_mul_right _ (Nat.mod_lt _ (by decide))
        rw [Nat.add_mul] at hle
        omega
      change decodeVarintFrom (offset + 1) (7 * (k + 1)) _ bytes = _
      rw [hi (offset + 1) hr', Option.map_map]
      refine congrArg (fun f => (decodeVarint bytes).map f) (funext fun r => Prod.ext ?_ ?_)
      · change result + b.toNat % 128 * 2 ^ (7 * k) + r.fst * 2 ^ (7 * (k + 1)) =
          result + (b.toNat - 128 + 128 * r.fst) * 2 ^ (7 * k)
        rw [hpow, hlow]
        ring
      · change offset + 1 + varintSpan bytes = offset + (varintSpan bytes + 1)
        omega

theorem decodeVarintAt_eq (data : List UInt8) (offset : Nat) :
    decodeVarintAt data offset =
      (decodeVarint (data.drop offset)).map fun r => (r.fst, offset + varintSpan (data.drop offset)) := by
  have h := @decodeVarintFrom_eq (data.drop offset) offset 0 0 Nat.one_pos
  simpa [decodeVarintAt] using h

-- The library reads what the extension module does, and refuses what that one has no meaning for.
theorem ncdbVarintDecodeFrom_eq (offset : Nat) {k : Nat} (hk : k ≤ 10) (result : UInt64) :
    ncdbVarintDecodeFrom offset (7 * k) result bytes =
      match ncdbDecodeVarint (7 * k) result bytes with
      | .value (v, _) => some (v, offset + varintSpan bytes)
      | _             => none := by
  induction bytes generalizing offset k result
  case nil => rfl
  case cons b bytes hi =>
    rw [ncdbVarintDecodeFrom, ncdbDecodeVarint, varintSpan]
    by_cases hl : k = 10
    case pos =>
      have h₁ : 70 ≤ 7 * k := by omega
      have h₂ : 64 ≤ 7 * k := by omega
      rw [if_pos h₁, if_pos h₂]
    case neg =>
      have h₁ : ¬70 ≤ 7 * k := by omega
      have h₂ : ¬64 ≤ 7 * k := by omega
      rw [if_neg h₁, if_neg h₂]
      by_cases hb : b &&& 0x80 = 0
      case pos => rw [if_pos hb, if_pos hb, if_pos ((Decoder.and_128 b).mp hb)]
      case neg =>
        rw [if_neg hb, if_neg hb, if_neg fun h => hb ((Decoder.and_128 b).mpr h)]
        have h := hi (offset + 1) (k := k + 1) (by omega)
          (result ||| (b &&& 0x7F).toUInt64 <<< UInt64.ofNat (7 * k))
        rw [Nat.add_assoc, Nat.add_comm 1] at h
        exact h

theorem ncdbVarintDecode_short (h : varintSpan (data.drop offset) ≤ 10) :
    ncdbVarintDecode data offset = (decodeVarint (data.drop offset)).map fun r =>
      (UInt64.ofNat r.fst, offset + varintSpan (data.drop offset)) := by
  rw [ncdbVarintDecode]
  have hd := @ncdbVarintDecodeFrom_eq (data.drop offset) offset 0 (Nat.zero_le 10) 0
  rw [Nat.mul_zero, ncdbDecodeVarint_first h] at hd
  rw [hd]
  cases decodeVarint (data.drop offset) <;> rfl

theorem ncdbVarintDecode_long (h : 10 < varintSpan (data.drop offset)) : ncdbVarintDecode data offset = none := by
  rw [ncdbVarintDecode]
  have hd := @ncdbVarintDecodeFrom_eq (data.drop offset) offset 0 (Nat.zero_le 10) 0
  have hl : ncdbDecodeVarint (7 * 0) 0 (data.drop offset) = _ := ncdbDecodeVarint_long (by omega) (Nat.zero_le 10)
  rw [Nat.mul_zero] at hd hl
  rw [hd, hl]

theorem ncdbVarintEncodeFrom_eq {limit fuel : Nat} {v : UInt64} (hf : v.toNat ≤ fuel) (hl : v.toNat < 128 ^ (limit + 1)) :
    ncdbVarintEncodeFrom (limit + 1) v = varintBytes fuel v.toNat := by
  induction limit generalizing fuel v
  all_goals
    have hz : v >>> 7 = 0 ↔ v.toNat < 128 := by
      rw [← UInt64.toNat_inj, toNat_shiftRight_7]
      exact Nat.div_eq_zero_iff_lt (by decide)
    rw [ncdbVarintEncodeFrom, varintBytes_eq hf, toUInt8_and_127]
  case zero =>
    have hs : v.toNat < 128 := by omega
    simp only [hz.mpr hs, hs, ne_eq, not_true_eq_false, if_false, if_true, Nat.mod_eq_of_lt hs]
  case succ limit hi =>
    by_cases hs : v.toNat < 128
    case pos => simp only [hz.mpr hs, hs, ne_eq, not_true_eq_false, if_false, if_true, Nat.mod_eq_of_lt hs]
    case neg =>
      have hr := toNat_shiftRight_7 v
      have hlt : (v >>> 7).toNat < 128 ^ (limit + 1) := by
        rw [hr]
        rw [Nat.pow_succ] at hl
        omega
      simp only [hz, hs, ne_eq, not_false_eq_true, if_true, if_false, or_128 (Nat.mod_lt _ (by decide))]
      have hf' : (v >>> 7).toNat ≤ fuel - 1 := by
        rw [hr]
        omega
      rw [hi hf' hlt, hr]

theorem ncdbVarintEncode_eq (v : UInt64) : ncdbVarintEncode v = encodeVarint v.toNat :=
  ncdbVarintEncodeFrom_eq (Nat.le_refl _) (Nat.lt_trans v.toNat_lt (by decide))

-- Both read the number and the next offset, or both refuse.
def VarintsAgree (data : List UInt8) (offset : Nat) : Prop :=
  decodeVarintAt data offset = (ncdbVarintDecode data offset).map fun r => (r.fst.toNat, r.snd)

-- The bytes of the number at an offset.
def varintAt (data : List UInt8) (offset : Nat) : List UInt8 :=
  (data.drop offset).take (varintSpan (data.drop offset))

-- At most ten bytes with sixty-four bits in all.
def FitsWord (varint : List UInt8) : Prop :=
  varint.length ≤ 10 ∧ ∀ b ∈ varint[9]?, b.toNat < 2

theorem varintsAgree_iff (data : List UInt8) (offset : Nat) :
    VarintsAgree data offset ↔ (∀ b ∈ data.drop offset, 128 ≤ b.toNat) ∨ FitsWord (varintAt data offset) := by
  have hn : decodeVarint (data.drop offset) = none ↔ ∀ b ∈ data.drop offset, 128 ≤ b.toNat := by
    rw [decodeVarint_eq_none_iff, List.countP_eq_zero]
    exact forall₂_congr fun b _ => by simp
  rw [VarintsAgree, FitsWord, varintAt, length_take_varintSpan, ← hn, decodeVarintAt_eq]
  by_cases hl : varintSpan (data.drop offset) ≤ 10
  case neg =>
    rw [ncdbVarintDecode_long (Nat.lt_of_not_le hl), Option.map_none, Option.map_eq_none_iff]
    exact (or_iff_left fun h => hl h.1).symm
  case pos =>
    rw [ncdbVarintDecode_short hl, and_iff_right hl]
    cases hd : decodeVarint (data.drop offset) with
    | none   => exact iff_of_true rfl (.inl rfl)
    | some r =>
      have hw : 2 ^ 64 = 2 ^ (7 * 9 + 1) := rfl
      rw [Option.map_some, Option.map_some, Option.map_some, ← lt_two_pow_iff (j := 9) hd hl, ← hw, Option.some_inj,
        Prod.mk.injEq, and_iff_left rfl, UInt64.toNat_ofNat', eq_comm, Nat.mod_eq_iff_lt (Nat.two_pow_pos 64).ne']
      exact (or_iff_right nofun).symm

-- What a varint is followed by does not matter, nor what comes before it.
theorem decodeVarintAt_encodeVarint (v : Nat) (before rest : List UInt8) :
    decodeVarintAt (before ++ encodeVarint v ++ rest) before.length =
      some (v, before.length + (encodeVarint v).length) := by
  have hd := decodeVarint_encodeVarint v rest
  have hr := congrArg List.length (decodeVarint_rest hd).left
  have hs := varintSpan_le (encodeVarint v ++ rest)
  rw [List.length_drop, List.length_append] at hr
  rw [List.length_append] at hs
  rw [decodeVarintAt_eq, List.append_assoc, List.drop_left, hd, Option.map_some]
  refine congrArg (fun n => some (v, before.length + n)) ?_
  omega

theorem ncdbVarintDecode_ncdbVarintEncode (v : UInt64) (before rest : List UInt8) :
    ncdbVarintDecode (before ++ ncdbVarintEncode v ++ rest) before.length =
      some (v, before.length + (ncdbVarintEncode v).length) := by
  have hp := decodeVarintAt_encodeVarint v.toNat before rest
  rw [ncdbVarintEncode_eq]
  generalize hdata : before ++ encodeVarint v.toNat ++ rest = data at hp ⊢
  have hd := decodeVarint_encodeVarint v.toNat rest
  have hdrop : data.drop before.length = encodeVarint v.toNat ++ rest := by
    rw [← hdata, List.append_assoc, List.drop_left]
  have hspan : varintSpan (data.drop before.length) = (encodeVarint v.toNat).length := by
    rw [decodeVarintAt_eq, hdrop, hd, Option.map_some, Option.some_inj, Prod.mk.injEq] at hp
    rw [hdrop]
    omega
  have hw : (encodeVarint v.toNat).length ≤ 10 := by
    rw [length_encodeVarint, varintWidth]
    have hl := Nat.log_lt_of_lt_pow' (b := 128) (x := 10) (y := v.toNat) (by decide)
      (Nat.lt_trans v.toNat_lt (by decide))
    omega
  rw [ncdbVarintDecode_short (hspan.trans_le hw), hspan, hdrop, hd, Option.map_some, UInt64.ofNat_toNat]

-- The readers agree on what is cut off and on what fits a word, and undo the writers on all words.
theorem varint_decoders_agree (data : List UInt8) (offset : Nat) (v : UInt64) (before rest : List UInt8) :
    (VarintsAgree data offset ↔
      (∀ b ∈ data.drop offset, 128 ≤ b.toNat) ∨ FitsWord (varintAt data offset)) ∧
    decodeVarintAt (before ++ encodeVarint v.toNat ++ rest) before.length =
      some (v.toNat, before.length + (encodeVarint v.toNat).length) ∧
    ncdbVarintDecode (before ++ ncdbVarintEncode v ++ rest) before.length =
      some (v, before.length + (ncdbVarintEncode v).length) :=
  ⟨varintsAgree_iff data offset, decodeVarintAt_encodeVarint v.toNat before rest,
    ncdbVarintDecode_ncdbVarintEncode v before rest⟩

-- The sixty-fifth bit is lost in C, and an eleventh byte is not read.
theorem varint_decoders_differ :
    let tooLarge := List.replicate 9 0x80 ++ [0x02]
    let tooLong  := List.replicate 10 0x80 ++ [0x00]
    decodeVarintAt tooLarge 0 = some (2 ^ 64, 10) ∧ ncdbVarintDecode tooLarge 0 = some (0, 10) ∧
    decodeVarintAt tooLong 0 = some (0, 11) ∧ ncdbVarintDecode tooLong 0 = none := by
  decide
