import Covsight.Lib.EncodedReads
import Covsight.Ncdb.Accel
import Mathlib.Data.Nat.Log

-- On which inputs the kernels of the extension module give what the ones in Python give.

-- How many bytes a number takes.
def varintWidth (n : Nat) : Nat :=
  Nat.log 128 n + 1

theorem length_varintBytes {fuel n : Nat} (h : n ≤ fuel) :
    (varintBytes fuel n).length = varintWidth n := by
  induction fuel generalizing n
  case zero =>
    obtain rfl := Nat.le_zero.mp h
    rw [varintWidth, Nat.log_zero_right]
    rfl
  case succ fuel hi =>
    rw [varintBytes]
    split
    case isTrue hl =>
      rw [varintWidth, Nat.log_of_lt hl]
      rfl
    case isFalse hl =>
      rw [List.length_cons, hi (by omega), varintWidth, varintWidth,
        Nat.log_of_one_lt_of_le (b := 128) (by decide) (Nat.le_of_not_lt hl)]

theorem length_encodeVarint (n : Nat) : (encodeVarint n).length = varintWidth n :=
  length_varintBytes (Nat.le_refl n)

-- Writing.

-- The last byte of a number has no high bit, all others have.
theorem toUInt8_and_127 (v : UInt64) : (v &&& 0x7F).toUInt8 = (v.toNat % 128).toUInt8 := by
  refine UInt8.toNat_inj.mp ?_
  have hm : (v &&& 0x7F).toNat = v.toNat % 128 := by
    rw [UInt64.toNat_and]
    exact Nat.and_two_pow_sub_one_eq_mod v.toNat 7
  rw [UInt64.toNat_toUInt8, hm]
  simp

theorem toNat_shiftRight_7 (v : UInt64) : (v >>> 7).toNat = v.toNat / 128 := by
  rw [UInt64.toNat_shiftRight]
  exact Nat.shiftRight_eq_div_pow v.toNat 7

theorem or_128 {n : Nat} (h : n < 128) : n.toUInt8 ||| 0x80 = (n + 128).toUInt8 := by
  have hd : ∀ m : Fin 128, m.val.toUInt8 ||| 0x80 = (m.val + 128).toUInt8 := by decide
  exact hd ⟨n, h⟩

theorem varintBytes_eq {fuel n : Nat} (h : n ≤ fuel) : varintBytes fuel n =
    if n < 128 then [n.toUInt8] else (n % 128 + 128).toUInt8 :: varintBytes (fuel - 1) (n / 128) := by
  cases fuel
  case zero =>
    obtain rfl := Nat.le_zero.mp h
    rfl
  case succ fuel => rfl

theorem writeVarint_eq (cap limit fuel : Nat) {v : UInt64} {out : List UInt8} (hf : v.toNat ≤ fuel)
    (hl : v.toNat < 128 ^ (limit + 1)) (hc : out.length + (limit + 1) ≤ cap) :
    writeVarint cap (limit + 1) v out = some (out ++ varintBytes fuel v.toNat) := by
  induction limit generalizing fuel v out
  all_goals
    have hz : v >>> 7 = 0 ↔ v.toNat < 128 := by
      rw [← UInt64.toNat_inj, toNat_shiftRight_7]
      exact Nat.div_eq_zero_iff_lt (by decide)
    rw [writeVarint, if_neg (by omega), varintBytes_eq hf, toUInt8_and_127]
  case zero =>
    have hs : v.toNat < 128 := by omega
    simp only [hz.mpr hs, hs, ne_eq, not_true_eq_false, if_false, if_true, Nat.mod_eq_of_lt hs]
  case succ limit hi =>
    by_cases hs : v.toNat < 128
    case pos =>
      simp only [hz.mpr hs, hs, ne_eq, not_true_eq_false, if_false, if_true, Nat.mod_eq_of_lt hs]
    case neg =>
      have hr := toNat_shiftRight_7 v
      have hlt : (v >>> 7).toNat < 128 ^ (limit + 1) := by
        rw [hr]
        rw [Nat.pow_succ] at hl
        omega
      simp only [hz, hs, ne_eq, not_false_eq_true, if_true, if_false, or_128 (Nat.mod_lt _ (by decide))]
      rw [hi (fuel - 1) (by rw [hr]; omega) hlt (by simp; omega), hr, List.append_assoc]
      rfl

theorem ncdbEncodeVarints_eq {values : List UInt64} {cap : Nat} (hc : values.length * 10 ≤ cap) :
    ncdbEncodeVarints values cap = some (values.flatMap fun v => encodeVarint v.toNat) := by
  have hw (v : UInt64) : (encodeVarint v.toNat).length ≤ 10 := by
    rw [length_encodeVarint, varintWidth]
    have hl := Nat.log_lt_of_lt_pow' (b := 128) (x := 10) (y := v.toNat) (by decide)
      (Nat.lt_trans v.toNat_lt (by decide))
    omega
  have hfold (out : List UInt8) (h : out.length + values.length * 10 ≤ cap) :
      values.foldlM (fun out v => writeVarint cap 10 v out) out =
        some (out ++ values.flatMap fun v => encodeVarint v.toNat) := by
    clear hc
    induction values generalizing out
    case nil => simp
    case cons v values hi =>
      rw [List.length_cons] at h
      have hv : writeVarint cap 10 v out = some (out ++ encodeVarint v.toNat) :=
        writeVarint_eq cap 9 _ (Nat.le_refl v.toNat) (Nat.lt_trans v.toNat_lt (by decide)) (by omega)
      have hlen := hw v
      rw [List.foldlM_cons, hv]
      change values.foldlM _ (out ++ encodeVarint v.toNat) = _
      rw [hi _ (by rw [List.length_append]; omega), List.flatMap_cons, List.append_assoc]
  exact hfold [] (by simpa using hc)

-- A size that comes back with a sign is what it was if it has 31 bits.
theorem int32_eq_iff (n : Nat) : int32 n = n ↔ n < 2 ^ 31 := by
  unfold int32
  rw [Int.bmod_eq_iff (Nat.two_pow_pos 32)]
  omega

-- With one bit more it is negative.
theorem int32_neg {n : Nat} (h : 2 ^ 31 ≤ n) (hl : n < 2 ^ 32) : int32 n < 0 := by
  have he : int32 n = n - 2 ^ 32 := by
    unfold int32
    rw [Int.bmod_eq_iff (Nat.two_pow_pos 32)]
    omega
  omega

theorem int32_lt (n : Nat) : int32 n < 2 ^ 31 := by
  have hlt := @Int.bmod_lt n (2 ^ 32) (Nat.two_pow_pos 32)
  unfold int32
  omega

-- The kernels write the same if a number is refused by both, or if all numbers have 64 bits and the
-- size of what is written has 31.
theorem encodeVarints_agree_iff (values : List Int) :
    PureKernel.encodeVarints values = AccelKernel.encodeVarints values ↔
      (∃ v ∈ values, v < 0) ∨
      (∀ v ∈ values, v < 2 ^ 64) ∧ (values.map fun v => varintWidth v.toNat).sum < 2 ^ 31 := by
  rw [PureKernel.encodeVarints, AccelKernel.encodeVarints]
  by_cases hn : ∃ v ∈ values, v < 0
  case pos =>
    have ⟨v, hm, hv⟩ := hn
    have hp : values.any (· < 0) := List.any_eq_true.mpr ⟨v, hm, decide_eq_true hv⟩
    have ha : values.any (fun v => v < 0 ∨ 2 ^ 64 ≤ v) :=
      List.any_eq_true.mpr ⟨v, hm, decide_eq_true (.inl hv)⟩
    rw [if_pos hp, if_pos ha]
    exact iff_of_true rfl (.inl hn)
  case neg =>
    have hp : ¬values.any (· < 0) := by simpa using hn
    have hn' : ∀ v ∈ values, 0 ≤ v := by simpa using hn
    rw [if_neg hp]
    by_cases hb : ∀ v ∈ values, v < 2 ^ 64
    case neg =>
      have ⟨v, hm, hv⟩ : ∃ v ∈ values, 2 ^ 64 ≤ v := by simpa using hb
      have ha : values.any (fun v => v < 0 ∨ 2 ^ 64 ≤ v) :=
        List.any_eq_true.mpr ⟨v, hm, decide_eq_true (.inr hv)⟩
      rw [if_pos ha]
      exact iff_of_false nofun fun h => h.elim hn fun h => hb h.left
    case pos =>
      have ha : ¬values.any (fun v => v < 0 ∨ 2 ^ 64 ≤ v) := by
        simp only [List.any_eq_true, decide_eq_true_eq, not_exists, not_and, not_or]
        exact fun v hm => ⟨Int.not_lt.mpr (hn' v hm), Int.not_le.mpr (hb v hm)⟩
      have hout : (values.map fun v => UInt64.ofNat v.toNat).flatMap (fun v => encodeVarint v.toNat) =
          values.flatMap fun v => encodeVarint v.toNat := by
        rw [List.flatMap_map]
        refine List.flatMap_congr fun v hm => ?_
        have hlt := hb v hm
        rw [UInt64.toNat_ofNat_of_lt' (by change _ < 2 ^ 64; omega)]
      rw [if_neg ha, ncdbEncodeVarints_eq (by rw [List.length_map]; omega), hout]
      have hlen : (values.flatMap fun v => encodeVarint v.toNat).length =
          (values.map fun v => varintWidth v.toNat).sum := by
        rw [List.length_flatMap]
        simp only [length_encodeVarint]
      rw [← hlen, or_iff_right hn, and_iff_right hb]
      generalize values.flatMap (fun v => encodeVarint v.toNat) = out
      change CallResult.value out = (if int32 out.length < 0 then .raised else
        .value (out.take (int32 out.length).toNat)) ↔ _
      constructor
      case mp =>
        intro h
        split at h
        case isTrue => cases h
        case isFalse hz =>
          have he := congrArg List.length (CallResult.value.inj h)
          have hlt := int32_lt out.length
          rw [List.length_take] at he
          omega
      case mpr =>
        intro h
        have hm := (int32_eq_iff out.length).mpr h
        rw [hm, if_neg (by omega), Int.toNat_natCast, List.take_length]

-- Reading.

-- How many bytes a number takes at the front of some bytes.
def varintSpan : List UInt8 → Nat
  | []         => 0
  | b :: bytes => if b.toNat < 128 then 1 else varintSpan bytes + 1

-- How many bytes so many numbers take.
def varintsSpan : (count : Nat) → List UInt8 → Nat
  | 0,         _     => 0
  | count + 1, bytes => varintSpan bytes + varintsSpan count (bytes.drop (varintSpan bytes))

-- What holds of the bytes of each of so many numbers.
def EachVarint (p : List UInt8 → Prop) : (count : Nat) → List UInt8 → Prop
  | 0,         _     => True
  | count + 1, bytes =>
    p (bytes.take (varintSpan bytes)) ∧ EachVarint p count (bytes.drop (varintSpan bytes))

theorem varintSpan_le (bytes : List UInt8) : varintSpan bytes ≤ bytes.length := by
  induction bytes
  case nil => exact Nat.le_refl 0
  case cons b bytes hi =>
    rw [varintSpan, List.length_cons]
    split <;> omega

theorem length_take_varintSpan (bytes : List UInt8) :
    (bytes.take (varintSpan bytes)).length = varintSpan bytes :=
  List.length_take_of_le (varintSpan_le bytes)

-- A number ends with the first byte without a high bit.
theorem decodeVarint_eq_none_iff {bytes : List UInt8} :
    decodeVarint bytes = none ↔ bytes.countP (·.toNat < 128) = 0 := by
  induction bytes
  case nil => exact iff_of_true rfl rfl
  case cons b bytes hi =>
    rw [decodeVarint, List.countP_cons]
    by_cases hb : b.toNat < 128
    case pos => simp [hb]
    case neg => simpa [hb] using hi

theorem decodeVarint_rest {bytes rest : List UInt8} {v : Nat} (h : decodeVarint bytes = some (v, rest)) :
    rest = bytes.drop (varintSpan bytes) ∧
      bytes.countP (·.toNat < 128) = rest.countP (·.toNat < 128) + 1 := by
  induction bytes generalizing v
  case nil => cases h
  case cons b bytes hi =>
    rw [decodeVarint] at h
    rw [varintSpan, List.countP_cons]
    split at h
    case isTrue hb =>
      cases h
      simp [hb]
    case isFalse hb =>
      obtain ⟨⟨n, rest'⟩, hd, he⟩ := Option.map_eq_some_iff.mp h
      cases he
      obtain ⟨hr, hc⟩ := hi hd
      rw [if_neg hb, List.drop_succ_cons]
      exact ⟨hr, by simpa [hb] using hc⟩

theorem decodeMany_eq_none_iff (count : Nat) (bytes : List UInt8) :
    decodeMany decodeVarint count bytes = none ↔ bytes.countP (·.toNat < 128) < count := by
  induction count generalizing bytes
  case zero => exact iff_of_false (Option.some_ne_none _) (Nat.not_lt_zero _)
  case succ count hi =>
    rw [decodeMany]
    cases hd : decodeVarint bytes
    case none =>
      rw [decodeVarint_eq_none_iff.mp hd]
      exact iff_of_true rfl (Nat.succ_pos count)
    case some r =>
      obtain ⟨v, rest⟩ := r
      have hc := (decodeVarint_rest hd).right
      rw [hc, Nat.add_lt_add_iff_right, ← hi]
      change ((decodeMany decodeVarint count rest).bind _) = none ↔ _
      cases decodeMany decodeVarint count rest
      case none   => exact iff_of_true rfl rfl
      case some _ => exact iff_of_false (Option.some_ne_none _) (Option.some_ne_none _)

theorem decodeMany_rest {count : Nat} {bytes rest : List UInt8} {vs : List Nat}
    (h : decodeMany decodeVarint count bytes = some (vs, rest)) :
    rest.length + varintsSpan count bytes = bytes.length := by
  induction count generalizing bytes vs
  case zero =>
    cases h
    rfl
  case succ count hi =>
    have ⟨⟨v, rest₁⟩, hd, h⟩ := Option.bind_eq_some_iff.mp h
    have ⟨⟨vs, rest₂⟩, hm, h⟩ := Option.bind_eq_some_iff.mp h
    cases h
    have hr := (decodeVarint_rest hd).left
    have hl := hi hm
    have hs := varintSpan_le bytes
    have hlen := congrArg List.length hr
    rw [List.length_drop] at hlen
    rw [varintsSpan, ← hr]
    omega

-- Bits that are shifted out are lost.
theorem toNat_or_shiftLeft_mod {result n : UInt64} {j : Nat} (hj : j < 64) (hr : result.toNat < 2 ^ j) :
    (result ||| n <<< UInt64.ofNat j).toNat = (result.toNat + n.toNat * 2 ^ j) % 2 ^ 64 := by
  have hs : (UInt64.ofNat j).toNat = j := UInt64.toNat_ofNat_of_lt' (Nat.lt_trans hj (by decide))
  have hp : 2 ^ 64 = 2 ^ j * 2 ^ (64 - j) := by rw [← Nat.pow_add, Nat.add_sub_cancel' (Nat.le_of_lt hj)]
  have hm : n.toNat * 2 ^ j % 2 ^ 64 = 2 ^ j * (n.toNat % 2 ^ (64 - j)) := by
    rw [hp, Nat.mul_comm, Nat.mul_mod_mul_left]
  have hlt : n.toNat % 2 ^ (64 - j) + 1 ≤ 2 ^ (64 - j) := Nat.mod_lt _ (Nat.two_pow_pos _)
  have hle : 2 ^ j * (n.toNat % 2 ^ (64 - j) + 1) ≤ 2 ^ 64 := hp ▸ Nat.mul_le_mul_left _ hlt
  rw [Nat.mul_add, Nat.mul_one] at hle
  have hsum : (result.toNat + n.toNat * 2 ^ j) % 2 ^ 64 =
      2 ^ j * (n.toNat % 2 ^ (64 - j)) + result.toNat := by
    rw [← Nat.add_mod_mod, hm, Nat.mod_eq_of_lt (by omega), Nat.add_comm]
  rw [hsum, UInt64.toNat_or, UInt64.toNat_shiftLeft, hs, Nat.mod_eq_of_lt hj, Nat.shiftLeft_eq, hm,
    Nat.or_comm, ← Nat.two_pow_add_eq_or_of_lt hr]

-- The extension module reads a number of at most ten bytes without its bits from the sixty-fourth on.
theorem ncdbDecodeVarint_eq {k : Nat} {result : UInt64} {bytes : List UInt8}
    (hk : k + varintSpan bytes ≤ 10) (hr : result.toNat < 2 ^ (7 * k)) :
    ncdbDecodeVarint (7 * k) result bytes =
      match decodeVarint bytes with
      | none           => .raised
      | some (v, rest) => .value (UInt64.ofNat (result.toNat + v * 2 ^ (7 * k)), rest) := by
  induction bytes generalizing k result
  case nil => rfl
  case cons b bytes hi =>
    have hs : 1 ≤ varintSpan (b :: bytes) := by
      rw [varintSpan]
      split <;> omega
    have ho := toNat_or_shiftLeft_mod (n := (b &&& 0x7F).toUInt64) (show 7 * k < 64 by omega) hr
    rw [Decoder.and_127] at ho
    rw [ncdbDecodeVarint, if_neg (by omega), decodeVarint]
    by_cases hb : b.toNat < 128
    case pos =>
      rw [Nat.mod_eq_of_lt hb] at ho
      rw [if_pos ((Decoder.and_128 b).mpr hb), if_pos hb]
      refine congrArg (fun v => CallResult.value (v, bytes)) (UInt64.toNat_inj.mp ?_)
      rw [ho, UInt64.toNat_ofNat']
    case neg =>
      have hpow : 2 ^ (7 * (k + 1)) = 2 ^ (7 * k) * 128 := Nat.pow_add ..
      have hlow : b.toNat % 128 = b.toNat - 128 := by
        have hlt := b.toNat_lt
        omega
      have hr' : (result ||| (b &&& 0x7F).toUInt64 <<< UInt64.ofNat (7 * k)).toNat <
          2 ^ (7 * (k + 1)) := by
        have hle : (b.toNat % 128 + 1) * 2 ^ (7 * k) ≤ 128 * 2 ^ (7 * k) :=
          Nat.mul_le_mul_right _ (Nat.mod_lt _ (by decide))
        have hmod := Nat.mod_le (result.toNat + b.toNat % 128 * 2 ^ (7 * k)) (2 ^ 64)
        rw [Nat.add_mul] at hle
        omega
      rw [varintSpan, if_neg hb] at hk
      have hi := hi (k := k + 1) (by omega) hr'
      rw [if_neg fun h => hb ((Decoder.and_128 b).mp h), if_neg hb]
      change ncdbDecodeVarint (7 * (k + 1)) _ bytes = _
      rw [hi]
      cases decodeVarint bytes
      case none => rfl
      case some r =>
        refine congrArg (fun v => CallResult.value (v, r.snd)) (UInt64.toNat_inj.mp ?_)
        have hsplit : result.toNat + b.toNat % 128 * 2 ^ (7 * k) + r.fst * 2 ^ (7 * (k + 1)) =
            result.toNat + (b.toNat - 128 + 128 * r.fst) * 2 ^ (7 * k) := by
          rw [hpow, hlow]
          ring
        rw [UInt64.toNat_ofNat', UInt64.toNat_ofNat', ho, Nat.mod_add_mod, hsplit]

theorem ncdbDecodeVarint_long {k : Nat} {result : UInt64} {bytes : List UInt8}
    (hk : 10 < k + varintSpan bytes) (hk' : k ≤ 10) :
    ncdbDecodeVarint (7 * k) result bytes = .undefined := by
  induction bytes generalizing k result
  case nil => simp only [varintSpan] at hk; omega
  case cons b bytes hi =>
    rw [ncdbDecodeVarint]
    split
    case isTrue => rfl
    case isFalse hl =>
      rw [varintSpan] at hk
      split at hk
      case isTrue => omega
      case isFalse hb =>
        have hb' : ¬b &&& 0x80 = 0 := fun h => hb ((Decoder.and_128 b).mp h)
        rw [if_neg hb']
        exact hi (k := k + 1) (by omega) (by omega)

-- A number of ten bytes has at most sixty-four bits if its last byte is one of them.
theorem lt_two_pow_iff {bytes rest : List UInt8} {v j : Nat} (h : decodeVarint bytes = some (v, rest))
    (hj : varintSpan bytes ≤ j + 1) :
    v < 2 ^ (7 * j + 1) ↔ ∀ b ∈ (bytes.take (varintSpan bytes))[j]?, b.toNat < 2 := by
  induction bytes generalizing v j
  case nil => cases h
  case cons b bytes hi =>
    rw [decodeVarint] at h
    rw [varintSpan] at hj ⊢
    by_cases hb : b.toNat < 128
    case pos =>
      rw [if_pos hb] at h ⊢
      cases h
      cases j
      case zero => simp
      case succ j =>
        have hp : 2 ^ 8 ≤ 2 ^ (7 * (j + 1) + 1) := Nat.pow_le_pow_right (by decide) (by omega)
        simp only [List.take_succ_cons, List.getElem?_cons_succ, List.take_zero, List.getElem?_nil]
        exact iff_of_true (by omega) (by simp)
    case neg =>
      rw [if_neg hb] at h hj ⊢
      obtain ⟨⟨n, rest'⟩, hd, he⟩ := Option.map_eq_some_iff.mp h
      cases he
      cases j
      case zero =>
        cases bytes
        case nil       => cases hd
        case cons c cs =>
          rw [varintSpan] at hj
          split at hj <;> omega
      case succ j =>
        have hp : 2 ^ (7 * (j + 1) + 1) = 2 ^ (7 * j + 1) * 128 := by rw [← Nat.pow_add (n := 7)]; rfl
        have hlt := b.toNat_lt
        rw [List.take_succ_cons, List.getElem?_cons_succ, ← hi hd (by omega), hp]
        omega

theorem varintSpan_of_none {bytes : List UInt8} (h : decodeVarint bytes = none) :
    bytes.drop (varintSpan bytes) = [] := by
  induction bytes
  case nil => rfl
  case cons b bytes hi =>
    rw [decodeVarint] at h
    split at h
    case isTrue => cases h
    case isFalse hb =>
      rw [varintSpan, if_neg hb, List.drop_succ_cons]
      exact hi (Option.map_eq_none_iff.mp h)

theorem eachVarint_nil {p : List UInt8 → Prop} (hp : p []) (count : Nat) : EachVarint p count [] := by
  induction count
  case zero          => trivial
  case succ count hi => exact ⟨hp, hi⟩

theorem ncdbDecodeVarint_first {bytes : List UInt8} (h : varintSpan bytes ≤ 10) :
    ncdbDecodeVarint 0 0 bytes =
      match decodeVarint bytes with
      | none           => .raised
      | some (v, rest) => .value (UInt64.ofNat v, rest) := by
  have hk : 0 + varintSpan bytes ≤ 10 := by omega
  have hd := ncdbDecodeVarint_eq hk (show (0 : UInt64).toNat < 2 ^ (7 * 0) by decide)
  have hz (v : Nat) : (0 : UInt64).toNat + v * 2 ^ (7 * 0) = v := by simp
  simp only [hz] at hd
  exact hd

theorem ncdbDecodeVarints_eq {count : Nat} {bytes : List UInt8}
    (h : EachVarint (·.length ≤ 10) count bytes) :
    ncdbDecodeVarints count bytes =
      match decodeMany decodeVarint count bytes with
      | none            => .raised
      | some (vs, rest) => .value (vs.map UInt64.ofNat, rest) := by
  induction count generalizing bytes
  case zero => rfl
  case succ count hi =>
    obtain ⟨hl, hrest⟩ := h
    have hs : varintSpan bytes ≤ 10 := (length_take_varintSpan bytes).ge.trans hl
    rw [ncdbDecodeVarints, decodeMany, ncdbDecodeVarint_first hs]
    cases hv : decodeVarint bytes
    case none => rfl
    case some r =>
      obtain ⟨v, rest⟩ := r
      rw [← (decodeVarint_rest hv).left] at hrest
      simp only [CallResult.bind, hi hrest, Option.bind_eq_bind, Option.bind_some]
      cases decodeMany decodeVarint count rest <;> rfl

theorem ncdbDecodeVarints_undefined {count : Nat} {bytes : List UInt8}
    (h : ¬EachVarint (·.length ≤ 10) count bytes) :
    ncdbDecodeVarints count bytes = .undefined := by
  induction count generalizing bytes
  case zero => exact absurd trivial h
  case succ count hi =>
    rw [ncdbDecodeVarints]
    by_cases hs : varintSpan bytes ≤ 10
    case neg =>
      have hk : 10 < 0 + varintSpan bytes := by omega
      have hl : ncdbDecodeVarint 0 0 bytes = .undefined := ncdbDecodeVarint_long hk (Nat.zero_le 10)
      rw [hl]
      rfl
    case pos =>
      have hn : ¬EachVarint (·.length ≤ 10) count (bytes.drop (varintSpan bytes)) := fun hr =>
        h ⟨(length_take_varintSpan bytes).le.trans hs, hr⟩
      rw [ncdbDecodeVarint_first hs]
      cases hv : decodeVarint bytes
      case none =>
        rw [varintSpan_of_none hv] at hn
        exact absurd (eachVarint_nil (Nat.zero_le _) count) hn
      case some r =>
        have ⟨v, rest⟩ := r
        rw [← (decodeVarint_rest hv).left] at hn
        change (ncdbDecodeVarints count rest).bind _ = _
        rw [hi hn]
        rfl

theorem values_lt_iff {count : Nat} {bytes rest : List UInt8} {vs : List Nat}
    (hs : EachVarint (·.length ≤ 10) count bytes)
    (h : decodeMany decodeVarint count bytes = some (vs, rest)) :
    (∀ v ∈ vs, v < 2 ^ 64) ↔ EachVarint (fun v => ∀ b ∈ v[9]?, b.toNat < 2) count bytes := by
  induction count generalizing bytes vs
  case zero =>
    cases h
    exact iff_of_true nofun trivial
  case succ count hi =>
    have ⟨⟨v, rest₁⟩, hd, h⟩ := Option.bind_eq_some_iff.mp h
    have ⟨⟨vs, rest₂⟩, hm, h⟩ := Option.bind_eq_some_iff.mp h
    cases h
    have ⟨hl, hsrest⟩ := hs
    have hs : varintSpan bytes ≤ 10 := (length_take_varintSpan bytes).ge.trans hl
    rw [← (decodeVarint_rest hd).left] at hsrest
    rw [List.forall_mem_cons, EachVarint, ← (decodeVarint_rest hd).left, ← hi hsrest hm]
    exact and_congr_left' (lt_two_pow_iff (j := 9) hd (by omega))

-- The arguments that the extension module does not take.
def Refused (count offset : Int) : Prop :=
  count < 0 ∨ 2 ^ 60 ≤ count ∨ offset < 0 ∨ 2 ^ 64 ≤ offset

instance (count offset : Int) : Decidable (Refused count offset) :=
  inferInstanceAs (Decidable (_ ∨ _ ∨ _ ∨ _))

-- The bytes from the offset on are too few for the numbers.
def TooFew (data : List UInt8) (count offset : Int) : Prop :=
  ((PureKernel.indexedFrom data offset).countP (·.toNat < 128) : Int) < count

theorem pure_raised_iff {data : List UInt8} {count offset : Int} (hc : 0 ≤ count) :
    PureKernel.decodeVarints data count offset = .raised ↔ TooFew data count offset := by
  have hn := decodeMany_eq_none_iff count.toNat (PureKernel.indexedFrom data offset)
  have ht : TooFew data count offset ↔
      (PureKernel.indexedFrom data offset).countP (·.toNat < 128) < count.toNat := by
    rw [TooFew]
    omega
  rw [ht, ← hn, PureKernel.decodeVarints]
  cases decodeMany decodeVarint count.toNat (PureKernel.indexedFrom data offset)
  case none   => exact iff_of_true rfl rfl
  case some _ => exact iff_of_false nofun nofun

theorem accel_accepted (data : List UInt8) {count offset : Int} (hc : count ≠ 0)
    (hr : ¬Refused count offset) : AccelKernel.decodeVarints data count offset =
      (ncdbDecodeVarints count.toNat (data.drop offset.toNat)).bind fun (values, rest) =>
        let newOff := int32 (data.length - rest.length)
        if newOff < 0 then .raised else .value (values.map (·.toNat), newOff) := by
  have hr' : ¬(count < 0 ∨ 2 ^ 60 ≤ count ∨ offset < 0 ∨ 2 ^ 64 ≤ offset) := hr
  rw [AccelKernel.decodeVarints, if_neg hc, if_neg hr']

theorem bind_read (len : Nat) (read : Option (List Nat × List UInt8)) (size : Nat → Int) :
    (CallResult.bind (match read with
      | none            => .raised
      | some (vs, rest) => .value (vs.map UInt64.ofNat, rest)) fun (values, rest) =>
        let newOff := size (len - rest.length)
        if newOff < 0 then .raised else .value (values.map (·.toNat), newOff)) =
      match read with
      | none            => .raised
      | some (vs, rest) =>
        let newOff := size (len - rest.length)
        if newOff < 0 then .raised else .value (vs.map (fun v => (UInt64.ofNat v).toNat), newOff) := by
  cases read
  case none   => rfl
  case some r => simp only [CallResult.bind, List.map_map, Function.comp_def]

-- Numbers of at most ten bytes are read, up to what does not fit, and their size comes back with a
-- sign.
theorem accel_decodeVarints {data : List UInt8} {count offset : Nat} (hc : count ≠ 0)
    (hr : ¬Refused count offset) (hs : EachVarint (·.length ≤ 10) count (data.drop offset)) :
    AccelKernel.decodeVarints data count offset =
      match decodeMany decodeVarint count (data.drop offset) with
      | none            => .raised
      | some (vs, rest) =>
        let newOff := int32 (data.length - rest.length)
        if newOff < 0 then .raised else .value (vs.map (fun v => (UInt64.ofNat v).toNat), newOff) := by
  have ha := accel_accepted data (Int.natCast_ne_zero.mpr hc) hr
  rw [Int.toNat_natCast, Int.toNat_natCast] at ha
  exact ha.trans ((congrArg (CallResult.bind · _) (ncdbDecodeVarints_eq hs)).trans (bind_read _ _ _))

theorem accel_raised {data : List UInt8} {count offset : Int} (hc : count ≠ 0)
    (hr : Refused count offset) : AccelKernel.decodeVarints data count offset = .raised := by
  have hr' : count < 0 ∨ 2 ^ 60 ≤ count ∨ offset < 0 ∨ 2 ^ 64 ≤ offset := hr
  rw [AccelKernel.decodeVarints, if_neg hc, if_pos hr']

theorem accel_undefined {data : List UInt8} {count offset : Int} (hc : count ≠ 0)
    (hr : ¬Refused count offset)
    (hs : ¬EachVarint (·.length ≤ 10) count.toNat (data.drop offset.toNat)) :
    AccelKernel.decodeVarints data count offset = .undefined := by
  rw [accel_accepted data hc hr, ncdbDecodeVarints_undefined hs]
  rfl

-- What is read is the same if no number has more than 64 bits and the end is below 2^31.
theorem read_eq_iff (vs : List Nat) (newOff : Nat) :
    CallResult.value (vs, (newOff : Int)) =
      (if int32 newOff < 0 then .raised else .value (vs.map (fun v => (UInt64.ofNat v).toNat), int32 newOff)) ↔
      (∀ v ∈ vs, v < 2 ^ 64) ∧ newOff < 2 ^ 31 := by
  have hmap : vs = vs.map (fun v => (UInt64.ofNat v).toNat) ↔ ∀ v ∈ vs, v < 2 ^ 64 := by
    have hi : vs.map (fun v => (UInt64.ofNat v).toNat) = vs.map id ↔
        ∀ v ∈ vs, (UInt64.ofNat v).toNat = id v := List.map_inj_left
    rw [List.map_id] at hi
    rw [eq_comm, hi]
    refine forall₂_congr fun v _ => ?_
    rw [UInt64.toNat_ofNat']
    exact Nat.mod_eq_iff_lt (by decide)
  rw [← hmap, ← int32_eq_iff]
  split
  case isTrue hz => exact iff_of_false nofun fun h => by omega
  case isFalse =>
    rw [CallResult.value.injEq, Prod.mk.injEq]
    exact and_congr_right' eq_comm

-- The kernels read the same if the arguments are refused and the bytes are too few for them anyway,
-- or if no number has more than ten bytes and, where there are as many as are to be read, none has
-- more than 64 bits and the end is below 2^31.
theorem decodeVarints_agree_iff (data : List UInt8) (count offset : Int) :
    PureKernel.decodeVarints data count offset = AccelKernel.decodeVarints data count offset ↔
      count = 0 ∨ 0 < count ∧
        if Refused count offset then
          TooFew data count offset
        else
          EachVarint (·.length ≤ 10) count.toNat (data.drop offset.toNat) ∧
            (TooFew data count offset ∨
              EachVarint (fun v => ∀ b ∈ v[9]?, b.toNat < 2) count.toNat (data.drop offset.toNat) ∧
              offset + varintsSpan count.toNat (data.drop offset.toNat) < 2 ^ 31) := by
  rcases Int.lt_trichotomy count 0 with hc | hc | hc
  case inl =>
    have hz : count.toNat = 0 := by omega
    rw [accel_raised (by omega) (.inl hc), PureKernel.decodeVarints, hz]
    exact iff_of_false nofun (by omega)
  case inr.inl =>
    subst hc
    refine iff_of_true ?_ (.inl rfl)
    change CallResult.value _ = CallResult.value _
    rw [Int.sub_self, Int.add_zero]
  case inr.inr =>
    have hne : count ≠ 0 := by omega
    rw [or_iff_right hne, and_iff_right hc]
    by_cases hr : Refused count offset
    case pos => rw [accel_raised hne hr, pure_raised_iff (by omega), if_pos hr]
    case neg =>
      rw [if_neg hr]
      have hr' : ¬(count < 0 ∨ 2 ^ 60 ≤ count ∨ offset < 0 ∨ 2 ^ 64 ≤ offset) := hr
      obtain ⟨offset, rfl⟩ := Int.eq_ofNat_of_zero_le (show 0 ≤ offset by omega)
      obtain ⟨count, rfl⟩ := Int.eq_ofNat_of_zero_le (show 0 ≤ count by omega)
      rw [Int.toNat_natCast, Int.toNat_natCast]
      by_cases hs : EachVarint (·.length ≤ 10) count (data.drop offset)
      case neg =>
        rw [accel_undefined hne hr hs]
        refine iff_of_false (fun h => ?_) fun h => hs h.left
        rw [PureKernel.decodeVarints] at h
        split at h <;> cases h
      case pos =>
        have hidx : PureKernel.indexedFrom data offset = data.drop offset :=
          if_pos (Int.natCast_nonneg offset)
        have hfew : TooFew data count offset ↔ decodeMany decodeVarint count (data.drop offset) = none := by
          rw [decodeMany_eq_none_iff, TooFew, hidx]
          omega
        rw [and_iff_right hs, accel_decodeVarints (by omega) hr hs, PureKernel.decodeVarints, hidx,
          Int.toNat_natCast, hfew]
        cases hd : decodeMany decodeVarint count (data.drop offset)
        case none => exact iff_of_true rfl (.inl rfl)
        case some r =>
          have ⟨vs, rest⟩ := r
          have hlen := decodeMany_rest hd
          have hle : offset ≤ data.length := by
            by_contra hgt
            rw [List.drop_eq_nil_of_le (by omega), (decodeMany_eq_none_iff ..).mpr (by simp; omega)] at hd
            cases hd
          rw [List.length_drop] at hlen
          have hend : data.length - rest.length = offset + varintsSpan count (data.drop offset) := by omega
          have hpure : (offset : Int) + ((data.drop offset).length - rest.length) =
              (offset + varintsSpan count (data.drop offset) : Nat) := by
            rw [List.length_drop]
            omega
          rw [or_iff_right nofun, ← values_lt_iff hs hd]
          simp only [hend, hpure]
          rw [read_eq_iff]
          exact and_congr_right' (by omega)

-- Adding.

theorem zipWith_congr_iff {α β : Type} (f g : α → α → β) {a b : List α} :
    List.zipWith f a b = List.zipWith g a b ↔ ∀ x ∈ List.zip a b, f x.fst x.snd = g x.fst x.snd := by
  rw [← List.map_uncurry_zip_eq_zipWith, ← List.map_uncurry_zip_eq_zipWith]
  exact List.map_inj_left

-- Two words give their sum if the sum is a word.
theorem word_sum_iff {x y : Int} (hx : 0 ≤ x ∧ x < 2 ^ 32) (hy : 0 ≤ y ∧ y < 2 ^ 32) :
    x + y = ((UInt32.ofNat x.toNat + UInt32.ofNat y.toNat).toNat : Int) ↔ x + y < 2 ^ 32 := by
  have hw {v : Int} (hv : 0 ≤ v ∧ v < 2 ^ 32) : (UInt32.ofNat v.toNat).toNat = v.toNat :=
    UInt32.toNat_ofNat_of_lt' (by rw [UInt32.size]; omega)
  rw [UInt32.toNat_add, hw hx, hw hy]
  omega

-- The kernels add the same if all numbers are words, the second array is as long as the first one,
-- and all sums are words.
theorem addUint32Arrays_agree_iff (a b : List Int) :
    PureKernel.addUint32Arrays a b = AccelKernel.addUint32Arrays a b ↔
      (∀ v ∈ a ++ b, 0 ≤ v ∧ v < 2 ^ 32) ∧ a.length ≤ b.length ∧
        ∀ x ∈ List.zip a b, x.fst + x.snd < 2 ^ 32 := by
  rw [PureKernel.addUint32Arrays, AccelKernel.addUint32Arrays]
  split
  case isTrue h =>
    have ⟨v, hm, hv⟩ := List.any_eq_true.mp h
    have hv := of_decide_eq_true hv
    refine iff_of_false nofun fun hw => ?_
    have hw := hw.left v hm
    omega
  case isFalse h =>
    have hw : ∀ v ∈ a ++ b, 0 ≤ v ∧ v < 2 ^ 32 := by
      intro v hm
      by_contra hv
      exact h (List.any_eq_true.mpr ⟨v, hm, decide_eq_true (by omega)⟩)
    rw [and_iff_right hw]
    split
    case isTrue hl => exact iff_of_false nofun fun h => absurd h.left (Nat.not_le_of_lt hl)
    case isFalse hl =>
      rw [and_iff_right (Nat.le_of_not_lt hl), CallResult.value.injEq, zipWith_congr_iff]
      refine forall₂_congr fun x hx => ?_
      have ⟨ha, hb⟩ := List.of_mem_zip hx
      exact word_sum_iff (hw _ (List.mem_append_left b ha)) (hw _ (List.mem_append_right a hb))

theorem kernels_agree_iff (values : List Int) (data : List UInt8) (count offset : Int)
    (a b : List Int) :
    (PureKernel.encodeVarints values = AccelKernel.encodeVarints values ↔
      (∃ v ∈ values, v < 0) ∨
      (∀ v ∈ values, v < 2 ^ 64) ∧ (values.map fun v => varintWidth v.toNat).sum < 2 ^ 31) ∧
    (PureKernel.decodeVarints data count offset = AccelKernel.decodeVarints data count offset ↔
      count = 0 ∨ 0 < count ∧
        if Refused count offset then
          TooFew data count offset
        else
          EachVarint (·.length ≤ 10) count.toNat (data.drop offset.toNat) ∧
            (TooFew data count offset ∨
              EachVarint (fun v => ∀ b ∈ v[9]?, b.toNat < 2) count.toNat (data.drop offset.toNat) ∧
              offset + varintsSpan count.toNat (data.drop offset.toNat) < 2 ^ 31)) ∧
    (PureKernel.addUint32Arrays a b = AccelKernel.addUint32Arrays a b ↔
      (∀ v ∈ a ++ b, 0 ≤ v ∧ v < 2 ^ 32) ∧ a.length ≤ b.length ∧
        ∀ x ∈ List.zip a b, x.fst + x.snd < 2 ^ 32) :=
  ⟨encodeVarints_agree_iff values, decodeVarints_agree_iff data count offset,
    addUint32Arrays_agree_iff a b⟩

-- Two counts whose sum has more than 32 bits are added to less than either of them.
theorem counts_wrap :
    PureKernel.addUint32Arrays [2 ^ 31] [2 ^ 31 + 1] = .value [2 ^ 32 + 1] ∧
    AccelKernel.addUint32Arrays [2 ^ 31] [2 ^ 31 + 1] = .value [1] := by
  decide
