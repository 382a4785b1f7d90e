import Covsight.Lib.BoundedReader
import Covsight.Lib.Varint
import Mathlib.Data.Nat.Bitwise
import Mathlib.Tactic.Ring

-- What a decoder gives on the encoding of a value, wherever that stands in the buffer and whether or
-- not sums wrap around. Encodings are put together as the decoders are.

namespace Reading

-- Bytes that are next in the buffer.
structure HasNext (r : Reading) (c : Cursor) (bytes : List UInt8) : Prop where
  le_size : c.off ≤ r.buffer.size
  next    : bytes <+: r.buffer.bytes.drop c.off

theorem HasNext.length_le {r : Reading} {c : Cursor} {bytes : List UInt8} (h : r.HasNext c bytes) :
    c.off + bytes.length ≤ r.buffer.size := by
  have hl := h.next.length_le
  have hs := h.le_size
  rw [List.length_drop] at hl
  rw [ByteBuffer.size] at hs ⊢
  omega

theorem HasNext.left {r : Reading} {c : Cursor} {bytes bytes' : List UInt8}
    (h : r.HasNext c (bytes ++ bytes')) : r.HasNext c bytes :=
  ⟨h.le_size, (List.prefix_append ..).trans h.next⟩

theorem HasNext.right {r : Reading} {c c' : Cursor} {bytes bytes' : List UInt8}
    (h : r.HasNext c (bytes ++ bytes')) (hc : c'.off = c.off + bytes.length) : r.HasNext c' bytes' := by
  have hl := h.length_le
  rw [List.length_append] at hl
  refine ⟨by omega, ?_⟩
  have ⟨rest, he⟩ := h.next
  rw [hc, ← List.drop_drop, ← he, List.append_assoc, List.drop_left]
  exact List.prefix_append ..

theorem add_of_hasNext {r : Reading} {c : Cursor} {bytes : List UInt8} (h : r.HasNext c bytes) :
    r.add c.off bytes.length = c.off + bytes.length := by
  have hl := h.length_le
  have hs : r.buffer.size < 2 ^ 63 := r.buffer.small
  rw [add]
  split
  case isTrue => exact Nat.mod_eq_of_lt (by omega)
  case isFalse => rfl

end Reading

namespace Decoder

variable {α β : Type} {d : Decoder α} {f : α → Decoder β} {a : α} {b : β} {bytes bytes' : List UInt8}

-- Requests for memory are granted.
def Reads (d : Decoder α) (bytes : List UInt8) (a : α) : Prop :=
  ∀ r c, (∀ n, r.malloc n) → r.HasNext c bytes →
    ∃ c', d r c = (.done a, c') ∧ c'.off = c.off + bytes.length

theorem reads_pure (a : α) : Reads (pure a) [] a :=
  fun _ c _ _ => ⟨c, rfl, rfl⟩

theorem reads_check {b : Bool} (h : b = true) : Reads (check b) [] () :=
  fun _ c _ _ => ⟨c, by rw [check, if_pos h], rfl⟩

theorem Reads.bind (hd : d.Reads bytes a) (hf : (f a).Reads bytes' b) :
    (d >>= f).Reads (bytes ++ bytes') b := by
  intro r c hm hn
  have ⟨c₁, h₁, ho₁⟩ := hd r c hm hn.left
  have ⟨c₂, h₂, ho₂⟩ := hf r c₁ hm (hn.right ho₁)
  refine ⟨c₂, (bind_of_done h₁).trans h₂, ?_⟩
  rw [ho₂, ho₁, List.length_append, Nat.add_assoc]

theorem Reads.bind_pure (hd : d.Reads bytes a) (hf : (f a).Reads [] b) : (d >>= f).Reads bytes b :=
  List.append_nil bytes ▸ hd.bind hf

theorem Reads.map (g : α → β) (hd : d.Reads bytes a) : (do return g (← d) : Decoder β).Reads bytes (g a) :=
  hd.bind_pure (reads_pure (g a))

theorem reads_take (bytes : List UInt8) : (take bytes.length).Reads bytes bytes := by
  intro r c _ hn
  refine ⟨c.moveTo (c.off + bytes.length), ?_, rfl⟩
  rw [take, if_pos hn.length_le]
  obtain ⟨rest, he⟩ := hn.next
  rw [← he, List.take_left]

theorem reads_bytesIf {b : Bool} (h : b = true) (bytes : List UInt8) :
    (bytesIf b bytes.length).Reads bytes bytes := by
  intro r c hm hn
  have hc : ¬(r.buffer.size < r.add c.off bytes.length ∨ ¬b) := by
    rw [Reading.add_of_hasNext hn]
    exact not_or.mpr ⟨Nat.not_lt_of_le hn.length_le, not_not_intro h⟩
  rw [bytesIf, if_neg hc]
  exact reads_take bytes r c hm hn

theorem reads_byteIf {b : Bool} (h : b = true) (byte : UInt8) : (byteIf b).Reads [byte] byte :=
  (reads_bytesIf h [byte]).map (fun bytes : List UInt8 => bytes.headD 0)

theorem reads_byte (b : UInt8) : byte.Reads [b] b :=
  reads_byteIf rfl b

theorem reads_littleEndian (bytes : List UInt8) :
    (littleEndian bytes.length).Reads bytes (bytes.foldr (fun b n => 256 * n + b.toUInt64) 0) :=
  (reads_bytesIf rfl bytes).map _

-- A number of some width is put together again.
theorem foldr_encodeLe {width n : Nat} (h : n < 256 ^ width) :
    (encodeLe width n).foldr (fun b n => 256 * n + b.toUInt64) 0 = UInt64.ofNat n := by
  induction width generalizing n
  case zero =>
    obtain rfl : n = 0 := by simpa using h
    rfl
  case succ width hi =>
    have hd : n / 256 < 256 ^ width := by
      rw [Nat.pow_succ] at h
      omega
    rw [encodeLe, List.foldr_cons, hi hd]
    refine UInt64.toNat_inj.mp ?_
    simp only [UInt64.toNat_add, UInt64.toNat_mul, UInt64.toNat_ofNat', UInt8.toNat_toUInt64]
    have hb : n.toUInt8.toNat = n % 256 := by simp
    rw [hb]
    have h256 : (256 : UInt64).toNat = 256 := rfl
    rw [h256]
    omega

-- Numbers of any length.

theorem and_127 (b : UInt8) : (b &&& 0x7F).toUInt64.toNat = b.toNat % 128 := by
  rw [UInt8.toNat_toUInt64, UInt8.toNat_and]
  exact Nat.and_two_pow_sub_one_eq_mod b.toNat 7

theorem and_128 (b : UInt8) : b &&& 0x80 = 0 ↔ b.toNat < 128 := by
  have hb := b.toNat_lt
  have ha : (b &&& 0x80).toNat = (b.toNat.testBit 7).toNat * 2 ^ 7 := by
    rw [UInt8.toNat_and]
    exact Nat.and_two_pow b.toNat 7
  rw [← UInt8.toNat_inj, ha, Nat.testBit_eq_decide_div_mod_eq]
  by_cases hd : b.toNat / 2 ^ 7 % 2 = 1
  case pos =>
    simp only [hd, decide_true, Bool.toNat_true]
    exact ⟨nofun, fun h => by omega⟩
  case neg =>
    simp only [hd, decide_false, Bool.toNat_false]
    exact ⟨fun _ => by omega, fun _ => rfl⟩

-- The bits of a number are put on top of those that are there.
theorem toNat_or_shiftLeft {value n : UInt64} {k : Nat} (hk : k < 64) (hv : value.toNat < 2 ^ k)
    (hn : n.toNat * 2 ^ k < 2 ^ 64) :
    (value ||| n <<< UInt64.ofNat k).toNat = value.toNat + n.toNat * 2 ^ k := by
  have hs : (UInt64.ofNat k).toNat = k :=
    UInt64.toNat_ofNat_of_lt' (Nat.lt_trans hk (by decide))
  rw [UInt64.toNat_or, UInt64.toNat_shiftLeft, hs, Nat.mod_eq_of_lt hk, Nat.shiftLeft_eq,
    Nat.mod_eq_of_lt hn, Nat.or_comm, Nat.mul_comm, ← Nat.two_pow_add_eq_or_of_lt hv, Nat.add_comm]

-- The last byte of a number.
theorem reads_varint_last {limit k n : Nat} (hs : n < 128) {value : UInt64} (hv : value.toNat < 2 ^ k)
    (hn : n * 2 ^ k < 2 ^ 64) (hk : k < 64) :
    (varintFrom (limit + 1) (UInt64.ofNat k) value).Reads [n.toUInt8]
      (UInt64.ofNat (value.toNat + n * 2 ^ k)) := by
  have hb : n.toUInt8.toNat = n := toNat_toUInt8 (by omega)
  have hm : (n.toUInt8 &&& 0x7F).toUInt64.toNat = n := by rw [and_127, hb, Nat.mod_eq_of_lt hs]
  have ho := toNat_or_shiftLeft hk hv (hm.symm ▸ hn)
  refine (reads_byte n.toUInt8).bind_pure ?_
  rw [if_pos ((and_128 _).mpr (hb.symm ▸ hs)), ← hm, ← ho, hm, UInt64.ofNat_toNat]
  exact reads_pure _

-- The bytes of a number below some power are no more than its exponent.
theorem reads_varintFrom {fuel n : Nat} (limit k : Nat) (value : UInt64) (hf : n ≤ fuel)
    (hl : n < 128 ^ (limit + 1)) (hv : value.toNat < 2 ^ k) (hn : n * 2 ^ k < 2 ^ 64) (hk : k < 64) :
    (varintFrom (limit + 1) (UInt64.ofNat k) value).Reads (varintBytes fuel n)
      (UInt64.ofNat (value.toNat + n * 2 ^ k)) := by
  induction fuel generalizing n limit k value
  case zero =>
    obtain rfl := Nat.le_zero.mp hf
    exact reads_varint_last (by omega) hv hn hk
  case succ fuel hi =>
    rw [varintBytes]
    split
    case isTrue hs => exact reads_varint_last hs hv hn hk
    case isFalse hs =>
      have hb : (n % 128 + 128).toUInt8.toNat = n % 128 + 128 := toNat_toUInt8 (by omega)
      have hm : ((n % 128 + 128).toUInt8 &&& 0x7F).toUInt64.toNat = n % 128 := by
        rw [and_127, hb]
        omega
      have hle : n % 128 * 2 ^ k ≤ n * 2 ^ k := Nat.mul_le_mul_right _ (Nat.mod_le ..)
      have ho := toNat_or_shiftLeft hk hv (hm.symm ▸ Nat.lt_of_le_of_lt hle hn)
      rw [hm] at ho
      have hpow : 2 ^ (k + 7) = 2 ^ k * 128 := Nat.pow_add ..
      have hsplit : n * 2 ^ k = n % 128 * 2 ^ k + n / 128 * 2 ^ (k + 7) := by
        calc n * 2 ^ k = (n % 128 + 128 * (n / 128)) * 2 ^ k := by rw [Nat.mod_add_div]
          _ = n % 128 * 2 ^ k + n / 128 * 2 ^ (k + 7) := by rw [hpow]; ring
      have hmod : n % 128 * 2 ^ k ≤ 127 * 2 ^ k := Nat.mul_le_mul_right _ (by omega)
      have hd : 1 * 2 ^ (k + 7) ≤ n / 128 * 2 ^ (k + 7) := Nat.mul_le_mul_right _ (by omega)
      have hk' : k + 7 < 64 := (Nat.pow_lt_pow_iff_right (a := 2) (by omega)).mp (by omega)
      have hl' : n / 128 < 128 ^ limit := by
        rw [Nat.pow_succ] at hl
        exact Nat.div_lt_of_lt_mul (Nat.mul_comm .. ▸ hl)
      obtain ⟨limit, rfl⟩ : ∃ l, limit = l + 1 := by
        refine Nat.exists_eq_add_one_of_ne_zero fun hz => ?_
        rw [hz] at hl'
        omega
      have hrest := hi limit (k + 7) _ (by omega) hl' (by rw [ho, hpow]; omega) (by omega) hk'
      have hshift : UInt64.ofNat k + 7 = UInt64.ofNat (k + 7) := (UInt64.ofNat_add ..).symm
      have hn128 : ¬(n % 128 + 128).toUInt8 &&& 0x80 = 0 := by
        rw [and_128, hb]
        omega
      rw [hsplit, ← Nat.add_assoc, ← ho]
      refine (reads_byte _).bind ?_
      rw [if_neg hn128, hshift]
      exact hrest

theorem reads_varint (n : UInt64) : varint.Reads (encodeVarint n.toNat) n := by
  have h := reads_varintFrom 9 0 0 (Nat.le_refl n.toNat)
    (Nat.lt_trans n.toNat_lt (by decide)) (by decide) (by simpa using n.toNat_lt) (by decide)
  change (varintFrom 10 0 0).Reads (varintBytes n.toNat n.toNat) n
  simpa using h

theorem reads_copyOf (bytes : List UInt8) :
    (copyOf (UInt64.ofNat bytes.length)).Reads bytes bytes := by
  intro r c hm hn
  have hs : r.buffer.size < 2 ^ 63 := r.buffer.small
  have hl := hn.length_le
  have hlen : (UInt64.ofNat bytes.length).toNat = bytes.length :=
    UInt64.toNat_ofNat_of_lt' (by change _ < 2 ^ 64; omega)
  have hc : ¬(r.buffer.size < r.add c.off (UInt64.ofNat bytes.length).toNat ∨
      ¬r.malloc (UInt64.ofNat bytes.length + 1)) := by
    rw [hlen, Reading.add_of_hasNext hn]
    exact not_or.mpr ⟨Nat.not_lt_of_le hl, not_not_intro (hm _)⟩
  rw [copyOf_eq, if_neg hc, hlen]
  exact reads_take bytes r _ hm ⟨hn.le_size, hn.next⟩

-- A string is stored after its length.
theorem reads_copy (bytes : List UInt8) (h : bytes.length < 2 ^ 64) :
    copy.Reads (encodeVarint bytes.length ++ bytes) bytes := by
  have hv := reads_varint (UInt64.ofNat bytes.length)
  rw [UInt64.toNat_ofNat_of_lt' h] at hv
  exact hv.bind (reads_copyOf bytes)

theorem Reads.record (h : d.Reads bytes a) : (record d).Reads bytes a := by
  intro r c hm hn
  have ⟨c', hd, ho⟩ := h r c hm hn
  exact ⟨{ c' with records := c'.records + 1 }, by rw [Decoder.record, hd], ho⟩

-- Each record changes what has been read so far.
theorem reads_recordsFrom {γ : Type} {body : Nat → α → Decoder α} {encode : γ → List UInt8}
    {step : α → γ → α} {xs : List γ} (h : ∀ x ∈ xs, ∀ i a, (body i a).Reads (encode x) (step a x))
    (i : Nat) (a : α) : (recordsFrom body xs.length i a).Reads (xs.flatMap encode) (xs.foldl step a) := by
  induction xs generalizing i a
  case nil => exact reads_pure a
  case cons x xs hi =>
    rw [List.forall_mem_cons] at h
    exact (h.left i a).record.bind (hi h.right (i + 1) (step a x))

theorem reads_records {γ : Type} {body : Nat → α → Decoder α} {encode : γ → List UInt8}
    {step : α → γ → α} {xs : List γ} (hl : xs.length < 2 ^ 64)
    (h : ∀ x ∈ xs, ∀ i a, (body i a).Reads (encode x) (step a x)) (a : α) :
    (records (UInt64.ofNat xs.length) a body).Reads (xs.flatMap encode) (xs.foldl step a) := by
  rw [records, UInt64.toNat_ofNat_of_lt' hl]
  exact reads_recordsFrom h 0 a

-- What is stored in a buffer is not too large for the address space.
theorem Reads.of_small (h : bytes.length < 2 ^ 63 → d.Reads bytes a) : d.Reads bytes a := by
  intro r c hm hn
  have hl := hn.length_le
  have hs : r.buffer.size < 2 ^ 63 := r.buffer.small
  exact h (by omega) r c hm hn

theorem reads_lengthPrefixed (bytes : List UInt8) : copy.Reads (encodeVarint bytes.length ++ bytes) bytes :=
  .of_small fun h => reads_copy bytes (by rw [List.length_append] at h; omega)

-- Records after their number, each of at least one byte.
theorem reads_counted {γ : Type} {body : Nat → α → Decoder α} {encode : γ → List UInt8} {step : α → γ → α}
    {xs : List γ} (hne : ∀ x ∈ xs, encode x ≠ [])
    (h : ∀ x ∈ xs, ∀ i a, (body i a).Reads (encode x) (step a x)) (a : α) :
    (do let n ← varint; records n a body : Decoder α).Reads (encodeVarint xs.length ++ xs.flatMap encode)
      (xs.foldl step a) := by
  refine .of_small fun hs => ?_
  have hl := length_le_flatMap hne
  rw [List.length_append] at hs
  have hn : xs.length < 2 ^ 64 := by omega
  have hv := reads_varint (UInt64.ofNat xs.length)
  rw [UInt64.toNat_ofNat_of_lt' hn] at hv
  exact hv.bind (reads_records hn h a)

theorem reads_opening (mark bytes : List UInt8) :
    (opening mark bytes.length).Reads (mark ++ bytes) (some bytes) := by
  intro r c hm hn
  have hl := hn.length_le
  rw [List.length_append] at hl
  have ⟨rest, he⟩ := hn.next
  have hc : ¬(r.buffer.size < c.off + (mark.length + bytes.length) ∨
      (r.buffer.bytes.drop c.off).take mark.length ≠ mark) := by
    rw [← he, List.append_assoc, List.take_left]
    exact not_or.mpr ⟨Nat.not_lt_of_le hl, not_not_intro rfl⟩
  rw [opening, if_neg hc, ← List.length_append]
  have h := (reads_take (mark ++ bytes)).map fun bs => some (bs.drop mark.length)
  rw [List.drop_left] at h
  exact h r c hm hn

end Decoder
