import Covsight.Lib.Sha256
import Covsight.Lib.Varint
import Mathlib.Data.List.GetD

-- The schema hash of the C library, and the one of `Manifest` in Python.

open Sha256 (Block Digest bigEndian)

-- Eight words: `state[0]` to `state[7]`, and the variables of the transform.
structure Words8 where
  (a b c d e f g h : UInt32)

structure Sha256Ctx where
  data    : List UInt8
  datalen : Nat
  bitlen  : UInt64
  state   : Words8

def k256 : List UInt32 :=
  [0x428a2f98, 0x71374491, 0xb5c0fbcf, 0xe9b5dba5, 0x3956c25b, 0x59f111f1, 0x923f82a4, 0xab1c5ed5,
   0xd807aa98, 0x12835b01, 0x243185be, 0x550c7dc3, 0x72be5d74, 0x80deb1fe, 0x9bdc06a7, 0xc19bf174,
   0xe49b69c1, 0xefbe4786, 0x0fc19dc6, 0x240ca1cc, 0x2de92c6f, 0x4a7484aa, 0x5cb0a9dc, 0x76f988da,
   0x983e5152, 0xa831c66d, 0xb00327c8, 0xbf597fc7, 0xc6e00bf3, 0xd5a79147, 0x06ca6351, 0x14292967,
   0x27b70a85, 0x2e1b2138, 0x4d2c6dfc, 0x53380d13, 0x650a7354, 0x766a0abb, 0x81c2c92e, 0x92722c85,
   0xa2bfe8a1, 0xa81a664b, 0xc24b8b70, 0xc76c51a3, 0xd192e819, 0xd6990624, 0xf40e3585, 0x106aa070,
   0x19a4c116, 0x1e376c08, 0x2748774c, 0x34b0bcb5, 0x391c0cb3, 0x4ed8aa4a, 0x5b9cca4f, 0x682e6ff3,
   0x748f82ee, 0x78a5636f, 0x84c87814, 0x8cc70208, 0x90befffa, 0xa4506ceb, 0xbef9a3f7, 0xc67178f2]

def rotr (a b : UInt32) : UInt32 :=
  a >>> b ||| a <<< (32 - b)

namespace Sha256Ctx

-- The first loop of the transform, which fills `m[0]` to `m[15]`.
def loadWord (data : List UInt8) (i : Nat) : UInt32 :=
  let j := 4 * i
  (data.getD j 0).toUInt32 <<< 24 ||| (data.getD (j + 1) 0).toUInt32 <<< 16 |||
    (data.getD (j + 2) 0).toUInt32 <<< 8 ||| (data.getD (j + 3) 0).toUInt32

-- The second, for `i` the number of words that there are.
def nextWord (m : List UInt32) : UInt32 :=
  let i  := m.length
  let s0 := rotr (m.getD (i - 15) 0) 7 ^^^ rotr (m.getD (i - 15) 0) 18 ^^^ m.getD (i - 15) 0 >>> 3
  let s1 := rotr (m.getD (i - 2) 0) 17 ^^^ rotr (m.getD (i - 2) 0) 19 ^^^ m.getD (i - 2) 0 >>> 10
  m.getD (i - 16) 0 + s0 + m.getD (i - 7) 0 + s1

def extend (m : List UInt32) : (steps : Nat) → List UInt32
  | 0         => m
  | steps + 1 => extend (m ++ [nextWord m]) steps

def words (data : List UInt8) : List UInt32 :=
  extend ((List.range 16).map (loadWord data)) 48

def step (m : List UInt32) (v : Words8) (i : Nat) : Words8 :=
  let s1  := rotr v.e 6 ^^^ rotr v.e 11 ^^^ rotr v.e 25
  let ch  := (v.e &&& v.f) ^^^ (~~~v.e &&& v.g)
  let t1  := v.h + s1 + ch + k256.getD i 0 + m.getD i 0
  let s0  := rotr v.a 2 ^^^ rotr v.a 13 ^^^ rotr v.a 22
  let maj := (v.a &&& v.b) ^^^ (v.a &&& v.c) ^^^ (v.b &&& v.c)
  let t2  := s0 + maj
  { h := v.g, g := v.f, f := v.e, e := v.d + t1, d := v.c, c := v.b, b := v.a, a := t1 + t2 }

def transform (ctx : Sha256Ctx) : Sha256Ctx :=
  let m := words ctx.data
  let s := ctx.state
  let v := (List.range 64).foldl (step m) s
  { ctx with
    state :=
      { a := s.a + v.a, b := s.b + v.b, c := s.c + v.c, d := s.d + v.d
        e := s.e + v.e, f := s.f + v.f, g := s.g + v.g, h := s.h + v.h } }

-- The buffer keeps whatever was in its memory.
def init (memory : Vector UInt8 64) : Sha256Ctx where
  data    := memory.toList
  datalen := 0
  bitlen  := 0
  state   :=
    { a := 0x6a09e667, b := 0xbb67ae85, c := 0x3c6ef372, d := 0xa54ff53a
      e := 0x510e527f, f := 0x9b05688c, g := 0x1f83d9ab, h := 0x5be0cd19 }

def updateByte (ctx : Sha256Ctx) (byte : UInt8) : Sha256Ctx :=
  let ctx := { ctx with data := ctx.data.set ctx.datalen byte, datalen := ctx.datalen + 1 }
  if ctx.datalen = 64 then
    { ctx.transform with bitlen := ctx.bitlen + 512, datalen := 0 }
  else
    ctx

def update (ctx : Sha256Ctx) (data : List UInt8) : Sha256Ctx :=
  data.foldl updateByte ctx

-- `while (i < end) data[i++] = 0`.
def fill (data : List UInt8) (i : Nat) : (count : Nat) → List UInt8
  | 0         => data
  | count + 1 => fill (data.set i 0) (i + 1) count

-- The eight assignments to `data[56]` to `data[63]`, of which the shifts are 56 to 0.
def setLength (data : List UInt8) (bitlen : UInt64) : List UInt8 :=
  (List.range 8).foldl (fun data i => data.set (63 - i) (bitlen >>> UInt64.ofNat (8 * i)).toUInt8) data

-- The first half of `sha256_final`, up to the length.
def pad (ctx : Sha256Ctx) : Sha256Ctx :=
  let i := ctx.datalen
  if ctx.datalen < 56 then
    { ctx with data := fill (ctx.data.set i 0x80) (i + 1) (56 - (i + 1)) }
  else
    let ctx := { ctx with data := fill (ctx.data.set i 0x80) (i + 1) (64 - (i + 1)) }
    let ctx := ctx.transform
    { ctx with data := fill ctx.data 0 56 }

-- Byte `i` of each word is `hash[i]`, `hash[i + 4]` and so on.
def hashBytes (s : Words8) : List UInt8 :=
  [s.a, s.b, s.c, s.d, s.e, s.f, s.g, s.h].flatMap fun word =>
    (List.range 4).map fun i => (word >>> UInt32.ofNat (24 - i * 8) &&& 0xFF).toUInt8

def final (ctx : Sha256Ctx) : List UInt8 :=
  let ctx    := ctx.pad
  let bitlen := ctx.bitlen + UInt64.ofNat ctx.datalen * 8
  let ctx    := { ctx with bitlen := bitlen, data := setLength ctx.data bitlen }
  hashBytes ctx.transform.state

end Sha256Ctx

def hexChar (n : UInt8) : Char :=
  "0123456789abcdef".toList.getD n.toNat '0'

-- The text up to its null byte, for the memory that the context happens to lie in.
def schemaHash (memory : Vector UInt8 64) (data : List UInt8) : String :=
  let hash := (Sha256Ctx.init memory |>.update data).final
  String.ofList <| "sha256:".toList ++
    hash.flatMap fun byte : UInt8 => [hexChar (byte >>> 4 &&& 0xF), hexChar (byte &&& 0xF)]

-- In Python. `hexdigest` is the lower-case hex of the digest.

def hexdigest (bytes : List UInt8) : List Char :=
  bytes.flatMap fun byte => [(byte.toNat / 16).digitChar, (byte.toNat % 16).digitChar]

def schemaHashV2Tag : List UInt8 :=
  "ncdb-schema-v2".toUTF8.toList ++ [0]

def computeSchemaHash (scopeTree : List UInt8) : (strings : Option (List UInt8)) → String
  | none         => String.ofList ("sha256:".toList ++ hexdigest (Sha256.hash scopeTree))
  | some strings =>
    let data :=
      schemaHashV2Tag ++ encodeVarint scopeTree.length ++ scopeTree ++ encodeVarint strings.length ++ strings
    String.ofList ("sha256v2:".toList ++ hexdigest (Sha256.hash data))

-- The words as the standard's.
def Words8.digest (v : Words8) : Digest where
  a := v.a.toBitVec
  b := v.b.toBitVec
  c := v.c.toBitVec
  d := v.d.toBitVec
  e := v.e.toBitVec
  f := v.f.toBitVec
  g := v.g.toBitVec
  h := v.h.toBitVec

theorem toBitVec_rotr {n : UInt32} (a : UInt32) (h : 0 < n.toNat ∧ n.toNat < 32) :
    (rotr a n).toBitVec = a.toBitVec.rotateRight n.toNat := by
  have hr : n.toBitVec % 32 = BitVec.ofNat 32 n.toNat := by
    rw [← BitVec.toNat_inj]
    simp
    omega
  have hl : (32 - n).toBitVec % 32 = BitVec.ofNat 32 (32 - n.toNat) := by
    rw [← BitVec.toNat_inj]
    simp
    omega
  have hs : (32 - n.toNat) % 4294967296 = 32 - n.toNat := Nat.mod_eq_of_lt (by omega)
  rw [rotr, UInt32.toBitVec_or, UInt32.toBitVec_shiftRight, UInt32.toBitVec_shiftLeft, hr, hl, BitVec.rotateRight_def]
  simp [Nat.mod_eq_of_lt h.right, hs]

theorem shiftLeft_byte (byte : UInt8) {k : Nat} (h : k ≤ 24) :
    byte.toNat <<< k % 4294967296 = byte.toNat <<< k := by
  refine Nat.mod_eq_of_lt ?_
  rw [Nat.shiftLeft_eq]
  have hk : 2 ^ k ≤ 2 ^ 24 := Nat.pow_le_pow_right (by decide) h
  calc byte.toNat * 2 ^ k ≤ 255 * 2 ^ 24 := Nat.mul_le_mul (Nat.le_of_lt_succ byte.toNat_lt) hk
    _ < 4294967296                       := by decide

namespace Sha256Ctx

theorem toBitVec_loadWord (data : List UInt8) (i : Nat) : (loadWord data i).toBitVec = Sha256.wordAt data i := by
  rw [← BitVec.toNat_inj]
  simp only [loadWord, Sha256.wordAt, BitVec.toNat_append]
  simp [Nat.shiftLeft_or_distrib, ← Nat.shiftLeft_add, shiftLeft_byte]

theorem map_k256 : k256.map UInt32.toBitVec = Sha256.constants :=
  rfl

theorem getD_toBitVec (m : List UInt32) (i : Nat) : (m.map UInt32.toBitVec).getD i 0 = (m.getD i 0).toBitVec :=
  List.getD_map m 0 UInt32.toBitVec

theorem toBitVec_nextWord {m : List UInt32} {block : Block}
    (h : m.map UInt32.toBitVec = Sha256.schedule block m.length) (hl : 16 ≤ m.length) :
    (m ++ [nextWord m]).map UInt32.toBitVec = Sha256.schedule block (m.length + 1) := by
  rw [List.map_append, h, Sha256.schedule, if_neg (Nat.not_lt.mpr hl), List.map_singleton]
  congr 2
  rw [← h]
  simp only [getD_toBitVec, Sha256.smallSigma0, Sha256.smallSigma1, nextWord]
  simp [toBitVec_rotr, UInt32.toBitVec_shiftRight]
  ac_rfl

theorem extend_eq {m : List UInt32} {block : Block} (h : m.map UInt32.toBitVec = Sha256.schedule block m.length)
    (hl : 16 ≤ m.length) (steps : Nat) :
    (extend m steps).map UInt32.toBitVec = Sha256.schedule block (m.length + steps) := by
  induction steps generalizing m
  case zero => exact h
  case succ steps hi =>
    have hn := hi (m := m ++ [nextWord m])
    rw [List.length_append, List.length_singleton, Nat.add_right_comm] at hn
    exact hn (toBitVec_nextWord h hl) (Nat.le_succ_of_le hl)

theorem map_loadWord {block : Block} {count : Nat} (h : count ≤ 16) :
    ((List.range count).map (loadWord block)).map UInt32.toBitVec = Sha256.schedule block count := by
  induction count
  case zero => rfl
  case succ t hi =>
    rw [List.range_succ, List.map_append, List.map_append, hi (Nat.le_of_succ_le h), Sha256.schedule,
      if_pos (Nat.lt_of_succ_le h), List.map_singleton, List.map_singleton, toBitVec_loadWord]

theorem words_eq (block : Block) : (words block).map UInt32.toBitVec = Sha256.schedule block 64 := by
  have hl : ((List.range 16).map (loadWord block)).length = 16 := by rw [List.length_map, List.length_range]
  have he := @extend_eq ((List.range 16).map (loadWord block)) block
  rw [hl] at he
  exact he (map_loadWord (Nat.le_refl 16)) (Nat.le_refl 16) 48

theorem digest_step (m : List UInt32) (v : Words8) (i : Nat) :
    (step m v i).digest =
      Sha256.round v.digest (Sha256.constants.getD i 0) ((m.map UInt32.toBitVec).getD i 0) := by
  rw [← map_k256, getD_toBitVec, getD_toBitVec]
  simp [step, Words8.digest, Sha256.round, Sha256.bigSigma0, Sha256.bigSigma1, Sha256.ch, Sha256.maj, toBitVec_rotr]

theorem digest_foldl_step (m : List UInt32) (v : Words8) (count : Nat) :
    ((List.range count).foldl (step m) v).digest = Sha256.worked v.digest (m.map UInt32.toBitVec) count := by
  induction count
  case zero      => rfl
  case succ t hi =>
    rw [List.range_succ, List.foldl_append, List.foldl_cons, List.foldl_nil, digest_step, hi, Sha256.worked]

theorem digest_transform (ctx : Sha256Ctx) :
    ctx.transform.state.digest = Sha256.compress ctx.state.digest ctx.data := by
  rw [Sha256.compress, ← words_eq, ← digest_foldl_step]
  simp [transform, Words8.digest, BitVec.add_comm]

theorem transform_data (ctx : Sha256Ctx) : ctx.transform.data = ctx.data := by
  rw [transform]

theorem fill_eq {data : List UInt8} {i count : Nat} (h : i + count ≤ data.length) :
    fill data i count = data.take i ++ List.replicate count 0 ++ data.drop (i + count) := by
  induction count generalizing data i
  case zero => simp [fill]
  case succ count hi =>
    have hs : i + 1 + count ≤ (data.set i 0).length := by
      rw [List.length_set]
      omega
    have ht : (data.set i 0).take (i + 1) = data.take i ++ [0] := by
      rw [List.take_add_one, List.getElem?_set_self (by omega), List.take_set_of_le (Nat.le_refl i)]
      rfl
    rw [fill, hi hs, ht, List.drop_set_of_lt (by omega), List.replicate_succ]
    simp [Nat.add_assoc, Nat.add_comm 1 count]

theorem length_fill (data : List UInt8) (i count : Nat) : (fill data i count).length = data.length := by
  induction count generalizing data i
  case zero          => rfl
  case succ count hi => rw [fill, hi, List.length_set]

theorem setLength_eq {data : List UInt8} (h : data.length = 64) (bitlen : UInt64) :
    setLength data bitlen = data.take 56 ++ bigEndian 8 bitlen.toNat := by
  have hk : ∀ k ≤ 8,
      (List.range k).foldl (fun data i => data.set (63 - i) (bitlen >>> UInt64.ofNat (8 * i)).toUInt8) data =
        data.take (64 - k) ++ bigEndian k bitlen.toNat := by
    intro k hk
    induction k
    case zero => simp [bigEndian, ← h]
    case succ k hi =>
      have hb : (bitlen >>> UInt64.ofNat (8 * k)).toUInt8 = UInt8.ofNat (bitlen.toNat / 256 ^ k) := by
        have hm : 8 * k % 2 ^ 64 % 64 = 8 * k := by omega
        rw [← UInt8.toNat_inj, UInt64.toNat_toUInt8, UInt64.toNat_shiftRight, UInt64.toNat_ofNat', hm,
          Nat.shiftRight_eq_div_pow, Nat.pow_mul, UInt8.toNat_ofNat']
      have hj : 64 - k = 63 - k + 1 := by omega
      have hj' : 64 - (k + 1) = 63 - k := by omega
      have ht : (data.take (63 - k)).length = 63 - k := by
        rw [List.length_take]
        omega
      rw [List.range_succ, List.foldl_append, hi (Nat.le_of_succ_le hk), List.foldl_cons, List.foldl_nil, hb, bigEndian,
        hj, List.take_add_one, List.getElem?_eq_getElem (by omega), Option.toList_some, List.append_assoc,
        List.set_append_right _ _ (Nat.le_of_eq ht), ht, Nat.sub_self, hj']
      rfl
  exact hk 8 (Nat.le_refl 8)

theorem pad_bitlen (ctx : Sha256Ctx) : ctx.pad.bitlen = ctx.bitlen := by
  rw [pad]
  split
  case isTrue  => rfl
  case isFalse => simp only [transform]

theorem pad_datalen (ctx : Sha256Ctx) : ctx.pad.datalen = ctx.datalen := by
  rw [pad]
  split
  case isTrue  => rfl
  case isFalse => simp only [transform]

-- What the context keeps of the bytes it was given.
structure Absorbing (ctx : Sha256Ctx) (message : List UInt8) : Prop where
  length : ctx.data.length = 64
  short  : ctx.datalen < 64
  held   : ∃ k blocks, blocks.length = 64 * k ∧ message = blocks ++ ctx.data.take ctx.datalen ∧
    ctx.state.digest = Sha256.absorbed Sha256.initial blocks ∧ ctx.bitlen = UInt64.ofNat (512 * k)

theorem init_absorbing (memory : Vector UInt8 64) : Absorbing (init memory) [] where
  length := memory.length_toList
  short  := Nat.zero_lt_succ 63
  held   := ⟨0, [], rfl, rfl, (Sha256.absorbed_nil _).symm, rfl⟩

namespace Absorbing

variable {ctx : Sha256Ctx} {message : List UInt8}

theorem take_set (ha : Absorbing ctx message) (byte : UInt8) :
    (ctx.data.set ctx.datalen byte).take (ctx.datalen + 1) = ctx.data.take ctx.datalen ++ [byte] := by
  rw [List.take_add_one, List.getElem?_set_self (ha.length ▸ ha.short), List.take_set_of_le (Nat.le_refl ctx.datalen)]
  rfl

theorem updateByte (ha : Absorbing ctx message) (byte : UInt8) :
    Absorbing (ctx.updateByte byte) (message ++ [byte]) := by
  have ⟨k, blocks, hb, hm, hs, hl⟩ := ha.held
  have ht := ha.take_set byte
  rw [Sha256Ctx.updateByte]
  split
  case isTrue hd =>
    have hw : ctx.data.set ctx.datalen byte = ctx.data.take ctx.datalen ++ [byte] := by
      rw [← ht, List.take_of_length_le]
      rw [List.length_set, ha.length]
      exact Nat.le_of_eq hd.symm
    refine ⟨?length, Nat.zero_lt_succ 63, k + 1, blocks ++ ctx.data.set ctx.datalen byte, ?blocks, ?message, ?state,
      ?bitlen⟩
    case length  => exact List.length_set.trans ha.length
    case blocks  => rw [List.length_append, hb, List.length_set, ha.length, Nat.mul_succ]
    case message => rw [hm, hw, List.append_assoc, List.take_zero, List.append_nil]
    case state   =>
      rw [Sha256.absorbed_append _ hb, ← hs, Sha256.absorbed_single _ (List.length_set.trans ha.length)]
      exact digest_transform { ctx with data := ctx.data.set ctx.datalen byte, datalen := ctx.datalen + 1 }
    case bitlen => simp [hl, Nat.mul_succ]
  case isFalse hd =>
    refine ⟨List.length_set.trans ha.length, Nat.lt_of_le_of_ne ha.short hd, k, blocks, hb, ?_, hs, hl⟩
    rw [ht, hm, List.append_assoc]

theorem update (ha : Absorbing ctx message) (data : List UInt8) : Absorbing (ctx.update data) (message ++ data) := by
  induction data generalizing ctx message
  case nil               => exact (List.append_nil message).symm ▸ ha
  case cons byte data hi =>
    have hu := hi (ha.updateByte byte)
    rw [List.append_assoc] at hu
    exact hu

-- Both paddings end in the first 56 bytes of the last block.
theorem pad (ha : Absorbing ctx message) :
    ∃ k blocks, blocks.length = 64 * k ∧ ctx.pad.data.length = 64 ∧
      message ++ Sha256.padding message.length =
        blocks ++ (ctx.pad.data.take 56 ++ bigEndian 8 (8 * message.length)) ∧
      ctx.pad.state.digest = Sha256.absorbed Sha256.initial blocks := by
  have ⟨k, blocks, hb, hm, hs, _⟩ := ha.held
  have ht := ha.take_set 0x80
  have hr := ha.short
  have hl := ha.length
  have hn : message.length = 64 * k + ctx.datalen := by
    rw [hm, List.length_append, hb, List.length_take_of_le (by omega)]
  have hf : ∀ z, ctx.datalen + 1 + z ≤ 64 →
      fill (ctx.data.set ctx.datalen 0x80) (ctx.datalen + 1) z =
        ctx.data.take ctx.datalen ++ 0x80 :: List.replicate z 0 ++
          (ctx.data.set ctx.datalen 0x80).drop (ctx.datalen + 1 + z) := by
    intro z hz
    rw [fill_eq (by rwa [List.length_set, hl]), ht, List.append_assoc (ctx.data.take ctx.datalen), List.singleton_append]
  have hw : ∀ z, (ctx.data.take ctx.datalen ++ 0x80 :: List.replicate z 0).length = ctx.datalen + 1 + z := by
    intro z
    rw [List.length_append, List.length_cons, List.length_replicate, List.length_take_of_le (by omega)]
    omega
  rw [Sha256Ctx.pad]
  split
  case isTrue h56 =>
    have hz : Sha256.zeros message.length = 56 - (ctx.datalen + 1) := by
      rw [Sha256.zeros]
      omega
    refine ⟨k, blocks, hb, ?length, ?padding, hs⟩
    case length  => exact (length_fill ..).trans (List.length_set.trans hl)
    case padding =>
      rw [hf _ (by omega), List.take_left' ((hw _).trans (by omega)), Sha256.padding, hz]
      nth_rewrite 1 [hm]
      simp
  case isFalse h56 =>
    have hz : Sha256.zeros message.length = 64 - (ctx.datalen + 1) + 56 := by
      rw [Sha256.zeros]
      omega
    have hd : (ctx.data.set ctx.datalen 0x80).drop (ctx.datalen + 1 + (64 - (ctx.datalen + 1))) = [] := by
      refine List.drop_eq_nil_of_le ?_
      rw [List.length_set]
      omega
    have hf := hf (64 - (ctx.datalen + 1)) (by omega)
    have hl : (fill (ctx.data.set ctx.datalen 0x80) (ctx.datalen + 1) (64 - (ctx.datalen + 1))).length = 64 :=
      (length_fill ..).trans (List.length_set.trans hl)
    rw [hd, List.append_nil] at hf
    generalize fill (ctx.data.set ctx.datalen 0x80) (ctx.datalen + 1) (64 - (ctx.datalen + 1)) = full at hf hl
    dsimp only
    refine ⟨k + 1, blocks ++ full, ?blocks, ?length, ?padding, ?state⟩
    case blocks  => rw [List.length_append, hb, hl, Nat.mul_succ]
    case length  => rw [length_fill, transform_data, hl]
    case padding =>
      have h56 : 0 + 56 ≤ full.length := by omega
      rw [transform_data, fill_eq h56, List.take_zero, List.nil_append, List.take_left' List.length_replicate, hf,
        Sha256.padding, hz, List.replicate_add]
      nth_rewrite 1 [hm]
      simp
    case state =>
      rw [Sha256.absorbed_append _ hb, ← hs, Sha256.absorbed_single _ hl]
      exact digest_transform { ctx with data := full }

end Absorbing

theorem bytes_digest (s : Words8) : hashBytes s = s.digest.bytes := by
  have hw (word : UInt32) :
      ((List.range 4).map fun i => (word >>> UInt32.ofNat (24 - i * 8) &&& 0xFF).toUInt8) =
        bigEndian 4 word.toBitVec.toNat := by
    have hm (n : Nat) : n % 256 &&& 255 = n % 256 := by
      rw [Nat.and_two_pow_sub_one_eq_mod _ 8, Nat.mod_mod]
    simp [List.range_succ, bigEndian, ← UInt8.toNat_inj, Nat.shiftRight_eq_div_pow, hm]
  rw [hashBytes, Sha256.Digest.bytes]
  simp only [hw, List.flatMap_cons, List.flatMap_nil]
  rfl

theorem final_eq {ctx : Sha256Ctx} {message : List UInt8} (ha : Absorbing ctx message) (h : message.length < 2 ^ 61) :
    ctx.final = Sha256.hash message := by
  have ⟨k, blocks, hb, hl, hp, hs⟩ := ha.pad
  have ⟨k', blocks', hb', hm', _, hl'⟩ := ha.held
  have hn : (ctx.pad.bitlen + UInt64.ofNat ctx.pad.datalen * 8).toNat = 8 * message.length := by
    have hr : (ctx.data.take ctx.datalen).length = ctx.datalen :=
      List.length_take_of_le (ha.length ▸ Nat.le_of_lt ha.short)
    have hm := congrArg List.length hm'
    rw [List.length_append, hb', hr] at hm
    rw [pad_bitlen, pad_datalen, hl', UInt64.toNat_add, UInt64.toNat_mul, UInt64.toNat_ofNat', UInt64.toNat_ofNat', hm]
    simp only [UInt64.reduceToNat]
    omega
  have hc : (setLength ctx.pad.data (ctx.pad.bitlen + UInt64.ofNat ctx.pad.datalen * 8)).length = 64 := by
    rw [setLength_eq hl, List.length_append, List.length_take_of_le (by omega), Sha256.length_bigEndian]
  dsimp only [final]
  rw [bytes_digest, digest_transform, Sha256.hash, hp, Sha256.absorbed_append _ hb, ← hs, ← hn, ← setLength_eq hl,
    Sha256.absorbed_single _ hc]

end Sha256Ctx

theorem hexChar_eq {n : UInt8} (h : n.toNat < 16) : hexChar n = n.toNat.digitChar := by
  have hd : ∀ n < 16, "0123456789abcdef".toList.getD n '0' = n.digitChar := by decide
  exact hd n.toNat h

theorem flatMap_hexChar (bytes : List UInt8) :
    (bytes.flatMap fun byte : UInt8 => [hexChar (byte >>> 4 &&& 0xF), hexChar (byte &&& 0xF)]) = hexdigest bytes := by
  refine List.flatMap_congr fun byte _ => ?_
  have hb := byte.toNat_lt
  have hh : (byte >>> 4 &&& 0xF).toNat = byte.toNat / 16 := by
    rw [UInt8.toNat_and, UInt8.toNat_shiftRight]
    refine (Nat.and_two_pow_sub_one_eq_mod _ 4).trans ?_
    rw [Nat.shiftRight_eq_div_pow]
    exact Nat.mod_eq_of_lt (by simp; omega)
  have hl : (byte &&& 0xF).toNat = byte.toNat % 16 :=
    (UInt8.toNat_and ..).trans (Nat.and_two_pow_sub_one_eq_mod _ 4)
  rw [hexChar_eq (by omega), hexChar_eq (by omega), hh, hl]

-- No length wraps, so that the hash is that of the standard, whatever was in the context's memory.
theorem schemaHash_eq (memory : Vector UInt8 64) {data : List UInt8} (h : data.length < 2 ^ 61) :
    schemaHash memory data = String.ofList ("sha256:".toList ++ hexdigest (Sha256.hash data)) ∧
      schemaHash memory data = computeSchemaHash data none := by
  have ha := (Sha256Ctx.init_absorbing memory).update data
  have hf := Sha256Ctx.final_eq ha h
  have hs : schemaHash memory data = computeSchemaHash data none := by
    dsimp only [schemaHash, computeSchemaHash]
    rw [hf, flatMap_hexChar, List.nil_append]
  exact ⟨hs, hs⟩

theorem schemaHash_abc :
    [97, 98, 99].length < 2 ^ 61 ∧
      schemaHash (Vector.replicate 64 0) [97, 98, 99] = computeSchemaHash [97, 98, 99] none := by
  have h : [97, 98, 99].length < 2 ^ 61 := by decide
  exact ⟨h, (schemaHash_eq (Vector.replicate 64 0) h).right⟩

example :
    schemaHash (Vector.replicate 64 0) [97, 98, 99] =
      "sha256:ba7816bf8f01cfea414140de5dae2223b00361a396177a9cb410ff61f20015ad" := by
  decide +kernel

-- The hash over the names as well is told apart by its prefix.
theorem schemaHash_ne_some (memory : Vector UInt8 64) (data scopeTree strings : List UInt8) :
    schemaHash memory data ≠ computeSchemaHash scopeTree (some strings) := by
  intro h
  have hl : "sha256:".toList ++ _ = "sha256v2:".toList ++ _ := String.ofList_injective h
  have hp := congrArg (List.take 7) hl
  rw [List.take_append_of_le_length (by decide), List.take_append_of_le_length (by decide)] at hp
  exact absurd hp (by decide)
