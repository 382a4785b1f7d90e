import Mathlib.Algebra.Group.Int.Defs
import Mathlib.Algebra.Group.Nat.Defs
import Mathlib.Data.List.Basic
import Mathlib.Order.Bounds.Basic
import Mathlib.Tactic.Common

-- The hash SHA-256 of a message of bytes, as FIPS 180-4 defines it.

namespace Sha256

abbrev Word := BitVec 32

abbrev Block := List UInt8

-- The functions of section 4.1.2.

def ch (x y z : Word) : Word :=
  (x &&& y) ^^^ (~~~x &&& z)

def maj (x y z : Word) : Word :=
  (x &&& y) ^^^ (x &&& z) ^^^ (y &&& z)

def bigSigma0 (x : Word) : Word :=
  x.rotateRight 2 ^^^ x.rotateRight 13 ^^^ x.rotateRight 22

def bigSigma1 (x : Word) : Word :=
  x.rotateRight 6 ^^^ x.rotateRight 11 ^^^ x.rotateRight 25

def smallSigma0 (x : Word) : Word :=
  x.rotateRight 7 ^^^ x.rotateRight 18 ^^^ x >>> 3

def smallSigma1 (x : Word) : Word :=
  x.rotateRight 17 ^^^ x.rotateRight 19 ^^^ x >>> 10

def constants : List Word :=
  [0x428a2f98, 0x71374491, 0xb5c0fbcf, 0xe9b5dba5, 0x3956c25b, 0x59f111f1, 0x923f82a4, 0xab1c5ed5,
   0xd807aa98, 0x12835b01, 0x243185be, 0x550c7dc3, 0x72be5d74, 0x80deb1fe, 0x9bdc06a7, 0xc19bf174,
   0xe49b69c1, 0xefbe4786, 0x0fc19dc6, 0x240ca1cc, 0x2de92c6f, 0x4a7484aa, 0x5cb0a9dc, 0x76f988da,
   0x983e5152, 0xa831c66d, 0xb00327c8, 0xbf597fc7, 0xc6e00bf3, 0xd5a79147, 0x06ca6351, 0x14292967,
   0x27b70a85, 0x2e1b2138, 0x4d2c6dfc, 0x53380d13, 0x650a7354, 0x766a0abb, 0x81c2c92e, 0x92722c85,
   0xa2bfe8a1, 0xa81a664b, 0xc24b8b70, 0xc76c51a3, 0xd192e819, 0xd6990624, 0xf40e3585, 0x106aa070,
   0x19a4c116, 0x1e376c08, 0x2748774c, 0x34b0bcb5, 0x391c0cb3, 0x4ed8aa4a, 0x5b9cca4f, 0x682e6ff3,
   0x748f82ee, 0x78a5636f, 0x84c87814, 0x8cc70208, 0x90befffa, 0xa4506ceb, 0xbef9a3f7, 0xc67178f2]

@[ext]
structure Digest where
  (a b c d e f g h : Word)
  deriving DecidableEq

def initial : Digest where
  a := 0x6a09e667
  b := 0xbb67ae85
  c := 0x3c6ef372
  d := 0xa54ff53a
  e := 0x510e527f
  f := 0x9b05688c
  g := 0x1f83d9ab
  h := 0x5be0cd19

-- Numbers of `width` bytes, the highest byte first.
def bigEndian : (width n : Nat) → List UInt8
  | 0,         _ => []
  | width + 1, n => UInt8.ofNat (n / 256 ^ width) :: bigEndian width n

@[simp]
theorem length_bigEndian (width n : Nat) : (bigEndian width n).length = width := by
  induction width
  case zero         => rfl
  case succ width hi => rw [bigEndian, List.length_cons, hi]

-- The word that starts at a byte of a block.
def wordAt (block : Block) (t : Nat) : Word :=
  let byte i := (block.getD (4 * t + i) 0).toBitVec
  byte 0 ++ byte 1 ++ byte 2 ++ byte 3

-- The first words of the message schedule, section 6.2.2, step 1.
def schedule (block : Block) : (count : Nat) → List Word
  | 0     => []
  | t + 1 =>
    let w := schedule block t
    let next :=
      if t < 16 then
        wordAt block t
      else
        smallSigma1 (w.getD (t - 2) 0) + w.getD (t - 7) 0 + smallSigma0 (w.getD (t - 15) 0) + w.getD (t - 16) 0
    w ++ [next]

-- Step 3, for one word.
def round (s : Digest) (constant word : Word) : Digest :=
  let t1 := s.h + bigSigma1 s.e + ch s.e s.f s.g + constant + word
  let t2 := bigSigma0 s.a + maj s.a s.b s.c
  { a := t1 + t2, b := s.a, c := s.b, d := s.c, e := s.d + t1, f := s.e, g := s.f, h := s.g }

-- The working variables after the first words.
def worked (s : Digest) (w : List Word) : (t : Nat) → Digest
  | 0     => s
  | t + 1 => round (worked s w t) (constants.getD t 0) (w.getD t 0)

-- Step 4.
def compress (s : Digest) (block : Block) : Digest :=
  let w := worked s (schedule block 64) 64
  { a := w.a + s.a, b := w.b + s.b, c := w.c + s.c, d := w.d + s.d
    e := w.e + s.e, f := w.f + s.f, g := w.g + s.g, h := w.h + s.h }

-- The padding of a message of `n` bytes, section 5.1.1.
def zeros (n : Nat) : Nat :=
  (119 - n % 64) % 64

def padding (n : Nat) : List UInt8 :=
  0x80 :: List.replicate (zeros n) 0 ++ bigEndian 8 (8 * n)

-- The fewest zeros that complete a block.
theorem zeros_isLeast (n : Nat) : IsLeast { k | (n + 1 + k + 8) % 64 = 0 } (zeros n) where
  left := by
    rw [Set.mem_ofPred_eq, zeros]
    omega
  right := by
    intro k h
    rw [Set.mem_ofPred_eq] at h
    rw [zeros]
    omega

-- The blocks, section 6.2.2. Bytes after the last whole block are not looked at.
def absorbed (s : Digest) (message : List UInt8) : Digest :=
  if message.length < 64 then s else absorbed (compress s (message.take 64)) (message.drop 64)
termination_by message.length
decreasing_by rw [List.length_drop]; omega

def Digest.bytes (s : Digest) : List UInt8 :=
  [s.a, s.b, s.c, s.d, s.e, s.f, s.g, s.h].flatMap fun word => bigEndian 4 word.toNat

-- The hash of messages of less than 2^61 bytes.
def hash (message : List UInt8) : List UInt8 :=
  (absorbed initial (message ++ padding message.length)).bytes

theorem absorbed_of_short {message : List UInt8} (s : Digest) (h : message.length < 64) :
    absorbed s message = s := by
  rw [absorbed, if_pos h]

@[simp]
theorem absorbed_nil (s : Digest) : absorbed s [] = s :=
  absorbed_of_short s (Nat.zero_lt_succ 63)

theorem absorbed_block {block : Block} (s : Digest) (h : block.length = 64) (message : List UInt8) :
    absorbed s (block ++ message) = absorbed (compress s block) message := by
  rw [absorbed, if_neg (by rw [List.length_append]; omega), List.take_left' h, List.drop_left' h]

theorem absorbed_single {block : Block} (s : Digest) (h : block.length = 64) :
    absorbed s block = compress s block := by
  rw [← List.append_nil block, absorbed_block s h, absorbed_nil, List.append_nil]

-- What follows whole blocks goes on from their hash value.
theorem absorbed_append {k : Nat} {blocks : List UInt8} (s : Digest) (h : blocks.length = 64 * k)
    (message : List UInt8) : absorbed s (blocks ++ message) = absorbed (absorbed s blocks) message := by
  induction k generalizing s blocks
  case zero =>
    cases List.eq_nil_of_length_eq_zero h
    rw [List.nil_append, absorbed_nil]
  case succ k hi =>
    have ht : (blocks.take 64).length = 64 := by
      rw [List.length_take]
      omega
    have hd : (blocks.drop 64).length = 64 * k := by
      rw [List.length_drop]
      omega
    rw [← List.take_append_drop 64 blocks, List.append_assoc, absorbed_block s ht, absorbed_block s ht]
    exact hi _ hd

@[simp]
theorem length_schedule (block : Block) (count : Nat) : (schedule block count).length = count := by
  induction count
  case zero       => rfl
  case succ t hi => rw [schedule, List.length_append, hi, List.length_singleton]

-- The table of constants holds what the standard says of them: the first 32 bits of the fractional parts of the
-- cube roots of the first 64 primes, so that a constant with the whole part before it is a cube root rounded down.

def primes : List Nat :=
  (List.range 312).filter fun n => 2 ≤ n ∧ ∀ k ∈ List.range 18, 2 ≤ k → k < n → n % k ≠ 0

def CubeRoot (p : Nat) (constant : Word) : Prop :=
  ∃ whole < 7, let root := whole * 2 ^ 32 + constant.toNat; root ^ 3 ≤ p * 2 ^ 96 ∧ p * 2 ^ 96 < (root + 1) ^ 3

instance (p : Nat) (constant : Word) : Decidable (CubeRoot p constant) :=
  inferInstanceAs <| Decidable (∃ whole < 7, _)

theorem constants_cubeRoots : List.Forall₂ CubeRoot primes constants := by
  decide +kernel

end Sha256
