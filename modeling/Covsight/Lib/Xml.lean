import Mathlib.Data.List.Basic
import Mathlib.Data.Nat.Init
import Mathlib.Tactic.Common

-- Characters of XML 1.0 as UTF-8, and the text of an attribute between double quotes.

namespace Xml

def isChar (cp : Nat) : Bool :=
  cp = 0x9 ∨ cp = 0xA ∨ cp = 0xD ∨ (0x20 ≤ cp ∧ cp ≤ 0xD7FF) ∨ (0xE000 ≤ cp ∧ cp ≤ 0xFFFD) ∨
  (0x10000 ≤ cp ∧ cp ≤ 0x10FFFF)

def encode (cp : Nat) : List UInt8 :=
  if cp < 0x80 then
    [.ofNat cp]
  else if cp < 0x800 then
    [.ofNat (0xC0 + cp / 64), .ofNat (0x80 + cp % 64)]
  else if cp < 0x10000 then
    [.ofNat (0xE0 + cp / 4096), .ofNat (0x80 + cp / 64 % 64), .ofNat (0x80 + cp % 64)]
  else
    [.ofNat (0xF0 + cp / 262144), .ofNat (0x80 + cp / 4096 % 64), .ofNat (0x80 + cp / 64 % 64),
      .ofNat (0x80 + cp % 64)]

-- The code point that bytes stand for if they are its encoding.
def decode : List UInt8 → Nat
  | [a]          => a.toNat
  | [a, b]       => (a.toNat - 0xC0) * 64 + (b.toNat - 0x80)
  | [a, b, c]    => (a.toNat - 0xE0) * 4096 + (b.toNat - 0x80) * 64 + (c.toNat - 0x80)
  | [a, b, c, d] =>
    (a.toNat - 0xF0) * 262144 + (b.toNat - 0x80) * 4096 + (c.toNat - 0x80) * 64 + (d.toNat - 0x80)
  | _            => 0

def isCharacter (bytes : List UInt8) : Bool :=
  isChar (decode bytes) && encode (decode bytes) == bytes

-- The length of the character that bytes begin with, zero if they begin with none.
def charLength (bytes : List UInt8) : Nat :=
  [1, 2, 3, 4].find? (fun n => isCharacter (bytes.take n)) |>.getD 0

def ascii (text : List Char) : List UInt8 :=
  text.map (·.toUInt8)

def digit? (base : Nat) (b : UInt8) : Option Nat :=
  let digit :=
    if '0'.toUInt8 ≤ b ∧ b ≤ '9'.toUInt8 then some (b - '0'.toUInt8).toNat
    else if 'a'.toUInt8 ≤ b ∧ b ≤ 'f'.toUInt8 then some (b - 'a'.toUInt8 + 10).toNat
    else if 'A'.toUInt8 ≤ b ∧ b ≤ 'F'.toUInt8 then some (b - 'A'.toUInt8 + 10).toNat
    else none
  digit.filter (· < base)

def number? (base : Nat) (digits : List UInt8) : Option Nat :=
  if digits = [] then none else digits.foldlM (fun n b => (n * base + ·) <$> digit? base b) 0

-- What a reference stands for, by its text between `&` and `;`.
def referred? (body : List UInt8) : Option (List UInt8) :=
  if body = ascii ['a', 'm', 'p'] then some (ascii ['&'])
  else if body = ascii ['l', 't'] then some (ascii ['<'])
  else if body = ascii ['g', 't'] then some (ascii ['>'])
  else if body = ascii ['q', 'u', 'o', 't'] then some (ascii ['"'])
  else if body = ascii ['a', 'p', 'o', 's'] then some (ascii ['\''])
  else
    match body with
    | 0x23 :: 0x78 :: digits => (number? 16 digits).filter isChar |>.map encode
    | 0x23 :: digits         => (number? 10 digits).filter isChar |>.map encode
    | _                      => none

-- With the length of the reference after `&`.
def reference? (bytes : List UInt8) : Option (List UInt8 × Nat) :=
  let body := bytes.takeWhile (· ≠ ';'.toUInt8)
  if body.length < bytes.length then (referred? body).map (·, body.length + 1) else none

-- The value of an attribute with a given text, `none` if the text is not legal. White space that is not
-- referred to is normalised. The numbers tell the bytes of a character and of a reference that are left.
def unescapeFrom : (kept skipped : Nat) → List UInt8 → Option (List UInt8)
  | _,     _,     []     => some []
  | k,     n + 1, _ :: s => unescapeFrom k n s
  | k + 1, 0,     b :: s => (b :: ·) <$> unescapeFrom k 0 s
  | 0,     0,     b :: s =>
    if b = '&'.toUInt8 then
      (reference? s).bind fun (value, length) => (value ++ ·) <$> unescapeFrom 0 length s
    else if b = '<'.toUInt8 ∨ b = '"'.toUInt8 then
      none
    else if b = 0x9 ∨ b = 0xA ∨ b = 0xD then
      (0x20 :: ·) <$> unescapeFrom 0 0 s
    else
      match charLength (b :: s) with
      | 0     => none
      | k + 1 => (b :: ·) <$> unescapeFrom k 0 s

def unescape (text : List UInt8) : Option (List UInt8) :=
  unescapeFrom 0 0 text

-- Bytes with each one replaced that does not belong to a character, and the number of them.

def sanitizeFrom : (kept : Nat) → List UInt8 → List UInt8
  | _,     []     => []
  | k + 1, b :: s => b :: sanitizeFrom k s
  | 0,     b :: s =>
    match charLength (b :: s) with
    | 0     => '?'.toUInt8 :: sanitizeFrom 0 s
    | k + 1 => b :: sanitizeFrom k s

def illegalFrom : (kept : Nat) → List UInt8 → Nat
  | _,     []     => 0
  | k + 1, _ :: s => illegalFrom k s
  | 0,     b :: s =>
    match charLength (b :: s) with
    | 0     => illegalFrom 0 s + 1
    | k + 1 => illegalFrom k s

def sanitize (bytes : List UInt8) : List UInt8 :=
  sanitizeFrom 0 bytes

def illegal (bytes : List UInt8) : Nat :=
  illegalFrom 0 bytes

def Legal (bytes : List UInt8) : Prop :=
  ∃ cps : List Nat, (∀ cp ∈ cps, isChar cp) ∧ bytes = cps.flatMap encode

-- Characters by their bytes

theorem ofNat_eq_iff {n : Nat} {b : UInt8} : UInt8.ofNat n = b ↔ n % 256 = b.toNat := by
  rw [← UInt8.toNat_inj, UInt8.toNat_ofNat']

section

variable (a b c d e : UInt8) (s : List UInt8)

theorem decode_one : decode [a] = a.toNat := rfl

theorem decode_two : decode [a, b] = (a.toNat - 0xC0) * 64 + (b.toNat - 0x80) := rfl

theorem decode_three : decode [a, b, c] =
    (a.toNat - 0xE0) * 4096 + (b.toNat - 0x80) * 64 + (c.toNat - 0x80) := rfl

theorem decode_four : decode [a, b, c, d] = (a.toNat - 0xF0) * 262144 + (b.toNat - 0x80) * 4096 +
    (c.toNat - 0x80) * 64 + (d.toNat - 0x80) := rfl

theorem decode_more : decode (a :: b :: c :: d :: e :: s) = 0 := rfl

end

theorem isCharacter_iff {bytes : List UInt8} {cp : Nat} (h : decode bytes = cp) :
    isCharacter bytes ↔ isChar cp ∧ encode cp = bytes := by
  rw [isCharacter, h, Bool.and_eq_true, beq_iff_eq]

theorem isChar_iff {cp : Nat} : isChar cp ↔ cp = 0x9 ∨ cp = 0xA ∨ cp = 0xD ∨ (0x20 ≤ cp ∧ cp ≤ 0xD7FF) ∨
    (0xE000 ≤ cp ∧ cp ≤ 0xFFFD) ∨ (0x10000 ≤ cp ∧ cp ≤ 0x10FFFF) := by
  rw [isChar, decide_eq_true_eq]

theorem isCharacter_one {a : UInt8} : isCharacter [a] ↔ a.toNat < 0x80 ∧ isChar a.toNat := by
  have ha := a.toNat_lt
  rw [isCharacter_iff (decode_one a), encode]
  constructor
  case mp =>
    intro ⟨hc, he⟩
    refine ⟨?_, hc⟩
    by_contra hn
    rw [if_neg hn] at he
    split at he <;> simp at he
    split at he <;> simp at he
  case mpr =>
    intro ⟨h, hc⟩
    exact ⟨hc, by simp [h]⟩

-- The bytes after the first.
def IsTail (b : UInt8) : Prop :=
  0x80 ≤ b.toNat ∧ b.toNat < 0xC0

theorem isCharacter_two {a b : UInt8} :
    isCharacter [a, b] ↔ 0xC2 ≤ a.toNat ∧ a.toNat < 0xE0 ∧ IsTail b := by
  have ha := a.toNat_lt
  have hb := b.toNat_lt
  rw [isCharacter_iff (decode_two a b), isChar_iff, encode]
  simp only [IsTail]
  constructor
  case mp =>
    intro ⟨hc, he⟩
    split at he
    case isTrue => simp at he
    case isFalse hn =>
      split at he
      case isFalse => split at he <;> simp at he
      case isTrue h =>
        simp only [List.cons.injEq, ofNat_eq_iff, and_true] at he
        omega
  case mpr =>
    intro ⟨h, h', hb⟩
    refine ⟨by omega, ?_⟩
    rw [if_neg (by omega), if_pos (by omega)]
    simp only [List.cons.injEq, ofNat_eq_iff, and_true]
    omega

theorem isCharacter_three {a b c : UInt8} : isCharacter [a, b, c] ↔
    0xE0 ≤ a.toNat ∧ a.toNat < 0xF0 ∧ IsTail b ∧ IsTail c ∧ (a.toNat = 0xE0 → 0xA0 ≤ b.toNat) ∧
    (a.toNat = 0xED → b.toNat < 0xA0) ∧ ¬(a.toNat = 0xEF ∧ b.toNat = 0xBF ∧ 0xBE ≤ c.toNat) := by
  have ha := a.toNat_lt
  have hb := b.toNat_lt
  have hc := c.toNat_lt
  rw [isCharacter_iff (decode_three a b c), isChar_iff, encode]
  simp only [IsTail]
  constructor
  case mp =>
    intro ⟨hc, he⟩
    split at he
    case isTrue => simp at he
    case isFalse hn =>
      split at he
      case isTrue => simp at he
      case isFalse hn =>
        split at he
        case isFalse => simp at he
        case isTrue h =>
          simp only [List.cons.injEq, ofNat_eq_iff, and_true] at he
          omega
  case mpr =>
    intro h
    refine ⟨by omega, ?_⟩
    rw [if_neg (by omega), if_neg (by omega), if_pos (by omega)]
    simp only [List.cons.injEq, ofNat_eq_iff, and_true]
    omega

theorem isCharacter_four {a b c d : UInt8} : isCharacter [a, b, c, d] ↔
    0xF0 ≤ a.toNat ∧ a.toNat < 0xF5 ∧ IsTail b ∧ IsTail c ∧ IsTail d ∧
    (a.toNat = 0xF0 → 0x90 ≤ b.toNat) ∧ (a.toNat = 0xF4 → b.toNat < 0x90) := by
  have ha := a.toNat_lt
  have hb := b.toNat_lt
  have hc := c.toNat_lt
  have hd := d.toNat_lt
  rw [isCharacter_iff (decode_four a b c d), isChar_iff, encode]
  simp only [IsTail]
  constructor
  case mp =>
    intro ⟨hc, he⟩
    split at he
    case isTrue => simp at he
    case isFalse hn =>
      split at he
      case isTrue => simp at he
      case isFalse hn =>
        split at he
        case isTrue => simp at he
        case isFalse h =>
          simp only [List.cons.injEq, ofNat_eq_iff, and_true] at he
          omega
  case mpr =>
    intro h
    refine ⟨by omega, ?_⟩
    rw [if_neg (by omega), if_neg (by omega), if_neg (by omega)]
    simp only [List.cons.injEq, ofNat_eq_iff, and_true]
    omega

-- The first byte tells the length.

def lead (a : UInt8) : Nat :=
  if a.toNat < 0x80 then 1 else if a.toNat < 0xE0 then 2 else if a.toNat < 0xF0 then 3 else 4

theorem length_of_isCharacter {a : UInt8} {s : List UInt8} (h : isCharacter (a :: s)) :
    (a :: s).length = lead a := by
  rw [lead]
  rcases s with _ | ⟨b, _ | ⟨c, _ | ⟨d, _ | ⟨e, s⟩⟩⟩⟩
  case nil =>
    have h := isCharacter_one.mp h
    rw [if_pos h.left, List.length_singleton]
  case cons.nil =>
    have h := isCharacter_two.mp h
    rw [if_neg (by omega), if_pos (by omega), List.length_cons, List.length_singleton]
  case cons.cons.nil =>
    have h := isCharacter_three.mp h
    rw [if_neg (by omega), if_neg (by omega), if_pos (by omega)]
    rfl
  case cons.cons.cons.nil =>
    have h := isCharacter_four.mp h
    rw [if_neg (by omega), if_neg (by omega), if_neg (by omega)]
    rfl
  case cons.cons.cons.cons =>
    have hz := isChar_iff.mp (isCharacter_iff (decode_more a b c d e s) |>.mp h).left
    omega

theorem lead_bounds (a : UInt8) : 1 ≤ lead a ∧ lead a ≤ 4 := by
  rw [lead]
  split
  case isTrue => decide
  case isFalse =>
    split
    case isTrue => decide
    case isFalse => split <;> decide

theorem charLength_cons (a : UInt8) (s : List UInt8) :
    charLength (a :: s) = if isCharacter ((a :: s).take (lead a)) then lead a else 0 := by
  have hl (n : Nat) (hn : 0 < n) (h : isCharacter ((a :: s).take n)) : min n (s.length + 1) = lead a := by
    obtain ⟨n, rfl⟩ := Nat.exists_eq_add_one.mpr hn
    simpa using length_of_isCharacter h
  have hlt (n : Nat) (hn : 0 < n) (h : n < lead a) : isCharacter ((a :: s).take n) = false := by
    by_contra hc
    have := hl n hn (by simpa using hc)
    omega
  have hgt (n : Nat) (h : lead a < n) (hc : isCharacter ((a :: s).take (lead a)) = false) :
      isCharacter ((a :: s).take n) = false := by
    by_contra ht
    have ht : isCharacter ((a :: s).take n) := by simpa using ht
    have hm := hl n (by omega) ht
    have hs : (a :: s).length ≤ lead a := by simp; omega
    rw [List.take_of_length_le hs] at hc
    rw [List.take_of_length_le (Nat.le_trans hs (Nat.le_of_lt h)), hc] at ht
    exact absurd ht Bool.false_ne_true
  have hb := lead_bounds a
  have hcases : lead a = 1 ∨ lead a = 2 ∨ lead a = 3 ∨ lead a = 4 := by omega
  rw [charLength]
  by_cases hc : isCharacter ((a :: s).take (lead a))
  case pos =>
    rw [if_pos hc]
    rcases hcases with h | h | h | h <;> rw [h] at hc hlt ⊢ <;>
      simp only [List.find?_cons, hc, hlt, Nat.zero_lt_succ, Nat.reduceLT, Option.getD_some]
  case neg =>
    have hc := Bool.eq_false_iff.mpr hc
    rw [hc, if_neg Bool.false_ne_true]
    have hall : ∀ n ∈ [1, 2, 3, 4], isCharacter ((a :: s).take n) = false := by
      intro n hn
      have hn : 0 < n := Nat.pos_of_ne_zero fun h => by simp [h] at hn
      rcases Nat.lt_trichotomy n (lead a) with h | h | h
      case inl      => exact hlt n hn h
      case inr.inl  => exact h ▸ hc
      case inr.inr  => exact hgt n h hc
    rw [List.find?_eq_none.mpr fun n hn => by simp [hall n hn], Option.getD_none]

theorem decode_encode {cp : Nat} (h : isChar cp) : decode (encode cp) = cp := by
  have h := isChar_iff.mp h
  rw [encode]
  split
  case isTrue => simp [decode_one]; omega
  case isFalse =>
    split
    case isTrue => simp [decode_two]; omega
    case isFalse =>
      split
      case isTrue => simp [decode_three]; omega
      case isFalse => simp [decode_four]; omega

theorem isCharacter_encode {cp : Nat} (h : isChar cp) : isCharacter (encode cp) :=
  isCharacter_iff (decode_encode h) |>.mpr ⟨h, rfl⟩

theorem encode_ne_nil (cp : Nat) : encode cp ≠ [] := by
  rw [encode]
  repeat' split
  all_goals exact List.cons_ne_nil _ _

theorem charLength_encode {cp : Nat} (h : isChar cp) (s : List UInt8) :
    charLength (encode cp ++ s) = (encode cp).length := by
  have hc := isCharacter_encode h
  cases he : encode cp with
  | nil      => exact absurd he (encode_ne_nil cp)
  | cons a t =>
    rw [he] at hc
    have hl := length_of_isCharacter hc
    rw [List.cons_append, charLength_cons, ← List.cons_append, List.take_left' hl, if_pos hc, hl]

theorem exists_of_charLength {bytes : List UInt8} (h : charLength bytes ≠ 0) :
    ∃ cp s, isChar cp ∧ bytes = encode cp ++ s := by
  cases bytes with
  | nil      => exact absurd rfl h
  | cons a s =>
    rw [charLength_cons] at h
    have hc : isCharacter ((a :: s).take (lead a)) := by
      by_contra hn
      exact h (if_neg hn)
    have ⟨hd, he⟩ := isCharacter_iff rfl |>.mp hc
    exact ⟨_, (a :: s).drop (lead a), hd, by rw [he, List.take_append_drop]⟩

-- Bytes are gone through by characters and by bytes that belong to none.
theorem scan_induction {p : List UInt8 → Prop} (nil : p [])
    (bad : ∀ b s, charLength (b :: s) = 0 → p s → p (b :: s))
    (char : ∀ cp s, isChar cp → p s → p (encode cp ++ s)) (bytes : List UInt8) : p bytes := by
  induction hn : bytes.length using Nat.strongRecOn generalizing bytes with
  | ind n hi =>
    subst hn
    by_cases hc : charLength bytes = 0
    case neg =>
      have ⟨cp, s, hcp, hb⟩ := exists_of_charLength hc
      subst hb
      have hl := List.length_pos_iff.mpr (encode_ne_nil cp)
      exact char cp s hcp <| hi s.length (by rw [List.length_append]; omega) s rfl
    case pos =>
      cases bytes with
      | nil      => exact nil
      | cons b s => exact bad b s hc <| hi s.length (Nat.lt_succ_self _) s rfl

-- What is done with them

section

variable {b : UInt8} {s : List UInt8} {cp : Nat}

theorem sanitize_bad (h : charLength (b :: s) = 0) : sanitize (b :: s) = '?'.toUInt8 :: sanitize s := by
  rw [sanitize, sanitizeFrom, h]
  rfl

theorem illegal_bad (h : charLength (b :: s) = 0) : illegal (b :: s) = illegal s + 1 := by
  rw [illegal, illegalFrom, h]
  rfl

theorem sanitizeFrom_append (c s : List UInt8) : sanitizeFrom c.length (c ++ s) = c ++ sanitize s := by
  induction c with
  | nil         => rfl
  | cons b c hi => exact congrArg (b :: ·) hi

theorem illegalFrom_append (c s : List UInt8) : illegalFrom c.length (c ++ s) = illegal s := by
  induction c with
  | nil         => rfl
  | cons b c hi => exact hi

theorem unescapeFrom_append (c s : List UInt8) :
    unescapeFrom c.length 0 (c ++ s) = (c ++ ·) <$> unescape s := by
  induction c with
  | nil         => simp [unescape]
  | cons b c hi =>
    rw [List.length_cons, List.cons_append, unescapeFrom, hi]
    simp [Function.comp_def]

theorem unescapeFrom_skip (c s : List UInt8) : unescapeFrom 0 c.length (c ++ s) = unescape s := by
  induction c with
  | nil         => rfl
  | cons b c hi => exact hi

theorem sanitize_char (h : isChar cp) : sanitize (encode cp ++ s) = encode cp ++ sanitize s := by
  have hl := charLength_encode h s
  cases he : encode cp with
  | nil      => exact absurd he (encode_ne_nil cp)
  | cons a t =>
    rw [he] at hl
    rw [List.cons_append] at hl ⊢
    rw [sanitize, sanitizeFrom, hl]
    exact congrArg (a :: ·) <| sanitizeFrom_append t s

theorem illegal_char (h : isChar cp) : illegal (encode cp ++ s) = illegal s := by
  have hl := charLength_encode h s
  cases he : encode cp with
  | nil      => exact absurd he (encode_ne_nil cp)
  | cons a t =>
    rw [he] at hl
    rw [List.cons_append] at hl ⊢
    rw [illegal, illegalFrom, hl]
    exact illegalFrom_append t s

theorem unescape_reference {body value : List UInt8} (hb : ';'.toUInt8 ∉ body) (hr : referred? body = some value)
    (s : List UInt8) : unescape ('&'.toUInt8 :: (body ++ ';'.toUInt8 :: s)) = (value ++ ·) <$> unescape s := by
  have ht : (body ++ ';'.toUInt8 :: s).takeWhile (· ≠ ';'.toUInt8) = body := by
    rw [List.takeWhile_append_of_pos fun b hm => by simpa using ne_of_mem_of_not_mem hm hb]
    simp
  have href : reference? (body ++ ';'.toUInt8 :: s) = some (value, body.length + 1) := by
    simp only [reference?, ht]
    rw [if_pos (by simp), hr, Option.map_some]
  have hs := unescapeFrom_skip (body ++ [';'.toUInt8]) s
  rw [List.length_append, List.length_singleton, List.append_assoc, List.singleton_append] at hs
  rw [unescape, unescapeFrom, if_pos rfl, href, Option.bind_some]
  simp only [hs]

-- A character that stands for itself.
def isPlain (cp : Nat) : Bool :=
  isChar cp && !([0x26, 0x3C, 0x22, 0x9, 0xA, 0xD] : List Nat).contains cp

theorem unescape_char (h : isPlain cp) : unescape (encode cp ++ s) = (encode cp ++ ·) <$> unescape s := by
  have ⟨hc, hp⟩ := Bool.and_eq_true_iff.mp h
  have hl := charLength_encode hc s
  have hi := isChar_iff.mp hc
  have hfirst : ∀ a ∈ (encode cp).head?, a ≠ '&'.toUInt8 ∧ a ≠ '<'.toUInt8 ∧ a ≠ '"'.toUInt8 ∧
      a ≠ 0x9 ∧ a ≠ 0xA ∧ a ≠ 0xD := by
    simp at hp
    intro a ha
    have hamp : '&'.toUInt8.toNat = 0x26 := rfl
    have hlt : '<'.toUInt8.toNat = 0x3C := rfl
    have hquot : '"'.toUInt8.toNat = 0x22 := rfl
    simp only [ne_eq, ← UInt8.toNat_inj, hamp, hlt, hquot]
    rw [encode] at ha
    repeat' split at ha
    all_goals
      cases ha
      simp only [UInt8.toNat_ofNat', UInt8.toNat_ofNat]
      omega
  cases he : encode cp with
  | nil      => exact absurd he (encode_ne_nil cp)
  | cons a t =>
    have ⟨h₁, h₂, h₃, h₄, h₅, h₆⟩ := hfirst a (by simp [he])
    rw [he] at hl
    rw [List.cons_append] at hl ⊢
    rw [unescape, unescapeFrom, if_neg h₁, if_neg (not_or.mpr ⟨h₂, h₃⟩),
      if_neg (not_or.mpr ⟨h₄, not_or.mpr ⟨h₅, h₆⟩⟩), hl]
    simp only [List.length_cons, unescapeFrom_append]
    simp [Function.comp_def]

end

theorem length_sanitize (bytes : List UInt8) : (sanitize bytes).length = bytes.length := by
  induction bytes using scan_induction with
  | nil            => rfl
  | bad b s hb hi  => rw [sanitize_bad hb, List.length_cons, List.length_cons, hi]
  | char cp s hc hi => rw [sanitize_char hc, List.length_append, List.length_append, hi]

theorem sanitize_of_legal {bytes : List UInt8} (h : Legal bytes) : sanitize bytes = bytes ∧ illegal bytes = 0 := by
  obtain ⟨cps, hc, rfl⟩ := h
  induction cps with
  | nil            => exact ⟨rfl, rfl⟩
  | cons cp cps hi =>
    have ⟨hs, hl⟩ := hi fun cp h => hc cp (.tail _ h)
    have hc := hc cp (.head _)
    rw [List.flatMap_cons, sanitize_char hc, illegal_char hc, hs]
    exact ⟨rfl, hl⟩

-- What may stand between quotes
def Bare (b : UInt8) : Prop :=
  b ≠ '<'.toUInt8 ∧ b ≠ '"'.toUInt8

theorem bare_tail_encode {cp : Nat} : ∀ b ∈ (encode cp).tail, Bare b := by
  have hb : ∀ n : Nat, Bare (.ofNat (0x80 + n % 64)) := by
    intro n
    have hlt : '<'.toUInt8.toNat = 0x3C := rfl
    have hquot : '"'.toUInt8.toNat = 0x22 := rfl
    simp only [Bare, ne_eq, ← UInt8.toNat_inj, UInt8.toNat_ofNat', hlt, hquot]
    omega
  rw [encode]
  repeat' split
  all_goals
    simp only [List.tail_cons, List.forall_mem_cons, hb, true_and, List.not_mem_nil, false_implies, implies_true]

theorem bare_digit {base d : Nat} {b : UInt8} (h : digit? base b = some d) : Bare b := by
  rw [digit?, Option.filter_eq_some_iff] at h
  refine ⟨?_, ?_⟩
  case refine_1 =>
    rintro rfl
    exact Option.some_ne_none d h.left.symm
  case refine_2 =>
    rintro rfl
    exact Option.some_ne_none d h.left.symm

theorem bare_number {base n : Nat} {digits : List UInt8} (h : number? base digits = some n) : ∀ b ∈ digits, Bare b := by
  rw [number?] at h
  split at h
  case isTrue => cases h
  case isFalse hne =>
    clear hne
    generalize 0 = m at h
    induction digits generalizing m
    case nil              => simp
    case cons b digits hi =>
      rw [List.foldlM_cons, Option.bind_eq_bind, Option.bind_eq_some_iff] at h
      obtain ⟨k, hk, h⟩ := h
      obtain ⟨d, hd, _⟩ := Option.map_eq_some_iff.mp hk
      exact List.forall_mem_cons.mpr ⟨bare_digit hd, hi k h⟩

theorem bare_referred {body value : List UInt8} (h : referred? body = some value) : ∀ b ∈ body, Bare b := by
  have hnamed {name : List UInt8} (hb : body = name) (hn : name.all fun b => b ≠ '<'.toUInt8 && b ≠ '"'.toUInt8) :
      ∀ b ∈ body, Bare b := by
    intro b hm
    simpa [Bare] using List.all_eq_true.mp hn b (hb ▸ hm)
  have hnumber {base : Nat} {digits : List UInt8}
      (h : ((number? base digits).filter isChar).map encode = some value) : ∀ b ∈ digits, Bare b := by
    obtain ⟨n, hn, _⟩ := Option.map_eq_some_iff.mp h
    exact bare_number (Option.filter_eq_some_iff.mp hn).left
  have hhash : Bare 0x23 := by
    refine ⟨?_, ?_⟩ <;> decide
  have hx : Bare 0x78 := by
    refine ⟨?_, ?_⟩ <;> decide
  unfold referred? at h
  split at h
  case isTrue hb => exact hnamed hb (by decide)
  split at h
  case isTrue hb => exact hnamed hb (by decide)
  split at h
  case isTrue hb => exact hnamed hb (by decide)
  split at h
  case isTrue hb => exact hnamed hb (by decide)
  split at h
  case isTrue hb => exact hnamed hb (by decide)
  split at h
  case h_1 => exact List.forall_mem_cons.mpr ⟨hhash, List.forall_mem_cons.mpr ⟨hx, hnumber h⟩⟩
  case h_2 => exact List.forall_mem_cons.mpr ⟨hhash, hnumber h⟩
  case h_3 => cases h

theorem bare_reference {s value : List UInt8} {length : Nat} (h : reference? s = some (value, length)) :
    ∀ b ∈ s.take length, Bare b := by
  rw [reference?] at h
  split at h
  case isFalse => cases h
  case isTrue hl =>
    obtain ⟨v, hv, he⟩ := Option.map_eq_some_iff.mp h
    obtain ⟨rfl, rfl⟩ := Prod.mk.inj he
    have hw := @List.takeWhile_append_dropWhile _ (· ≠ ';'.toUInt8) s
    have hne : s.dropWhile (· ≠ ';'.toUInt8) ≠ [] := by
      intro he
      rw [he, List.append_nil] at hw
      rw [hw] at hl
      exact Nat.lt_irrefl _ hl
    have hhead := List.head_dropWhile_not _ hne
    obtain ⟨b, rest, hr⟩ := List.exists_cons_of_ne_nil hne
    have hb : b = ';'.toUInt8 := by
      simp only [hr, List.head_cons] at hhead
      simpa using hhead
    have ht : (s.takeWhile (· ≠ ';'.toUInt8) ++ b :: rest).take ((s.takeWhile (· ≠ ';'.toUInt8)).length + 1) =
        s.takeWhile (· ≠ ';'.toUInt8) ++ [b] := List.take_length_add_append 1
    rw [← hr, hw] at ht
    rw [ht, List.forall_mem_append, List.forall_mem_singleton]
    refine ⟨bare_referred hv, hb ▸ ⟨?_, ?_⟩⟩ <;> decide

theorem bare_char {b : UInt8} {s : List UInt8} {k : Nat} (h : charLength (b :: s) = k + 1) : ∀ c ∈ s.take k, Bare c := by
  obtain ⟨cp, rest, hc, he⟩ := @exists_of_charLength (b :: s) (by omega)
  have hl := charLength_encode hc rest
  rw [← he, h] at hl
  have hb := @bare_tail_encode cp
  cases hcp : encode cp
  case nil      => exact absurd hcp (encode_ne_nil cp)
  case cons a t =>
    rw [hcp] at he hl hb
    obtain rfl : k = t.length := by simpa using hl
    have ht : s.take t.length = t := (List.cons.inj he).right ▸ List.take_left' rfl
    rwa [ht]

-- The bytes of a character and of a reference are gone over with it.
theorem bare_unescapeFrom {s t : List UInt8} {k n : Nat} (hs : ∀ b ∈ s.take (k + n), Bare b)
    (h : unescapeFrom k n s = some t) : ∀ b ∈ s, Bare b := by
  induction s generalizing k n t
  case nil         => simp
  case cons b s hi =>
    rw [List.forall_mem_cons]
    cases n
    case succ n =>
      rw [← Nat.add_assoc, List.take_succ_cons, List.forall_mem_cons] at hs
      rw [unescapeFrom] at h
      exact ⟨hs.left, hi hs.right h⟩
    case zero =>
      cases k
      case succ k =>
        rw [Nat.add_zero, List.take_succ_cons, List.forall_mem_cons] at hs
        obtain ⟨t, ht, _⟩ := Option.map_eq_some_iff.mp h
        exact ⟨hs.left, @hi t k 0 hs.right ht⟩
      case zero =>
        rw [unescapeFrom] at h
        split at h
        case isTrue hb =>
          obtain ⟨r, hr, h⟩ := Option.bind_eq_some_iff.mp h
          obtain ⟨t, ht, _⟩ := Option.map_eq_some_iff.mp h
          have hamp : Bare '&'.toUInt8 := by
            refine ⟨?_, ?_⟩ <;> decide
          have hlength : ∀ b ∈ s.take (0 + r.snd), Bare b := (Nat.zero_add r.snd).symm ▸ bare_reference hr
          exact ⟨hb ▸ hamp, hi hlength ht⟩
        case isFalse =>
          split at h
          case isTrue     => cases h
          case isFalse hn =>
            refine ⟨not_or.mp hn, ?_⟩
            split at h
            case isTrue  =>
              obtain ⟨t, ht, _⟩ := Option.map_eq_some_iff.mp h
              exact @hi t 0 0 (by simp) ht
            case isFalse =>
              split at h
              case h_1      => cases h
              case h_2 k hk =>
                obtain ⟨t, ht, _⟩ := Option.map_eq_some_iff.mp h
                exact @hi t k 0 (bare_char hk) ht

-- No text that is read begins a tag or ends a value.
theorem bare_of_unescape {s t : List UInt8} (h : unescape s = some t) : ∀ b ∈ s, Bare b :=
  @bare_unescapeFrom s t 0 0 (by simp) h

end Xml
