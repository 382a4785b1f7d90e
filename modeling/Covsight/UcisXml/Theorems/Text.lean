import Covsight.UcisWriter.Tables
import Covsight.UcisXml.Key
import Mathlib.Data.List.Infix

-- The two writers escape text alike, but for two code points.

namespace Xml

theorem and_c0 {b : UInt8} : b &&& 0xC0 = 0x80 ↔ IsTail b := by
  have hd : ∀ n < 256, n &&& 192 = 128 ↔ 128 ≤ n ∧ n < 192 := by decide +kernel
  rw [← UInt8.toNat_inj, UInt8.toNat_and]
  exact hd _ b.toNat_lt

theorem and_c0_iff {b : UInt8} : b &&& 0xC0 ≠ 0x80 ↔ ¬(0x80 ≤ b.toNat ∧ b.toNat < 0xC0) :=
  not_congr and_c0

theorem toNat_and_mask {b m : UInt8} {k : Nat} (h : m.toNat = 2 ^ k - 1) :
    (b &&& m).toNat = b.toNat % 2 ^ k := by
  rw [UInt8.toNat_and, h, Nat.and_two_pow_sub_one_eq_mod]

theorem shiftLeft_or {cp : Nat} {b : UInt8} : cp <<< 6 ||| (b &&& 0x3F).toNat = cp * 64 + b.toNat % 64 := by
  rw [toNat_and_mask (k := 6) rfl, ← Nat.shiftLeft_add_eq_or_of_lt (Nat.mod_lt _ (by decide)), Nat.shiftLeft_eq]

end Xml

open Xml

section

variable {a b c d : UInt8} {s : List UInt8}

theorem uwUtf8Rest_nil (cp : Nat) : uwUtf8Rest [] cp = some cp := rfl

theorem uwUtf8Rest_cons (b : UInt8) (s : List UInt8) (cp : Nat) : uwUtf8Rest (b :: s) cp =
    if 0x80 ≤ b.toNat ∧ b.toNat < 0xC0 then uwUtf8Rest s (cp * 64 + b.toNat % 64) else none := by
  rw [uwUtf8Rest, ite_not, shiftLeft_or]
  exact if_congr and_c0 rfl rfl

-- A character of more than one byte, and what each writer takes for one.

theorem charLength_two (h : 0x80 ≤ a.toNat ∧ a.toNat < 0xE0) : charLength (a :: s) = match s with
    | b :: _ => if 0xC2 ≤ a.toNat ∧ 0x80 ≤ b.toNat ∧ b.toNat < 0xC0 then 2 else 0
    | []     => 0 := by
  have hl : lead a = 2 := by rw [lead, if_neg (by omega), if_pos (by omega)]
  rw [charLength_cons, hl]
  cases s with
  | nil      => exact if_neg fun hc => by have := isCharacter_one.mp hc; omega
  | cons b s =>
    refine if_congr (isCharacter_two.trans ?_) rfl rfl
    rw [IsTail]
    omega

theorem charLength_three (h : 0xE0 ≤ a.toNat ∧ a.toNat < 0xF0) : charLength (a :: s) = match s with
    | b :: c :: _ =>
      if 0x80 ≤ b.toNat ∧ b.toNat < 0xC0 ∧ 0x80 ≤ c.toNat ∧ c.toNat < 0xC0 ∧
        (a.toNat = 0xE0 → 0xA0 ≤ b.toNat) ∧ (a.toNat = 0xED → b.toNat < 0xA0) ∧
        ¬(a.toNat = 0xEF ∧ b.toNat = 0xBF ∧ 0xBE ≤ c.toNat) then 3 else 0
    | _           => 0 := by
  have hl : lead a = 3 := by rw [lead, if_neg (by omega), if_neg (by omega), if_pos (by omega)]
  rw [charLength_cons, hl]
  rcases s with _ | ⟨b, _ | ⟨c, s⟩⟩
  case nil      => exact if_neg fun hc => by have := isCharacter_one.mp hc; omega
  case cons.nil => exact if_neg fun hc => by have := isCharacter_two.mp hc; omega
  case cons.cons =>
    refine if_congr (isCharacter_three.trans ?_) rfl rfl
    rw [IsTail, IsTail]
    omega

theorem charLength_four (h : 0xF0 ≤ a.toNat) : charLength (a :: s) = match s with
    | b :: c :: d :: _ =>
      if a.toNat < 0xF5 ∧ 0x80 ≤ b.toNat ∧ b.toNat < 0xC0 ∧ 0x80 ≤ c.toNat ∧ c.toNat < 0xC0 ∧
        0x80 ≤ d.toNat ∧ d.toNat < 0xC0 ∧ (a.toNat = 0xF0 → 0x90 ≤ b.toNat) ∧
        (a.toNat = 0xF4 → b.toNat < 0x90) then 4 else 0
    | _                => 0 := by
  have hl : lead a = 4 := by rw [lead, if_neg (by omega), if_neg (by omega), if_neg (by omega)]
  rw [charLength_cons, hl]
  rcases s with _ | ⟨b, _ | ⟨c, _ | ⟨d, s⟩⟩⟩
  case nil           => exact if_neg fun hc => by have := isCharacter_one.mp hc; omega
  case cons.nil      => exact if_neg fun hc => by have := isCharacter_two.mp hc; omega
  case cons.cons.nil => exact if_neg fun hc => by have := isCharacter_three.mp hc; omega
  case cons.cons.cons =>
    refine if_congr (isCharacter_four.trans ?_) rfl rfl
    rw [IsTail, IsTail, IsTail]
    omega

theorem uwUtf8Lead_eq (a : UInt8) : uwUtf8Lead a =
    if a.toNat < 0xC2 then none
    else if a.toNat < 0xE0 then some (2, a.toNat % 32)
    else if a.toNat < 0xF0 then some (3, a.toNat % 16)
    else if a.toNat < 0xF5 then some (4, a.toNat % 8)
    else none := by
  rw [uwUtf8Lead, toNat_and_mask (k := 5) rfl, toNat_and_mask (k := 4) rfl, toNat_and_mask (k := 3) rfl]
  rfl

theorem uwUtf8Len_eq (h : 0x80 ≤ a.toNat) : uwUtf8Len (a :: s) = charLength (a :: s) := by
  have ha := a.toNat_lt
  rw [uwUtf8Len, List.headD_cons, uwUtf8Lead_eq]
  have hcases : a.toNat < 0xC2 ∨ (0xC2 ≤ a.toNat ∧ a.toNat < 0xE0) ∨ (0xE0 ≤ a.toNat ∧ a.toNat < 0xF0) ∨
    (0xF0 ≤ a.toNat ∧ a.toNat < 0xF5) ∨ 0xF5 ≤ a.toNat := by omega
  rcases hcases with h' | h' | h' | h' | h'
  case inl =>
    rw [if_pos h', charLength_two (by omega)]
    cases s with
    | nil      => rfl
    | cons b s => exact (if_neg (by omega)).symm
  case inr.inl =>
    rw [if_neg (by omega), if_pos h'.right, charLength_two (by omega)]
    cases s with
    | nil      => rfl
    | cons b s =>
      simp only [List.length_cons, List.tail_cons, Nat.reduceSub, List.take_succ_cons, List.take_zero,
        uwUtf8Rest_cons, uwUtf8Rest_nil]
      split_ifs <;> grind
  case inr.inr.inl =>
    rw [if_neg (by omega), if_neg (by omega), if_pos h'.right, charLength_three h']
    rcases s with _ | ⟨b, _ | ⟨c, s⟩⟩
    case nil      => rfl
    case cons.nil => rfl
    case cons.cons =>
      simp only [List.length_cons, List.tail_cons, Nat.reduceSub, List.take_succ_cons, List.take_zero,
        uwUtf8Rest_cons, uwUtf8Rest_nil]
      split_ifs <;> grind
  case inr.inr.inr.inl =>
    rw [if_neg (by omega), if_neg (by omega), if_neg (by omega), if_pos h'.right, charLength_four h'.left]
    rcases s with _ | ⟨b, _ | ⟨c, _ | ⟨d, s⟩⟩⟩
    case nil           => rfl
    case cons.nil      => rfl
    case cons.cons.nil => rfl
    case cons.cons.cons =>
      simp only [List.length_cons, List.tail_cons, Nat.reduceSub, List.take_succ_cons, List.take_zero,
        uwUtf8Rest_cons, uwUtf8Rest_nil]
      split_ifs <;> grind
  case inr.inr.inr.inr =>
    rw [if_neg (by omega), if_neg (by omega), if_neg (by omega), if_neg (by omega),
      charLength_four (by omega)]
    rcases s with _ | ⟨b, _ | ⟨c, _ | ⟨d, s⟩⟩⟩
    case nil            => rfl
    case cons.nil       => rfl
    case cons.cons.nil  => rfl
    case cons.cons.cons => exact (if_neg (by omega)).symm

-- The two code points that are taken for characters by one of the writers only.
def Noncharacter (s : List UInt8) : Prop :=
  [0xEF, 0xBF, 0xBE] <+: s ∨ [0xEF, 0xBF, 0xBF] <+: s

def HasNoncharacter (s : List UInt8) : Prop :=
  [0xEF, 0xBF, 0xBE] <:+: s ∨ [0xEF, 0xBF, 0xBF] <:+: s

theorem hasNoncharacter_cons : HasNoncharacter (a :: s) ↔ Noncharacter (a :: s) ∨ HasNoncharacter s := by
  rw [HasNoncharacter, List.infix_cons_iff, List.infix_cons_iff, or_or_or_comm]
  rfl

theorem noncharacter_iff : Noncharacter s ↔
    ∃ c t, s = 0xEF :: 0xBF :: c :: t ∧ (c = 0xBE ∨ c = 0xBF) := by
  constructor
  case mp =>
    rintro (⟨t, rfl⟩ | ⟨t, rfl⟩)
    case inl => exact ⟨0xBE, t, rfl, .inl rfl⟩
    case inr => exact ⟨0xBF, t, rfl, .inr rfl⟩
  case mpr =>
    rintro ⟨c, t, rfl, rfl | rfl⟩
    case inl => exact .inl ⟨t, rfl⟩
    case inr => exact .inr ⟨t, rfl⟩

theorem utf8Len_eq (a : UInt8) : utf8Len a =
    if a.toNat < 0xC2 then 0
    else if a.toNat < 0xE0 then 2
    else if a.toNat < 0xF0 then 3
    else if a.toNat < 0xF5 then 4
    else 0 :=
  rfl

theorem utf8Valid_eq (h : 0x80 ≤ a.toNat) (hn : ¬Noncharacter (a :: s)) :
    utf8Valid (a :: s) = charLength (a :: s) := by
  have ha := a.toNat_lt
  have hl := utf8Len_eq a
  have hcases : a.toNat < 0xC2 ∨ (0xC2 ≤ a.toNat ∧ a.toNat < 0xE0) ∨ (0xE0 ≤ a.toNat ∧ a.toNat < 0xF0) ∨
    (0xF0 ≤ a.toNat ∧ a.toNat < 0xF5) ∨ 0xF5 ≤ a.toNat := by omega
  rcases hcases with h' | h' | h' | h' | h'
  case inl =>
    rw [if_pos h'] at hl
    rw [utf8Valid, List.headD_cons, hl, if_pos (.inl rfl), charLength_two (by omega)]
    cases s with
    | nil      => rfl
    | cons b s => exact (if_neg (by omega)).symm
  case inr.inl =>
    rw [if_neg (by omega), if_pos h'.right] at hl
    rw [charLength_two (by omega)]
    simp only [utf8Valid, List.headD_cons, hl]
    cases s with
    | nil      => rfl
    | cons b s =>
      simp only [List.length_cons, List.tail_cons, Nat.reduceSub, List.take_succ_cons, List.take_zero, List.any_cons,
        List.any_nil, and_c0_iff, Bool.or_false, decide_eq_true_eq]
      split_ifs <;> grind
  case inr.inr.inl =>
    rw [if_neg (by omega), if_neg (by omega), if_pos h'.right] at hl
    rw [charLength_three h']
    simp only [utf8Valid, List.headD_cons, hl]
    rcases s with _ | ⟨b, _ | ⟨c, s⟩⟩
    case nil      => rfl
    case cons.nil => rfl
    case cons.cons =>
      have hn : ¬(a.toNat = 0xEF ∧ b.toNat = 0xBF ∧ 0xBE ≤ c.toNat ∧ c.toNat < 0xC0) := by
        intro ⟨ha, hb, hc⟩
        refine hn <| noncharacter_iff.mpr ⟨c, s, ?_, ?_⟩
        case refine_1 =>
          have ha : a = 0xEF := UInt8.toNat_inj.mp ha
          have hb : b = 0xBF := UInt8.toNat_inj.mp hb
          rw [ha, hb]
        case refine_2 =>
          simp only [← UInt8.toNat_inj, UInt8.reduceToNat]
          omega
      simp only [List.length_cons, List.tail_cons, Nat.reduceSub, List.take_succ_cons, List.take_zero, List.any_cons,
        List.any_nil, and_c0_iff, Bool.or_false, Bool.or_eq_true, decide_eq_true_eq, List.headD_cons,
        UInt8.lt_iff_toNat_lt, UInt8.le_iff_toNat_le, ← UInt8.toNat_inj, UInt8.reduceToNat]
      split_ifs <;> grind
  case inr.inr.inr.inl =>
    rw [if_neg (by omega), if_neg (by omega), if_neg (by omega), if_pos h'.right] at hl
    rw [charLength_four h'.left]
    simp only [utf8Valid, List.headD_cons, hl]
    rcases s with _ | ⟨b, _ | ⟨c, _ | ⟨d, s⟩⟩⟩
    case nil           => rfl
    case cons.nil      => rfl
    case cons.cons.nil => rfl
    case cons.cons.cons =>
      simp only [List.length_cons, List.tail_cons, Nat.reduceSub, List.take_succ_cons, List.take_zero, List.any_cons,
        List.any_nil, and_c0_iff, Bool.or_false, Bool.or_eq_true, decide_eq_true_eq, List.headD_cons,
        UInt8.lt_iff_toNat_lt, UInt8.le_iff_toNat_le, ← UInt8.toNat_inj, UInt8.reduceToNat]
      split_ifs <;> grind
  case inr.inr.inr.inr =>
    rw [if_neg (by omega), if_neg (by omega), if_neg (by omega), if_neg (by omega)] at hl
    rw [utf8Valid, List.headD_cons, hl, if_pos (.inl rfl), charLength_four (by omega)]
    rcases s with _ | ⟨b, _ | ⟨c, _ | ⟨d, s⟩⟩⟩
    case nil            => rfl
    case cons.nil       => rfl
    case cons.cons.nil  => rfl
    case cons.cons.cons => exact (if_neg (by omega)).symm

-- Bytes of one byte.

theorem charLength_one (h : a.toNat < 0x80) : charLength (a :: s) = if isChar a.toNat then 1 else 0 := by
  have hl : lead a = 1 := if_pos h
  rw [charLength_cons, hl]
  refine if_congr (isCharacter_one.trans ?_) rfl rfl
  exact and_iff_right h

theorem charLength_eq_zero_of_ascii (h : a.toNat < 0x80) (hz : charLength (a :: s) = 0) :
    isChar a.toNat = false := by
  rw [charLength_one h] at hz
  by_contra hn
  rw [if_pos (by simpa using hn)] at hz
  exact absurd hz Nat.one_ne_zero

theorem charLength_noncharacter (h : Noncharacter s) : charLength s = 0 := by
  obtain ⟨c, t, rfl, hc⟩ := noncharacter_iff.mp h
  refine (charLength_three (by decide)).trans ?_
  rcases hc with rfl | rfl <;> rfl

theorem encode_ascii {cp : Nat} (h : cp < 0x80) : encode cp = [.ofNat cp] :=
  if_pos h

theorem head_encode {cp : Nat} (hc : isChar cp) (h : ¬cp < 0x80) : ∃ a t, encode cp = a :: t ∧ 0x80 ≤ a.toNat := by
  have hi := isChar_iff.mp hc
  have hle : ∀ {n : Nat}, 0x80 ≤ n → n < 256 → 0x80 ≤ (UInt8.ofNat n).toNat := by
    intro n h h'
    rw [UInt8.toNat_ofNat', Nat.mod_eq_of_lt h']
    exact h
  rw [encode, if_neg h]
  split
  case isTrue => exact ⟨_, _, rfl, hle (by omega) (by omega)⟩
  case isFalse =>
    split
    case isTrue  => exact ⟨_, _, rfl, hle (by omega) (by omega)⟩
    case isFalse => exact ⟨_, _, rfl, hle (by omega) (by omega)⟩

theorem isPlain_of_not_ascii {cp : Nat} (hc : isChar cp) (h : ¬cp < 0x80) : isPlain cp := by
  simp [isPlain, hc]
  omega

theorem uwScan_high (h : 0x80 ≤ a.toNat) : uwScan (a :: s) =
    if charLength (a :: s) = 0 then .replace (ascii ['?']) (· + 1) else .keep (charLength (a :: s)) := by
  have ha : (0x80 : UInt8) ≤ a := UInt8.le_iff_toNat_le.mpr h
  rw [uwScan, List.headD_cons, if_pos ha, uwUtf8Len_eq h, ite_not]

theorem uxScan_high (h : 0x80 ≤ a.toNat) : uxScan (a :: s) =
    if utf8Valid (a :: s) = 0 then .replace (ascii ['?']) fun s => { s with badUtf8 := s.badUtf8 + 1 }
    else .keep (utf8Valid (a :: s)) := by
  have ha : (0x80 : UInt8) ≤ a := UInt8.le_iff_toNat_le.mpr h
  have ha : kEscape a = .highBit := if_pos ha
  rw [uxScan, List.headD_cons, ha]
  simp only [ite_not]

theorem uwScan_ascii (h : a.toNat < 0x80) : uwScan (a :: s) = uwScan [a] := by
  have ha : ¬(0x80 : UInt8) ≤ a := fun hn => Nat.not_lt.mpr (UInt8.le_iff_toNat_le.mp hn) h
  rw [uwScan, uwScan, List.headD_cons, List.headD_cons, if_neg ha, if_neg ha]

theorem uxScan_ascii (h : a.toNat < 0x80) : uxScan (a :: s) = uxScan [a] := by
  have ha : kEscape a ≠ .highBit := by
    rw [kEscape, if_neg fun hn => Nat.not_lt.mpr (UInt8.le_iff_toNat_le.mp hn) h]
    repeat' split
    all_goals simp
  rw [uxScan, uxScan, List.headD_cons, List.headD_cons]
  cases hk : kEscape a
  case highBit => exact absurd hk ha
  all_goals rfl

theorem scansChars_uwScan : ScansChars uwScan id fun _ => True where
  tail _     := trivial
  bad {b s} _ h := by
    by_cases hb : b.toNat < 0x80
    case neg => exact ⟨(· + 1), by rw [uwScan_high (Nat.le_of_not_lt hb), if_pos h], fun _ => rfl⟩
    case pos =>
      have hd : ∀ n < 128, isChar n = false → UwCh.ofClass (uwClassAscii.getD n 0) = .bad := by decide +kernel
      have hc := charLength_eq_zero_of_ascii hb h
      refine ⟨(· + 1), ?_, fun _ => rfl⟩
      have ha : ¬(0x80 : UInt8) ≤ b := fun hn => Nat.not_lt.mpr (UInt8.le_iff_toNat_le.mp hn) hb
      rw [uwScan, List.headD_cons, if_neg ha, hd _ hb hc]
  char {cp s} hc := by
    by_cases h : cp < 0x80
    case neg =>
      have ⟨a, t, he, ha⟩ := head_encode hc h
      have hl := charLength_encode hc s
      have hp := isPlain_of_not_ascii hc h
      rw [he, List.cons_append] at hl ⊢
      refine .inl ⟨hp, ?_⟩
      rw [uwScan_high ha, hl]
      rfl
    case pos =>
      have hd : ∀ n < 128, isChar n →
          (isPlain n ∧ UwCh.ofClass (uwClassAscii.getD (UInt8.ofNat n).toNat 0) = .plain) ∨
          n ∈ [0x26, 0x3C, 0x3E, 0x22, 0x27, 0x9, 0xA, 0xD] := by decide +kernel
      have hn : (UInt8.ofNat cp).toNat = cp := by
        rw [UInt8.toNat_ofNat', Nat.mod_eq_of_lt (by omega)]
      have hlt : (UInt8.ofNat cp).toNat < 0x80 := hn.symm ▸ h
      have ha : ¬(0x80 : UInt8) ≤ .ofNat cp := fun hn => Nat.not_lt.mpr (UInt8.le_iff_toNat_le.mp hn) hlt
      rw [encode_ascii h, List.singleton_append, uwScan_ascii hlt]
      rcases hd cp h hc with ⟨hp, hcls⟩ | hm
      case inl =>
        refine .inl ⟨hp, ?_⟩
        rw [uwScan, List.headD_cons, if_neg ha, hcls]
        rfl
      case inr =>
        simp only [List.mem_cons, List.not_mem_nil, or_false] at hm
        rcases hm with rfl | rfl | rfl | rfl | rfl | rfl | rfl | rfl
        -- The references in the order of the list.
        · exact .inr ⟨rfl, ascii ['a', 'm', 'p'], id, by decide, by decide, rfl, fun _ => rfl⟩
        · exact .inr ⟨rfl, ascii ['l', 't'], id, by decide, by decide, rfl, fun _ => rfl⟩
        · exact .inr ⟨rfl, ascii ['g', 't'], id, by decide, by decide, rfl, fun _ => rfl⟩
        · exact .inr ⟨rfl, ascii ['q', 'u', 'o', 't'], id, by decide, by decide, rfl, fun _ => rfl⟩
        · exact .inr ⟨rfl, ascii ['a', 'p', 'o', 's'], id, by decide, by decide, rfl, fun _ => rfl⟩
        · exact .inr ⟨rfl, ascii ['#', '9'], id, by decide, by decide, rfl, fun _ => rfl⟩
        · exact .inr ⟨rfl, ascii ['#', '1', '0'], id, by decide, by decide, rfl, fun _ => rfl⟩
        · exact .inr ⟨rfl, ascii ['#', '1', '3'], id, by decide, by decide, rfl, fun _ => rfl⟩

theorem uxScan_bad (hn : ¬Noncharacter (b :: s)) (h : charLength (b :: s) = 0) :
    ∃ note, uxScan (b :: s) = .replace (ascii ['?']) note ∧ ∀ n, (note n).total = n.total + 1 := by
  by_cases hb : b.toNat < 0x80
  case neg =>
    have hb := Nat.le_of_not_lt hb
    refine ⟨fun s => { s with badUtf8 := s.badUtf8 + 1 }, ?_, fun n => ?_⟩
    case refine_1 => rw [uxScan_high hb, utf8Valid_eq hb hn, if_pos h]
    case refine_2 =>
      simp only [Sanitize.total]
      omega
  case pos =>
    have hd : ∀ n < 128, isChar n = false → kEscape (.ofNat n) = .control := by decide +kernel
    have hc := hd _ hb <| charLength_eq_zero_of_ascii hb h
    rw [UInt8.ofNat_toNat] at hc
    refine ⟨fun s => { s with controlChars := s.controlChars + 1 }, ?_, fun n => ?_⟩
    case refine_1 => rw [uxScan, List.headD_cons, hc]
    case refine_2 =>
      simp only [Sanitize.total]
      omega

theorem scansChars_uxScan : ScansChars uxScan Sanitize.total (¬HasNoncharacter ·) where
  tail h     := fun hs => h <| hasNoncharacter_cons.mpr <| .inr hs
  bad hok h  := uxScan_bad (fun hn => hok <| hasNoncharacter_cons.mpr <| .inl hn) h
  char {cp s} hc := by
    by_cases h : cp < 0x80
    case neg =>
      have ⟨a, t, he, ha⟩ := head_encode hc h
      have hl := charLength_encode hc s
      have hp := isPlain_of_not_ascii hc h
      rw [he, List.cons_append] at hl ⊢
      have hn : ¬Noncharacter (a :: (t ++ s)) := fun hn => by
        rw [charLength_noncharacter hn] at hl
        exact absurd hl.symm (Nat.succ_ne_zero _)
      refine .inl ⟨hp, ?_⟩
      rw [uxScan_high ha, utf8Valid_eq ha hn, hl]
      rfl
    case pos =>
      have hd : ∀ n < 128, isChar n → (isPlain n ∧ kEscape (.ofNat n) = .pass) ∨
          n ∈ [0x26, 0x3C, 0x3E, 0x22, 0x9, 0xA, 0xD] := by decide +kernel
      have hn : (UInt8.ofNat cp).toNat = cp := by
        rw [UInt8.toNat_ofNat', Nat.mod_eq_of_lt (by omega)]
      have hlt : (UInt8.ofNat cp).toNat < 0x80 := hn.symm ▸ h
      rw [encode_ascii h, List.singleton_append, uxScan_ascii hlt]
      rcases hd cp h hc with ⟨hp, hcls⟩ | hm
      case inl =>
        refine .inl ⟨hp, ?_⟩
        rw [uxScan, List.headD_cons, hcls]
        rfl
      case inr =>
        simp only [List.mem_cons, List.not_mem_nil, or_false] at hm
        rcases hm with rfl | rfl | rfl | rfl | rfl | rfl | rfl
        -- The references in the order of the list.
        · exact .inr ⟨rfl, ascii ['a', 'm', 'p'], id, by decide, by decide, rfl, fun _ => rfl⟩
        · exact .inr ⟨rfl, ascii ['l', 't'], id, by decide, by decide, rfl, fun _ => rfl⟩
        · exact .inr ⟨rfl, ascii ['g', 't'], id, by decide, by decide, rfl, fun _ => rfl⟩
        · exact .inr ⟨rfl, ascii ['q', 'u', 'o', 't'], id, by decide, by decide, rfl, fun _ => rfl⟩
        · exact .inr ⟨rfl, ascii ['#', 'x', '9'], id, by decide, by decide, rfl, fun _ => rfl⟩
        · exact .inr ⟨rfl, ascii ['#', 'x', 'A'], id, by decide, by decide, rfl, fun _ => rfl⟩
        · exact .inr ⟨rfl, ascii ['#', 'x', 'D'], id, by decide, by decide, rfl, fun _ => rfl⟩

-- What the C++ writer does with the two code points.

theorem illegal_noncharacter {c : UInt8} (hc : c = 0xBE ∨ c = 0xBF) :
    illegal (0xEF :: 0xBF :: c :: s) = illegal s + 3 := by
  have h₁ : charLength (0xEF :: 0xBF :: c :: s) = 0 :=
    charLength_noncharacter <| noncharacter_iff.mpr ⟨c, s, rfl, hc⟩
  have h₂ : charLength (0xBF :: c :: s) = 0 := (charLength_two (by decide)).trans rfl
  have h₃ : charLength (c :: s) = 0 := by
    rcases hc with rfl | rfl
    all_goals
      refine (charLength_two (by decide)).trans ?_
      cases s <;> rfl
  rw [illegal_bad h₁, illegal_bad h₂, illegal_bad h₃]

theorem uxScan_noncharacter {c : UInt8} (hc : c = 0xBE ∨ c = 0xBF) :
    uxScan (0xEF :: 0xBF :: c :: s) = .keep 3 := by
  have hv : utf8Valid (0xEF :: 0xBF :: c :: s) = 3 := by
    have hl : ¬(0xEF :: 0xBF :: c :: s).length < 3 := by simp
    have ht : ([0xBF, c].any fun b => decide (b &&& 0xC0 ≠ 0x80)) = false := by
      rcases hc with rfl | rfl <;> decide
    rw [utf8Valid]
    have hz : ¬utf8Len 0xEF = 0 := by decide
    refine (if_neg (not_or.mpr ⟨hz, hl⟩)).trans ?_
    exact (if_neg (Bool.eq_false_iff.mp ht)).trans rfl
  rw [uxScan_high (by decide), hv]
  rfl

theorem tail_encode {cp : Nat} : ∀ b ∈ (encode cp).tail, b ≠ 0xEF := by
  have hlt : ∀ n : Nat, UInt8.ofNat (0x80 + n % 64) ≠ 0xEF := by
    intro n
    simp only [ne_eq, ← UInt8.toNat_inj, UInt8.toNat_ofNat', UInt8.reduceToNat]
    omega
  rw [encode]
  repeat' split
  all_goals
    simp only [List.tail_cons, List.forall_mem_cons, hlt, ne_eq, not_false_eq_true, true_and, List.not_mem_nil,
      false_implies, implies_true]

theorem hasNoncharacter_append {c : List UInt8} (h : ∀ b ∈ c, b ≠ 0xEF) :
    HasNoncharacter (c ++ s) ↔ HasNoncharacter s := by
  induction c with
  | nil         => rfl
  | cons b c hi =>
    rw [List.cons_append, hasNoncharacter_cons, hi fun b hb => h b (.tail _ hb), or_iff_right]
    intro hn
    have ⟨_, _, he, _⟩ := noncharacter_iff.mp hn
    exact h b (.head _) (List.cons.inj he).left

theorem hasNoncharacter_char {cp : Nat} (h : isChar cp) : HasNoncharacter (encode cp ++ s) ↔ HasNoncharacter s := by
  have hl := charLength_encode h s
  have ht := @tail_encode cp
  cases he : encode cp with
  | nil      => exact absurd he (encode_ne_nil cp)
  | cons a t =>
    rw [he] at hl ht
    rw [List.cons_append] at hl ⊢
    have ht : ∀ b ∈ t, b ≠ 0xEF := ht
    rw [hasNoncharacter_cons, hasNoncharacter_append ht, or_iff_right]
    intro hn
    rw [charLength_noncharacter hn] at hl
    exact absurd hl.symm (Nat.succ_ne_zero _)

theorem not_hasNoncharacter_nil : ¬HasNoncharacter [] := by
  simp [HasNoncharacter]

-- They are left out of the count of what is replaced.
theorem total_escapeFrom {fuel : Nat} (hf : s.length ≤ fuel) (e : Escaped Sanitize) :
    (escapeFrom uxScan fuel s e).notes.total ≤ e.notes.total + illegal s ∧
    (HasNoncharacter s → (escapeFrom uxScan fuel s e).notes.total < e.notes.total + illegal s) := by
  induction fuel generalizing s e with
  | zero         =>
    rw [List.length_eq_zero_iff.mp (Nat.le_zero.mp hf)]
    exact ⟨Nat.le_refl _, fun h => absurd h not_hasNoncharacter_nil⟩
  | succ fuel hi =>
    by_cases hs : s = []
    case pos =>
      rw [hs, escapeFrom, if_pos rfl]
      exact ⟨Nat.le_refl _, fun h => absurd h not_hasNoncharacter_nil⟩
    case neg =>
      rw [escapeFrom, if_neg hs]
      by_cases hn : Noncharacter s
      case pos =>
        obtain ⟨c, t, rfl, hc⟩ := noncharacter_iff.mp hn
        rw [uxScan_noncharacter hc, illegal_noncharacter hc]
        simp only [List.length_cons] at hf
        have hi := (@hi t (by omega) (e.write [0xEF, 0xBF, c])).left
        simp only [List.drop_succ_cons, List.drop_zero, List.take_succ_cons, List.take_zero]
        have hw : (e.write [0xEF, 0xBF, c]).notes = e.notes := rfl
        rw [hw] at hi
        exact ⟨by omega, fun _ => by omega⟩
      case neg =>
        by_cases hc : charLength s = 0
        case pos =>
          cases s with
          | nil      => exact absurd rfl hs
          | cons b s =>
            obtain ⟨note, hs, hnote⟩ := uxScan_bad hn hc
            rw [hs, illegal_bad hc, hasNoncharacter_cons, or_iff_right hn]
            have hi := @hi s (Nat.le_of_succ_le_succ hf) { e.write (ascii ['?']) with notes := note e.notes }
            simp only [hnote] at hi
            exact ⟨by have := hi.left; simp only [List.tail_cons]; omega,
              fun h => by have := hi.right h; simp only [List.tail_cons]; omega⟩
        case neg =>
          obtain ⟨cp, t, hcp, rfl⟩ := exists_of_charLength hc
          rw [illegal_char hcp, hasNoncharacter_char hcp]
          have hl := List.length_pos_iff.mpr (encode_ne_nil cp)
          rw [List.length_append] at hf
          have hf : t.length ≤ fuel := by omega
          rcases scansChars_uxScan.char (s := t) hcp with ⟨_, hs⟩ | ⟨hlen, body, note, _, _, hs, hnote⟩
          case inl =>
            simp only [hs, List.drop_left]
            exact @hi t hf _
          case inr =>
            have htail : (encode cp ++ t).tail = t := by
              obtain ⟨a, ha⟩ := List.length_eq_one_iff.mp hlen
              rw [ha]
              rfl
            have hi := @hi t hf { e.write ('&'.toUInt8 :: (body ++ [';'.toUInt8])) with notes := note e.notes }
            simp only [hnote] at hi
            simp only [hs, htail]
            exact hi

end

-- What a writer makes of bytes.
structure EscapedExactly (s out : List UInt8) (n : Nat) : Prop where
  text     : unescape out = some (sanitize s)
  warnings : n = illegal s
  legal    : Legal s → unescape out = some s

theorem escapedExactly {s out : List UInt8} {n : Nat} (ht : unescape out = some (sanitize s))
    (hw : n = illegal s) : EscapedExactly s out n where
  text      := ht
  warnings  := hw
  legal h   := by rw [ht, (sanitize_of_legal h).left]

structure EscapedAlike (s : List UInt8) : Prop where
  uw    : let e := uwTextEscape s 0
    EscapedExactly s e.out e.notes
  ux    : let e := writeEscaped s {}
    EscapedExactly s e.out e.notes.total
  alike : unescape (uwTextEscape s 0).out = unescape (writeEscaped s {}).out

theorem escapedAlike_iff (s : List UInt8) : EscapedAlike s ↔
    ¬([0xEF, 0xBF, 0xBE] <:+: s ∨ [0xEF, 0xBF, 0xBF] <:+: s) := by
  constructor
  case mp =>
    intro h hn
    have ht := (total_escapeFrom (Nat.le_refl _) ⟨[], {}⟩).right hn
    have hw := h.ux.warnings
    rw [writeEscaped, escapeWith_eq] at hw
    rw [hw] at ht
    exact absurd ht (by simp [Sanitize.total])
  case mpr =>
    intro h
    have ⟨ht, hw⟩ := scansChars_uwScan.escapeWith_exact (s := s) trivial 0
    have ⟨ht', hw'⟩ := scansChars_uxScan.escapeWith_exact h {}
    exact {
      uw    := escapedExactly ht (hw.trans (Nat.zero_add _))
      ux    := escapedExactly ht' (hw'.trans (Nat.zero_add _))
      alike := ht.trans ht'.symm
    }

-- The code point 0xFFFE is not a character of XML, but goes through.
theorem noncharacter_kept : (writeEscaped [0xEF, 0xBF, 0xBE] {}).out = [0xEF, 0xBF, 0xBE] ∧
    unescape [0xEF, 0xBF, 0xBE] = none ∧ (uwTextEscape [0xEF, 0xBF, 0xBE] 0).out = ascii ['?', '?', '?'] ∧
    ¬EscapedAlike [0xEF, 0xBF, 0xBE] := by
  refine ⟨by decide +kernel, by decide +kernel, by decide +kernel, fun h => ?_⟩
  have hw := h.ux.warnings
  exact absurd hw (by decide +kernel)
