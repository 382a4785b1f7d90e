import Covsight.Lib.Interning
import Mathlib.Data.Int.Basic
import Mathlib.Data.Nat.Log
import Mathlib.Tactic.Ring

-- The values of JavaScript: numbers, which are doubles, and strings, which need not be text.

-- The distance between doubles next to a natural number.
def doubleUnit (n : Nat) : Nat :=
  2 ^ (n.log2 + 1 - 53)

-- Rounding to 53 bits, to the even one of two that are as near.
def roundDouble (n : Nat) : Nat :=
  let q := n / doubleUnit n
  let r := n % doubleUnit n
  if 2 * r < doubleUnit n ∨ 2 * r = doubleUnit n ∧ q % 2 = 0 then
    q * doubleUnit n
  else
    (q + 1) * doubleUnit n

-- An integer that is a double: it takes no rounding and lies below 2 ^ 1024.
def IsDouble (n : Int) : Prop :=
  roundDouble n.natAbs = n.natAbs ∧ n.natAbs.log2 < 1024

instance : DecidablePred IsDouble :=
  fun _ => inferInstanceAs (Decidable (_ ∧ _))

theorem doubleUnit_pos (n : Nat) : 0 < doubleUnit n :=
  Nat.two_pow_pos _

theorem roundDouble_of_dvd {n : Nat} (h : doubleUnit n ∣ n) : roundDouble n = n := by
  have hr : n % doubleUnit n = 0 := Nat.mod_eq_zero_of_dvd h
  have hp := doubleUnit_pos n
  rw [roundDouble, hr, if_pos (.inl (by omega)), Nat.div_mul_cancel h]

theorem doubleUnit_of_lt {n : Nat} (h : n < 2 ^ 53) : doubleUnit n = 1 := by
  rw [doubleUnit]
  by_cases hn : n = 0
  case pos => subst hn; rfl
  case neg =>
    have hl : n.log2 < 53 := (Nat.log2_lt hn).mpr h
    have he : n.log2 + 1 - 53 = 0 := by omega
    rw [he]
    rfl

theorem roundDouble_of_lt {n : Nat} (h : n < 2 ^ 53) : roundDouble n = n :=
  roundDouble_of_dvd <| doubleUnit_of_lt h ▸ Nat.one_dvd n

-- What a number is rounded to is a multiple of the unit with at most 53 bits before it.
theorem roundDouble_eq_mul (n : Nat) : ∃ q, roundDouble n = q * doubleUnit n ∧ q ≤ 2 ^ 53 := by
  have hq : n / doubleUnit n < 2 ^ 53 := by
    rw [Nat.div_lt_iff_lt_mul (doubleUnit_pos n), doubleUnit, ← Nat.pow_add]
    exact Nat.lt_of_lt_of_le Nat.lt_log2_self (Nat.pow_le_pow_right (by omega) (by omega))
  rw [roundDouble]
  split
  case isTrue => exact ⟨_, rfl, Nat.le_of_lt hq⟩
  case isFalse => exact ⟨_, rfl, hq⟩

theorem doubleUnit_dvd_mul {q k : Nat} (hq : q ≤ 2 ^ 53) : doubleUnit (q * 2 ^ k) ∣ q * 2 ^ k := by
  by_cases hz : q = 0
  case pos => simp [hz]
  case neg =>
    have hn : q * 2 ^ k ≠ 0 := Nat.mul_ne_zero hz (Nat.two_pow_pos k).ne'
    by_cases he : q = 2 ^ 53
    case pos =>
      rw [he, ← Nat.pow_add, doubleUnit, Nat.log2_two_pow]
      exact Nat.pow_dvd_pow 2 (by omega)
    case neg =>
      have hl : (q * 2 ^ k).log2 < 53 + k := by
        rw [Nat.log2_lt hn, Nat.pow_add]
        exact Nat.mul_lt_mul_of_pos_right (by omega) (Nat.two_pow_pos k)
      exact Dvd.dvd.mul_left (Nat.pow_dvd_pow 2 (by omega)) q

theorem roundDouble_roundDouble (n : Nat) : roundDouble (roundDouble n) = roundDouble n := by
  have ⟨q, he, hq⟩ := roundDouble_eq_mul n
  rw [he, doubleUnit]
  exact roundDouble_of_dvd (doubleUnit_dvd_mul hq)

theorem isDouble_of_lt {n : Int} (h : n.natAbs < 2 ^ 53) : IsDouble n := by
  refine ⟨roundDouble_of_lt h, ?_⟩
  by_cases hn : n.natAbs = 0
  case pos => rw [hn, Nat.log2_zero]; omega
  case neg => exact Nat.lt_trans ((Nat.log2_lt hn).mpr h) (by omega)

def roundInt (n : Int) : Int :=
  n.sign * roundDouble n.natAbs

theorem natAbs_roundInt (n : Int) : (roundInt n).natAbs = roundDouble n.natAbs := by
  rw [roundInt, Int.natAbs_mul, Int.natAbs_natCast]
  by_cases hn : n = 0
  case pos => subst hn; rfl
  case neg => rw [Int.natAbs_sign_of_ne_zero hn, Nat.one_mul]

theorem isDouble_roundInt {n : Int} (h : (roundDouble n.natAbs).log2 < 1024) :
    IsDouble (roundInt n) := by
  rw [IsDouble, natAbs_roundInt]
  exact ⟨roundDouble_roundDouble _, h⟩

theorem roundInt_of_isDouble {n : Int} (h : IsDouble n) : roundInt n = n := by
  rw [roundInt, h.left, Int.sign_mul_natAbs]

-- All doubles are multiples of 2 ^ -1074.
def stepsOfOne : Nat :=
  2 ^ 1074

theorem stepsOfOne_pos : 0 < stepsOfOne := by
  unfold stepsOfOne
  exact pow_pos two_pos 1074

-- What is no integer is told by its steps.
def IsFraction (steps : Int) : Prop :=
  ¬(stepsOfOne : Int) ∣ steps ∧ roundDouble steps.natAbs = steps.natAbs

inductive JsNumber
  | integer (n : Int) (isDouble : IsDouble n)
  | fraction (steps : Int) (isFraction : IsFraction steps)
  | infinity (negative : Bool)
  | nan
  deriving DecidableEq

namespace JsNumber

def toInt : JsNumber → Option Int
  | integer n _ => some n
  | _           => none

-- The number that a bigint is turned into; a large one becomes an infinity.
def ofBigInt (n : Int) : JsNumber :=
  if h : (roundDouble n.natAbs).log2 < 1024 then integer (roundInt n) (isDouble_roundInt h) else infinity (n < 0)

theorem isFraction_roundInt {steps : Int} (h : ¬(stepsOfOne : Int) ∣ roundInt steps) : IsFraction (roundInt steps) := by
  rw [IsFraction, natAbs_roundInt]
  exact ⟨h, roundDouble_roundDouble _⟩

-- The double that is nearest to some steps.
def ofSteps (steps : Int) : JsNumber :=
  if h : (stepsOfOne : Int) ∣ roundInt steps then
    ofBigInt (roundInt steps / stepsOfOne)
  else
    fraction (roundInt steps) (isFraction_roundInt h)

def steps : JsNumber → Int
  | integer n _      => n * stepsOfOne
  | fraction steps _ => steps
  | _                => 0

def neg : JsNumber → JsNumber
  | integer n _      => ofBigInt (-n)
  | fraction steps _ => ofSteps (-steps)
  | infinity s       => infinity !s
  | nan              => nan

def add : JsNumber → JsNumber → JsNumber
  | nan,        _           => nan
  | _,          nan         => nan
  | infinity s, infinity s' => if s = s' then infinity s else nan
  | infinity s, _           => infinity s
  | _,          infinity s  => infinity s
  | x,          y           => ofSteps (x.steps + y.steps)

def sub (x y : JsNumber) : JsNumber :=
  x.add y.neg

def isPositive : JsNumber → Bool
  | infinity s => !s
  | x          => 0 < x.steps

-- There is no least number if one is no number.
def min (x y : JsNumber) : JsNumber :=
  if x = nan ∨ y = nan then nan else if (x.sub y).isPositive then y else x

-- What is left without the fraction.
def trunc : JsNumber → Int
  | integer n _      => n
  | fraction steps _ => steps.tdiv stepsOfOne
  | _                => 0

def zero : JsNumber :=
  integer 0 (by decide)

def one : JsNumber :=
  integer 1 (by decide)

def minusOne : JsNumber :=
  integer (-1) (by decide)

theorem toInt_zero : zero.toInt = some 0 :=
  rfl

theorem toInt_one : one.toInt = some 1 :=
  rfl

theorem toInt_minusOne : minusOne.toInt = some (-1) :=
  rfl

theorem toInt_inj {x y : JsNumber} {n : Int} (hx : x.toInt = some n) (hy : y.toInt = some n) :
    x = y := by
  cases x <;> cases y <;> simp_all [toInt]

theorem toInt_ofBigInt_iff {n : Int} : (ofBigInt n).toInt = some n ↔ IsDouble n := by
  rw [ofBigInt]
  split
  case isTrue h =>
    simp only [toInt, Option.some.injEq]
    exact ⟨fun he => he ▸ isDouble_roundInt h, roundInt_of_isDouble⟩
  case isFalse h =>
    refine ⟨nofun, fun hn => absurd ?_ h⟩
    rw [hn.left]
    exact hn.right

theorem isDouble_of_toInt {x : JsNumber} {n : Int} (h : x.toInt = some n) : IsDouble n := by
  cases x with
  | integer n hn  => exact Option.some.inj h ▸ hn
  | fraction      => cases h
  | infinity      => cases h
  | nan           => cases h

theorem ofBigInt_of_toInt {x : JsNumber} {n : Int} (h : x.toInt = some n) : ofBigInt n = x :=
  toInt_inj (toInt_ofBigInt_iff.mpr (isDouble_of_toInt h)) h

-- Arithmetic on integers with no more than 53 bits is exact.

section Exact

variable {x y : JsNumber} {m n : Int}

theorem toInt_ofSteps (h : n.natAbs < 2 ^ 53) : (ofSteps (n * stepsOfOne)).toInt = some n := by
  have hr : roundInt (n * stepsOfOne) = n * stepsOfOne := by
    have hd : roundDouble (n * stepsOfOne).natAbs = (n * stepsOfOne).natAbs := by
      rw [Int.natAbs_mul, Int.natAbs_natCast]
      exact roundDouble_of_dvd (doubleUnit_dvd_mul h.le)
    rw [roundInt, hd, Int.sign_mul_natAbs]
  have hdvd : (stepsOfOne : Int) ∣ roundInt (n * stepsOfOne) := by
    rw [hr]
    exact Int.dvd_mul_left n stepsOfOne
  rw [ofSteps, dif_pos hdvd, hr, Int.mul_ediv_cancel n (Int.natCast_pos.mpr stepsOfOne_pos).ne']
  exact toInt_ofBigInt_iff.mpr (isDouble_of_lt h)

theorem toInt_add (hx : x.toInt = some m) (hy : y.toInt = some n) (h : (m + n).natAbs < 2 ^ 53) :
    (x.add y).toInt = some (m + n) := by
  have he : x.add y = ofSteps (m * stepsOfOne + n * stepsOfOne) := by
    cases x with
    | integer =>
      cases y with
      | integer   => rw [← Option.some.inj hx, ← Option.some.inj hy]; rfl
      | fraction  => cases hy
      | infinity  => cases hy
      | nan       => cases hy
    | fraction  => cases hx
    | infinity  => cases hx
    | nan       => cases hx
  rw [he, ← Int.add_mul]
  exact toInt_ofSteps h

theorem isDouble_neg (h : IsDouble n) : IsDouble (-n) := by
  rwa [IsDouble, Int.natAbs_neg]

theorem toInt_neg (h : x.toInt = some n) : x.neg.toInt = some (-n) := by
  cases x with
  | integer k hk  => exact Option.some.inj h ▸ toInt_ofBigInt_iff.mpr (isDouble_neg hk)
  | fraction      => cases h
  | infinity      => cases h
  | nan           => cases h

theorem toInt_sub (hx : x.toInt = some m) (hy : y.toInt = some n) (h : (m - n).natAbs < 2 ^ 53) :
    (x.sub y).toInt = some (m - n) :=
  toInt_add hx (toInt_neg hy) h

theorem isPositive_iff (h : x.toInt = some n) : x.isPositive ↔ 0 < n := by
  have hpos : (0 : Int) < stepsOfOne := Int.natCast_pos.mpr stepsOfOne_pos
  cases x with
  | integer       =>
    rw [← Option.some.inj h]
    exact decide_eq_true_iff.trans ⟨fun h => Int.pos_of_mul_pos_left h hpos, fun h => Int.mul_pos h hpos⟩
  | fraction      => cases h
  | infinity      => cases h
  | nan           => cases h

theorem ne_nan_of_toInt (h : x.toInt = some n) : x ≠ nan :=
  fun he => nomatch (he ▸ h : nan.toInt = some n)

theorem toInt_min (hx : x.toInt = some m) (hy : y.toInt = some n) (h : (m - n).natAbs < 2 ^ 53) :
    (x.min y).toInt = some (Min.min m n) := by
  have hs := isPositive_iff (toInt_sub hx hy h)
  rw [JsNumber.min, if_neg (not_or.mpr ⟨ne_nan_of_toInt hx, ne_nan_of_toInt hy⟩)]
  split
  case isTrue hp  => rw [hy, Int.min_eq_right (by have := hs.mp hp; omega)]
  case isFalse hp => rw [hx, Int.min_eq_left (by have := hs.not.mp hp; omega)]

theorem trunc_of_toInt (h : x.toInt = some n) : x.trunc = n := by
  cases x with
  | integer       => exact Option.some.inj h
  | fraction      => cases h
  | infinity      => cases h
  | nan           => cases h

end Exact

end JsNumber

-- A string is made of characters and of surrogates that are no half of a character.
inductive JsChar
  | char (c : Char)
  | surrogate (unit : UInt16)
  deriving DecidableEq

abbrev JsString := List JsChar

instance : LawfulBEq JsString := inferInstance

def JsString.ofString (s : String) : JsString :=
  s.toList.map .char

def JsChar.toChar : JsChar → Char
  | char c      => c
  | surrogate _ => '\uFFFD'

-- The encoder of text puts a replacement for a lone surrogate.
def textEncode (s : JsString) : String :=
  String.ofList (s.map JsChar.toChar)

-- The decoder of text takes a byte order mark off the front.
def textDecode (s : String) : JsString :=
  match s.toList with
  | []      => []
  | c :: cs => if c = '\uFEFF' then cs.map .char else (c :: cs).map .char

namespace JsString

-- A string that encoding and decoding leave as it is.
def IsText (s : JsString) : Prop :=
  textDecode (textEncode s) = s

theorem ofString_injective : Function.Injective ofString := by
  intro s s' h
  have hl := List.map_injective_iff.mpr (fun _ _ => JsChar.char.inj) h
  exact String.toList_inj.mp hl

theorem textDecode_eq_ofString_iff {s : String} :
    textDecode s = ofString s ↔ s.toList.head? ≠ some '\uFEFF' := by
  rw [textDecode, ofString]
  split
  case h_1 hs => simp [hs]
  case h_2 c cs hs =>
    rw [hs]
    split
    case isTrue hc =>
      constructor
      case mp => exact fun h => absurd (congrArg List.length h) (by simp)
      case mpr => exact fun h => absurd (congrArg some hc) h
    case isFalse hc => simp [hc]

-- What a decoder gives is no longer than the text, and shorter only without the mark.
theorem ofString_textEncode {s : JsString} (h : s.IsText) : ofString (textEncode s) = s := by
  have hl : (textEncode s).toList.length = s.length := by simp [textEncode]
  have hd : textDecode (textEncode s) = s := h
  rw [textDecode] at hd
  rw [ofString]
  split at hd
  case h_1 hs =>
    rw [hs, ← hd]
    rfl
  case h_2 c cs hs =>
    split at hd
    case isTrue =>
      have := congrArg List.length hd
      rw [hs] at hl
      simp at this hl
      omega
    case isFalse => rw [hs, hd]

theorem isText_iff {s : JsString} :
    s.IsText ↔ ∃ t, s = ofString t ∧ t.toList.head? ≠ some '\uFEFF' where
  mp h := by
    have ho := ofString_textEncode h
    refine ⟨textEncode s, ho.symm, textDecode_eq_ofString_iff.mp ?_⟩
    exact Eq.trans h ho.symm
  mpr := by
    intro ⟨t, hs, hb⟩
    have he : textEncode (ofString t) = t := by simp [textEncode, ofString, JsChar.toChar, Function.comp_def]
    subst hs
    rw [IsText, he]
    exact textDecode_eq_ofString_iff.mpr hb

end JsString
