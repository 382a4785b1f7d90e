import Mathlib.Tactic.Common

-- The texts that JSON.parse takes and the values they stand for. A text and a string are given by
-- their code units, a number by its digits.

inductive Json
  | null
  | bool (b : Bool)
  | number (lexeme : List UInt16)
  | string (s : List UInt16)
  | array (elements : List Json)
  | object (members : List (List UInt16 × Json))

namespace Json

-- The code units of a text of the basic plane.
def units (s : String) : List UInt16 :=
  s.toList.map fun c => UInt16.ofNat c.toNat

def unit (c : Char) : UInt16 :=
  UInt16.ofNat c.toNat

def isSpace (u : UInt16) : Bool :=
  u ∈ units " \t\n\r"

def isDigit (u : UInt16) : Bool :=
  unit '0' ≤ u ∧ u ≤ unit '9'

def skipSpace (text : List UInt16) : List UInt16 :=
  text.dropWhile isSpace

-- Takes a word off the front.
def skipWord : (word text : List UInt16) → Option (List UInt16)
  | [],     text    => some text
  | _ :: _, []      => none
  | w :: ws, u :: us => if w = u then skipWord ws us else none

def hexDigit (u : UInt16) : Option UInt16 :=
  if isDigit u then some (u - unit '0')
  else if unit 'a' ≤ u ∧ u ≤ unit 'f' then some (u - unit 'a' + 10)
  else if unit 'A' ≤ u ∧ u ≤ unit 'F' then some (u - unit 'A' + 10)
  else none

-- The code unit that a letter after a backslash stands for.
def escape (u : UInt16) : Option UInt16 :=
  if u ∈ units "\"\\/" then some u
  else if u = unit 'b' then some 8
  else if u = unit 'f' then some 12
  else if u = unit 'n' then some 10
  else if u = unit 'r' then some 13
  else if u = unit 't' then some 9
  else none

def escapeHex : List UInt16 → Option (UInt16 × List UInt16)
  | a :: b :: c :: d :: us => do
    let a ← hexDigit a
    let b ← hexDigit b
    let c ← hexDigit c
    let d ← hexDigit d
    return (((a * 16 + b) * 16 + c) * 16 + d, us)
  | _                      => none

-- One code unit of a string and what is left of the text.
def parseUnit : List UInt16 → Option (UInt16 × List UInt16)
  | []           => none
  | u :: us      =>
    if u = unit '\\' then
      match us with
      | []      => none
      | e :: us => if e = unit 'u' then escapeHex us else (escape e).map fun u => (u, us)
    else if u < unit ' ' then
      none
    else
      some (u, us)

-- A string after its opening quote.
def parseString : (fuel : Nat) → List UInt16 → Option (List UInt16 × List UInt16)
  | 0,        _    => none
  | fuel + 1, text =>
    if text.head? = some (unit '"') then
      some ([], text.tail)
    else do
      let (u, text) ← parseUnit text
      let (s, text) ← parseString fuel text
      return (u :: s, text)

-- At least one digit.
def parseDigits (text : List UInt16) : Option (List UInt16 × List UInt16) :=
  let digits := text.takeWhile isDigit
  if digits.isEmpty then none else some (digits, text.dropWhile isDigit)

-- A zero stands alone.
def parseInteger : List UInt16 → Option (List UInt16 × List UInt16)
  | []      => none
  | u :: us => if u = unit '0' then some ([u], us) else parseDigits (u :: us)

-- A part of a number that starts with one of some code units, if it is there.
def parsePart (starts : List UInt16) (part : List UInt16 → Option (List UInt16 × List UInt16)) :
    List UInt16 → Option (List UInt16 × List UInt16)
  | []      => some ([], [])
  | u :: us =>
    if u ∈ starts then (part us).map fun (digits, rest) => (u :: digits, rest) else some ([], u :: us)

def parseExponent (text : List UInt16) : Option (List UInt16 × List UInt16) := do
  let (sign, text) ← parsePart (units "+-") (fun text => some ([], text)) text
  let (digits, text) ← parseDigits text
  return (sign ++ digits, text)

def parseNumber (text : List UInt16) : Option (List UInt16 × List UInt16) := do
  let (sign, text) ← parsePart (units "-") (fun text => some ([], text)) text
  let (whole, text) ← parseInteger text
  let (fraction, text) ← parsePart (units ".") parseDigits text
  let (exponent, text) ← parsePart (units "eE") parseExponent text
  return (sign ++ whole ++ fraction ++ exponent, text)

mutual

def parseValue : (fuel : Nat) → List UInt16 → Option (Json × List UInt16)
  | 0,        _    => none
  | fuel + 1, text =>
    match skipSpace text with
    | []      => none
    | u :: us =>
      if u = unit '"' then
        (parseString (us.length + 1) us).map fun (s, us) => (string s, us)
      else if u = unit '[' then
        if (skipSpace us).head? = some (unit ']') then
          some (array [], (skipSpace us).tail)
        else
          (parseElements fuel us).map fun (elements, us) => (array elements, us)
      else if u = unit '{' then
        if (skipSpace us).head? = some (unit '}') then
          some (object [], (skipSpace us).tail)
        else
          (parseMembers fuel us).map fun (members, us) => (object members, us)
      else if u = unit 't' then
        (skipWord (units "rue") us).map fun us => (bool true, us)
      else if u = unit 'f' then
        (skipWord (units "alse") us).map fun us => (bool false, us)
      else if u = unit 'n' then
        (skipWord (units "ull") us).map fun us => (null, us)
      else
        (parseNumber (u :: us)).map fun (lexeme, us) => (number lexeme, us)

-- The elements of an array that has some, and its closing bracket.
def parseElements : (fuel : Nat) → List UInt16 → Option (List Json × List UInt16)
  | 0,        _    => none
  | fuel + 1, text => do
    let (element, text) ← parseValue fuel text
    match skipSpace text with
    | []      => none
    | u :: us =>
      if u = unit ',' then
        (parseElements fuel us).map fun (elements, us) => (element :: elements, us)
      else if u = unit ']' then
        some ([element], us)
      else
        none

def parseMembers : (fuel : Nat) → List UInt16 → Option (List (List UInt16 × Json) × List UInt16)
  | 0,        _    => none
  | fuel + 1, text => do
    let text ← skipWord (units "\"") (skipSpace text)
    let (key, text) ← parseString (text.length + 1) text
    let text ← skipWord (units ":") (skipSpace text)
    let (value, text) ← parseValue fuel text
    match skipSpace text with
    | []      => none
    | u :: us =>
      if u = unit ',' then
        (parseMembers fuel us).map fun (members, us) => ((key, value) :: members, us)
      else if u = unit '}' then
        some ([(key, value)], us)
      else
        none

end

-- Each step takes at least one code unit, so that the length of the text is enough.
def parse (text : List UInt16) : Option Json := do
  let (value, rest) ← parseValue (text.length + 1) text
  if (skipSpace rest).isEmpty then some value else none

-- The member of an object; a later one replaces an earlier one of its name.
def member? (name : String) : Json → Option Json
  | object members => (members.reverse.find? (·.fst = units name)).map Prod.snd
  | _              => none

-- What a text can start with.
def Starts (u : UInt16) : Prop :=
  isSpace u ∨ isDigit u ∨ u ∈ units "\"[\x7btfn-"

instance : DecidablePred Starts :=
  fun _ => inferInstanceAs (Decidable (_ ∨ _))

variable {text : List UInt16} {u : UInt16}

theorem starts_of_parseNumber {x : List UInt16 × List UInt16} (h : parseNumber (u :: text) = some x) :
    u = unit '-' ∨ isDigit u := by
  simp only [parseNumber, Option.bind_eq_bind, Option.bind_eq_some_iff, Prod.exists] at h
  have ⟨sign, rest, hs, whole, _, hw, _⟩ := h
  rw [parsePart] at hs
  split at hs
  case isTrue hu => exact .inl (List.mem_singleton.mp hu)
  case isFalse   =>
    cases hs
    rw [parseInteger] at hw
    split at hw
    case isTrue hu  => exact .inr (hu ▸ rfl)
    case isFalse    =>
      rw [parseDigits] at hw
      refine .inr (by_contra fun hd => ?_)
      simp [hd] at hw

-- A text that is taken starts with white space or with the first code unit of a value.
theorem starts_of_parse {value : Json} (h : parse (u :: text) = some value) : Starts u := by
  by_contra hs
  have ⟨hspace, hs⟩ := not_or.mp hs
  have ⟨hdigit, hfirst⟩ := not_or.mp hs
  have hne : ∀ c ∈ "\"[\x7btfn-".toList, u ≠ unit c :=
    fun c hc he => hfirst (he ▸ List.mem_map_of_mem hc)
  simp only [parse, Option.bind_eq_bind, Option.bind_eq_some_iff, Prod.exists] at h
  have ⟨_, _, hv, _⟩ := h
  rw [parseValue, skipSpace, List.dropWhile_cons_of_neg hspace] at hv
  simp only [hne '"' (by decide), hne '[' (by decide), hne '{' (by decide), hne 't' (by decide),
    hne 'f' (by decide), hne 'n' (by decide), if_false, Option.map_eq_some_iff] at hv
  have ⟨_, hp, _⟩ := hv
  cases starts_of_parseNumber hp
  case inl hu => exact hne '-' (by decide) hu
  case inr hu => exact hdigit hu

end Json
