import Covsight.Lib.Varint

-- The kernels for numbers and counts, in Python and as the extension module in C has them.

-- What a call gives. A call of the extension module may also do what its language does not define.
inductive CallResult (α : Type)
  | value (a : α)
  | raised
  | undefined
  deriving DecidableEq

def CallResult.bind {α β : Type} : CallResult α → (α → CallResult β) → CallResult β
  | value a,   f => f a
  | raised,    _ => raised
  | undefined, _ => undefined

-- The functions in Python.

namespace PureKernel

def encodeVarints (values : List Int) : CallResult (List UInt8) :=
  if values.any (· < 0) then .raised else .value (values.flatMap fun v => encodeVarint v.toNat)

-- The bytes that indexing meets from an offset on. A negative index counts from the end, and after
-- the last byte come all of them; an index before the first one raises.
def indexedFrom (data : List UInt8) (offset : Int) : List UInt8 :=
  if 0 ≤ offset then
    data.drop offset.toNat
  else if -data.length ≤ offset then
    data.drop (data.length + offset).toNat ++ data
  else
    []

def decodeVarints (data : List UInt8) (count offset : Int) : CallResult (List Nat × Int) :=
  let bytes := indexedFrom data offset
  match decodeMany decodeVarint count.toNat bytes with
  | none                => .raised
  | some (values, rest) => .value (values, offset + (bytes.length - rest.length))

def addUint32Arrays (a b : List Int) : CallResult (List Int) :=
  .value (List.zipWith (· + ·) a b)

end PureKernel

-- The functions in C.

-- A number takes at most ten bytes.
def writeVarint (cap : Nat) : (fuel : Nat) → (v : UInt64) → (out : List UInt8) → Option (List UInt8)
  | 0,        _, _   => none
  | fuel + 1, v, out =>
    if cap ≤ out.length then
      none
    else
      let byte := (v &&& 0x7F).toUInt8
      let v := v >>> 7
      let out := out ++ [if v ≠ 0 then byte ||| 0x80 else byte]
      if v = 0 then some out else writeVarint cap fuel v out

def ncdbEncodeVarints (values : List UInt64) (cap : Nat) : Option (List UInt8) :=
  values.foldlM (fun out v => writeVarint cap 10 v out) []

-- Shifting by the width of a number or more is not defined.
def ncdbDecodeVarint : (shift : Nat) → (result : UInt64) → List UInt8 →
    CallResult (UInt64 × List UInt8)
  | _,     _,      []         => .raised
  | shift, result, b :: bytes =>
    if 64 ≤ shift then
      .undefined
    else
      let result := result ||| (b &&& 0x7F).toUInt64 <<< UInt64.ofNat shift
      if b &&& 0x80 = 0 then
        .value (result, bytes)
      else
        ncdbDecodeVarint (shift + 7) result bytes

def ncdbDecodeVarints : (count : Nat) → List UInt8 → CallResult (List UInt64 × List UInt8)
  | 0,         bytes => .value ([], bytes)
  | count + 1, bytes =>
    (ncdbDecodeVarint 0 0 bytes).bind fun (v, bytes) =>
      (ncdbDecodeVarints count bytes).bind fun (vs, bytes) => .value (v :: vs, bytes)

-- A size comes back as a number of 32 bits with a sign.
def int32 (size : Nat) : Int :=
  (size : Int).bmod (2 ^ 32)

-- Their callers. A Python number that does not fit into the type of an argument raises, and so does
-- an array that is larger than the address space.

namespace AccelKernel

def encodeVarints (values : List Int) : CallResult (List UInt8) :=
  if values.any (fun v => v < 0 ∨ 2 ^ 64 ≤ v) then
    .raised
  else
    match ncdbEncodeVarints (values.map fun v => UInt64.ofNat v.toNat) (max (values.length * 10) 16) with
    | none     => .raised
    | some out =>
      let written := int32 out.length
      if written < 0 then .raised else .value (out.take written.toNat)

def decodeVarints (data : List UInt8) (count offset : Int) : CallResult (List Nat × Int) :=
  if count = 0 then
    .value ([], offset)
  else if count < 0 ∨ 2 ^ 60 ≤ count ∨ offset < 0 ∨ 2 ^ 64 ≤ offset then
    .raised
  else
    (ncdbDecodeVarints count.toNat (data.drop offset.toNat)).bind fun (values, rest) =>
      let newOff := int32 (data.length - rest.length)
      if newOff < 0 then .raised else .value (values.map (·.toNat), newOff)

-- The second array is read as far as the first one goes.
def addUint32Arrays (a b : List Int) : CallResult (List Int) :=
  if (a ++ b).any (fun v => v < 0 ∨ 2 ^ 32 ≤ v) then
    .raised
  else if b.length < a.length then
    .undefined
  else
    .value (List.zipWith (fun x y => ((UInt32.ofNat x.toNat + UInt32.ofNat y.toNat).toNat : Int)) a b)

end AccelKernel
