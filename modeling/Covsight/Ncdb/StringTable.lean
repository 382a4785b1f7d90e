import Covsight.Lib.Interning
import Covsight.Ncdb.HistoryMember

-- The strings of a member, told by their places.

namespace StringTable

def utf8 (s : String) : List UInt8 :=
  s.toUTF8.data.toList

def encode (s : String) : List UInt8 :=
  encodeVarint (utf8 s).length ++ utf8 s

def serialize (strings : List String) : List UInt8 :=
  encodeVarint strings.length ++ strings.flatMap encode

-- A slice may be cut short by the end of the data.
def decode (bytes : List UInt8) : Option (String × List UInt8) := do
  let (length, bytes) ← decodeVarint bytes
  let s ← HistoryReader.utf8Decode (bytes.take length)
  return (s, bytes.drop length)

def fromBytes (bytes : List UInt8) : Option (List String) := do
  let (count, bytes) ← decodeVarint bytes
  let (strings, _) ← decodeMany decode count bytes
  return internAll strings

-- What follows a table.
def skip (bytes : List UInt8) : Option (List UInt8) := do
  let (count, bytes) ← decodeVarint bytes
  let (_, bytes) ← decodeMany skipString count bytes
  return bytes
where
  skipString (bytes : List UInt8) : Option (Unit × List UInt8) := do
    let (length, bytes) ← decodeVarint bytes
    return ((), bytes.drop length)

end StringTable

-- A table of strings comes back from its bytes.

namespace HistoryReader

theorem utf8Decode_eq_some_iff {bytes : List UInt8} {s : String} :
    utf8Decode bytes = some s ↔ s.toByteArray = ⟨bytes.toArray⟩ := by
  rw [utf8Decode, String.fromUTF8?]
  constructor
  case mp =>
    intro h
    split at h
    case isTrue  => exact congrArg String.toByteArray (Option.some.inj h).symm
    case isFalse => cases h
  case mpr =>
    intro h
    have hv : ByteArray.IsValidUTF8 ⟨bytes.toArray⟩ := h ▸ s.isValidUTF8
    rw [dif_pos hv]
    exact congrArg some (String.toByteArray_inj.mp h.symm)

end HistoryReader

namespace StringTable

theorem utf8Decode_utf8 (s : String) : HistoryReader.utf8Decode (utf8 s) = some s :=
  HistoryReader.utf8Decode_eq_some_iff.mpr rfl

theorem utf8_injective : Function.Injective utf8 := fun s t h =>
  Option.some.inj ((utf8Decode_utf8 s).symm.trans ((congrArg _ h).trans (utf8Decode_utf8 t)))

theorem decode_encode (s : String) (rest : List UInt8) : decode (encode s ++ rest) = some (s, rest) := by
  rw [encode, List.append_assoc]
  simp only [decode, decodeVarint_encodeVarint, Option.bind_eq_bind, Option.bind_some, List.take_left,
    List.drop_left, utf8Decode_utf8]
  rfl

theorem skipString_encode (s : String) (rest : List UInt8) :
    skip.skipString (encode s ++ rest) = some ((), rest) := by
  rw [encode, List.append_assoc]
  simp only [skip.skipString, decodeVarint_encodeVarint, Option.bind_eq_bind, Option.bind_some, List.drop_left]
  rfl

theorem fromBytes_serialize {strings : List String} (h : strings.Nodup) (rest : List UInt8) :
    fromBytes (serialize strings ++ rest) = some strings := by
  have hd := decodeMany_flatMap (fun s (_ : s ∈ strings) => decode_encode s) rest
  rw [serialize, List.append_assoc, fromBytes]
  simp only [decodeVarint_encodeVarint, Option.bind_eq_bind, Option.bind_some, hd, internAll_of_nodup h]
  rfl

theorem skip_serialize (strings : List String) (rest : List UInt8) :
    skip (serialize strings ++ rest) = some rest := by
  have hu := decodeMany_map_flatMap (f := fun _ => ()) (fun s (_ : s ∈ strings) => skipString_encode s) rest
  rw [serialize, List.append_assoc, skip]
  simp only [decodeVarint_encodeVarint, Option.bind_eq_bind, Option.bind_some, hu]
  rfl

end StringTable
