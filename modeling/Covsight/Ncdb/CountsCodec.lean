import Covsight.Ncdb.ScopeTreeCodec
import Covsight.NcdbC.Theorems.ScopeTreeCodec
import Covsight.Ncdb.BucketCodec

-- The member with the counts: a mode, how many there are, and the counts either as numbers of four
-- bytes or as numbers of any length.

def countsModeUint32 : UInt8 := 0
def countsModeVarint : UInt8 := 1

-- Short numbers are used if all counts fit and they take no more bytes.
def CountsWriter.serialize (counts : Counts) : List UInt8 :=
  let varints := counts.flatMap encodeVarint
  if counts.any (0xFFFFFFFF < ·) ∨ varints.length < counts.length * 4 then
    countsModeVarint :: (encodeVarint counts.length ++ varints)
  else
    countsModeUint32 :: (encodeVarint counts.length ++ counts.flatMap (encodeLe 4))

def decodeUint32 (bytes : List UInt8) : Option (Nat × List UInt8) :=
  if bytes.length < 4 then none else some (decodeLe (bytes.take 4), bytes.drop 4)

namespace CountsReader

-- Where every count is one byte, the bytes are the counts.
def decodeVarints (count : Nat) (bytes : List UInt8) : Option Counts :=
  let payload := bytes.take count
  if payload.length = count ∧ payload.all (·.toNat < 128) then
    some (payload.map (·.toNat))
  else
    (decodeMany decodeVarint count bytes).map (·.fst)

def deserialize : List UInt8 → Option Counts
  | []            => some []
  | mode :: bytes => do
    let (count, bytes) ← decodeVarint bytes
    if mode = countsModeVarint then
      decodeVarints count bytes
    else
      (decodeMany decodeUint32 count bytes).map (·.fst)

theorem decodeMany_bytes (payload rest : List UInt8) (h : payload.all (·.toNat < 128)) :
    decodeMany decodeVarint payload.length (payload ++ rest)
      = some (payload.map (·.toNat), rest) := by
  induction payload
  case nil => rfl
  case cons b payload hi =>
    have ⟨hb, hp⟩ := Bool.and_eq_true_iff.mp h
    have hd : decodeVarint (b :: (payload ++ rest)) = some (b.toNat, payload ++ rest) := by
      rw [decodeVarint, if_pos (of_decide_eq_true hb)]
    rw [List.length_cons, List.cons_append, decodeMany, hd]
    simp only [Option.bind_eq_bind, Option.bind_some, hi hp]
    rfl

-- The short way gives what the general one does.
theorem decodeVarints_eq (count : Nat) (bytes : List UInt8) :
    decodeVarints count bytes = (decodeMany decodeVarint count bytes).map (·.fst) := by
  rw [decodeVarints]
  split
  case isTrue h =>
    have hd := decodeMany_bytes (bytes.take count) (bytes.drop count) h.right
    rw [h.left, List.take_append_drop] at hd
    rw [hd]
    rfl
  case isFalse => rfl

theorem decodeUint32_encodeLe {n : Nat} (h : n ≤ 0xFFFFFFFF) (rest : List UInt8) :
    decodeUint32 (encodeLe 4 n ++ rest) = some (n, rest) :=
  decodeFixed_encodeLe (by omega) rest

theorem deserialize_serialize (counts : Counts) :
    deserialize (CountsWriter.serialize counts) = some counts := by
  rw [CountsWriter.serialize]
  split
  case isTrue =>
    have hd := decodeMany_flatMap (fun n (_ : n ∈ counts) => decodeVarint_encodeVarint n) []
    rw [List.append_nil] at hd
    simp only [deserialize, decodeVarint_encodeVarint, Option.bind_eq_bind, Option.bind_some,
      decodeVarints_eq, hd, if_true, Option.map_some]
  case isFalse h =>
    have hs : ∀ n ∈ counts, n ≤ 0xFFFFFFFF := by
      intro n hm
      have := (not_or.mp h).left
      rw [List.any_eq_true] at this
      exact Nat.le_of_not_lt fun hn => this ⟨n, hm, decide_eq_true hn⟩
    have hd := decodeMany_flatMap (fun n hm => decodeUint32_encodeLe (hs n hm)) []
    rw [List.append_nil] at hd
    have hm : ¬countsModeUint32 = countsModeVarint := by decide
    simp only [deserialize, decodeVarint_encodeVarint, Option.bind_eq_bind, Option.bind_some, hd, hm,
      if_false, Option.map_some]

end CountsReader

-- What `CountsWriter` and `CountsReader` do where the extension module may have been built.

def CountsMember.serialize (accel : Bool) (counts : Counts) : CallResult (List UInt8) :=
  (encodeVarints accel (counts.map Int.ofNat)).bind fun varints =>
    if counts.any (0xFFFFFFFF < ·) ∨ varints.length < counts.length * 4 then
      .value (countsModeVarint :: (encodeVarint counts.length ++ varints))
    else
      .value (countsModeUint32 :: (encodeVarint counts.length ++ counts.flatMap (encodeLe 4)))

def CountsMember.deserialize (accel : Bool) (data : List UInt8) : CallResult Counts :=
  match data with
  | []            => .value []
  | mode :: bytes =>
    match decodeVarint bytes with
    | none               => .raised
    | some (count, rest) =>
      if mode = countsModeVarint then
        let payload := rest.take count
        if payload.length = count ∧ payload.all (·.toNat < 128) then
          .value (payload.map (·.toNat))
        else
          -- The offset that comes back is not used.
          (decodeVarints accel data count ((data.length - rest.length : Nat) : Int)).bind
            fun (values, _) => .value values
      else
        match decodeMany decodeUint32 count rest with
        | none             => .raised
        | some (values, _) => .value values
