import Covsight.Lib.Varint

-- The records of the scope tree stream as the C library encodes them.

-- A 64-bit number takes ten bytes at most; what does not fit is lost.

def encodeUInt64 (n : UInt64) : List UInt8 :=
  encodeVarint n.toNat

def decodeUInt64 (bytes : List UInt8) : Option (UInt64 × List UInt8) :=
  (decodeVarintWithin 10 bytes).map fun (n, rest) => (UInt64.ofNat n, rest)

structure NcdbSourceRef where
  sourceId : UInt64
  line     : UInt64
  token    : UInt64
  deriving DecidableEq

-- The payload of a property.
inductive NcdbPropPayload
  | int32 (v : UInt64)
  | int64 (v : UInt64)
  | double (bits : UInt64)
  | string (ref : UInt64)
  deriving DecidableEq

structure NcdbPropRecord where
  propId  : UInt64
  payload : NcdbPropPayload
  deriving DecidableEq

-- The fields after the name are only there in a scope with extended covers.
structure NcdbCoverRecord where
  nameRef : UInt64
  source  : Option NcdbSourceRef := none
  weight  : Option UInt64 := none
  goal    : Option UInt64 := none
  comment : Option UInt64 := none
  atLeast : Option UInt64 := none
  props   : Option (List NcdbPropRecord) := none
  deriving DecidableEq

structure NcdbScopeHeader where
  type       : UInt64
  nameRef    : UInt64
  flags      : Option UInt64 := none
  source     : Option NcdbSourceRef := none
  weight     : Option UInt64 := none
  atLeast    : Option UInt64 := none
  goal       : Option UInt64 := none
  sourceType : Option UInt64 := none
  duLink     : Option UInt64 := none
  duSig      : Option UInt64 := none
  exprTerms  : Option UInt64 := none
  duFiles    : Option (List UInt64) := none
  props      : Option (List NcdbPropRecord) := none
  extCovers  : Bool := false
  deriving DecidableEq

-- The covers of a regular record have one type.
inductive NcdbScopeRecord
  | togglePair (nameRef : UInt64)
  | regular (header : NcdbScopeHeader) (coverType : Option UInt64) (covers : List NcdbCoverRecord)
      (children : List NcdbScopeRecord)

def ncdbMarkerRegular : UInt8 := 0x00
def ncdbMarkerTogglePair : UInt8 := 0x01

def ncdbPresenceFlags : Nat := 0x01
def ncdbPresenceSource : Nat := 0x02
def ncdbPresenceWeight : Nat := 0x04
def ncdbPresenceAtLeast : Nat := 0x08
def ncdbPresenceDuLink : Nat := 0x10
def ncdbPresenceGoal : Nat := 0x20
def ncdbPresenceSourceType : Nat := 0x40
def ncdbPresenceDuSig : Nat := 0x80
def ncdbPresenceExtCovers : Nat := 0x100
def ncdbPresenceExprTerms : Nat := 0x200
def ncdbPresenceDuFiles : Nat := 0x400
def ncdbPresenceTypedProps : Nat := 0x1000

def ncdbCoverPresenceSource : Nat := 0x01
def ncdbCoverPresenceWeight : Nat := 0x02
def ncdbCoverPresenceGoal : Nat := 0x04
def ncdbCoverPresenceComment : Nat := 0x08
def ncdbCoverPresenceAtLeast : Nat := 0x10
def ncdbCoverPresenceTypedProps : Nat := 0x20

-- The bit of a field that may be missing.
def presentBit (present : Bool) (bit : Nat) : Nat :=
  if present then bit else 0

namespace NcdbSourceRef

def encode (ref : NcdbSourceRef) : List UInt8 :=
  encodeUInt64 ref.sourceId ++ encodeUInt64 ref.line ++ encodeUInt64 ref.token

def decode (bytes : List UInt8) : Option (NcdbSourceRef × List UInt8) := do
  let (sourceId, bytes) ← decodeUInt64 bytes
  let (line, bytes) ← decodeUInt64 bytes
  let (token, bytes) ← decodeUInt64 bytes
  return (⟨sourceId, line, token⟩, bytes)

end NcdbSourceRef

namespace NcdbPropRecord

def encodePayload : NcdbPropPayload → List UInt8
  | .int32 v     => 1 :: encodeUInt64 v
  | .int64 v     => 2 :: encodeUInt64 v
  | .double bits => 3 :: encodeLe 8 bits.toNat
  | .string ref  => 4 :: encodeUInt64 ref

def encode (p : NcdbPropRecord) : List UInt8 :=
  encodeUInt64 p.propId ++ encodePayload p.payload

def encodeTable (ps : List NcdbPropRecord) : List UInt8 :=
  encodeVarint ps.length ++ ps.flatMap encode

def decodeDouble (bytes : List UInt8) : Option (UInt64 × List UInt8) :=
  if 8 ≤ bytes.length then
    some (UInt64.ofNat (decodeLe (bytes.take 8)), bytes.drop 8)
  else
    none

-- An unknown tag is refused.
def decodePayload : List UInt8 → Option (NcdbPropPayload × List UInt8)
  | 1 :: bytes => (decodeUInt64 bytes).map fun (v, rest) => (.int32 v, rest)
  | 2 :: bytes => (decodeUInt64 bytes).map fun (v, rest) => (.int64 v, rest)
  | 3 :: bytes => (decodeDouble bytes).map fun (bits, rest) => (.double bits, rest)
  | 4 :: bytes => (decodeUInt64 bytes).map fun (ref, rest) => (.string ref, rest)
  | _          => none

def decode (bytes : List UInt8) : Option (NcdbPropRecord × List UInt8) := do
  let (propId, bytes) ← decodeUInt64 bytes
  let (payload, bytes) ← decodePayload bytes
  return (⟨propId, payload⟩, bytes)

def decodeTable (bytes : List UInt8) : Option (List NcdbPropRecord × List UInt8) := do
  let (count, bytes) ← decodeUInt64 bytes
  decodeMany decode count.toNat bytes

end NcdbPropRecord

namespace NcdbCoverRecord

def presence (c : NcdbCoverRecord) : Nat :=
  presentBit c.source.isSome ncdbCoverPresenceSource |||
  presentBit c.weight.isSome ncdbCoverPresenceWeight |||
  presentBit c.goal.isSome ncdbCoverPresenceGoal |||
  presentBit c.comment.isSome ncdbCoverPresenceComment |||
  presentBit c.atLeast.isSome ncdbCoverPresenceAtLeast |||
  presentBit c.props.isSome ncdbCoverPresenceTypedProps

def encodeExt (c : NcdbCoverRecord) : List UInt8 :=
  c.presence.toUInt8 :: (encodeOption NcdbSourceRef.encode c.source ++
    encodeOption encodeUInt64 c.weight ++ encodeOption encodeUInt64 c.goal ++
    encodeOption encodeUInt64 c.comment ++ encodeOption encodeUInt64 c.atLeast ++
    encodeOption NcdbPropRecord.encodeTable c.props)

def encode (ext : Bool) (c : NcdbCoverRecord) : List UInt8 :=
  encodeUInt64 c.nameRef ++ if ext then c.encodeExt else []

def decodeExt (nameRef : UInt64) : List UInt8 → Option (NcdbCoverRecord × List UInt8)
  | []          => none
  | cp :: bytes => do
    let (source, bytes) ← decodeIf cp.toNat ncdbCoverPresenceSource NcdbSourceRef.decode bytes
    let (weight, bytes) ← decodeIf cp.toNat ncdbCoverPresenceWeight decodeUInt64 bytes
    let (goal, bytes) ← decodeIf cp.toNat ncdbCoverPresenceGoal decodeUInt64 bytes
    let (comment, bytes) ← decodeIf cp.toNat ncdbCoverPresenceComment decodeUInt64 bytes
    let (atLeast, bytes) ← decodeIf cp.toNat ncdbCoverPresenceAtLeast decodeUInt64 bytes
    let (props, bytes) ←
      decodeIf cp.toNat ncdbCoverPresenceTypedProps NcdbPropRecord.decodeTable bytes
    return ({ nameRef, source, weight, goal, comment, atLeast, props }, bytes)

def decode (ext : Bool) (bytes : List UInt8) : Option (NcdbCoverRecord × List UInt8) := do
  let (nameRef, bytes) ← decodeUInt64 bytes
  if ext then decodeExt nameRef bytes else return ({ nameRef }, bytes)

end NcdbCoverRecord

namespace NcdbScopeHeader

def presence (h : NcdbScopeHeader) : Nat :=
  presentBit h.flags.isSome ncdbPresenceFlags |||
  presentBit h.source.isSome ncdbPresenceSource |||
  presentBit h.weight.isSome ncdbPresenceWeight |||
  presentBit h.goal.isSome ncdbPresenceGoal |||
  presentBit h.sourceType.isSome ncdbPresenceSourceType |||
  presentBit h.duLink.isSome ncdbPresenceDuLink |||
  presentBit h.duSig.isSome ncdbPresenceDuSig |||
  presentBit h.exprTerms.isSome ncdbPresenceExprTerms |||
  presentBit h.duFiles.isSome ncdbPresenceDuFiles |||
  presentBit h.props.isSome ncdbPresenceTypedProps |||
  presentBit h.extCovers ncdbPresenceExtCovers |||
  presentBit h.atLeast.isSome ncdbPresenceAtLeast

def encodeFiles (files : List UInt64) : List UInt8 :=
  encodeVarint files.length ++ files.flatMap encodeUInt64

def decodeFiles (bytes : List UInt8) : Option (List UInt64 × List UInt8) := do
  let (count, bytes) ← decodeUInt64 bytes
  decodeMany decodeUInt64 count.toNat bytes

-- The header up to the numbers of children and covers.
def encode (h : NcdbScopeHeader) : List UInt8 :=
  encodeUInt64 h.type ++ encodeUInt64 h.nameRef ++ encodeVarint h.presence ++
  encodeOption encodeUInt64 h.flags ++ encodeOption NcdbSourceRef.encode h.source ++
  encodeOption encodeUInt64 h.weight ++ encodeOption encodeUInt64 h.atLeast ++
  encodeOption encodeUInt64 h.goal ++ encodeOption encodeUInt64 h.sourceType ++
  encodeOption encodeUInt64 h.duLink ++ encodeOption encodeUInt64 h.duSig ++
  encodeOption encodeUInt64 h.exprTerms ++ encodeOption encodeFiles h.duFiles ++
  encodeOption NcdbPropRecord.encodeTable h.props

def decode (bytes : List UInt8) : Option (NcdbScopeHeader × List UInt8) := do
  let (type, bytes) ← decodeUInt64 bytes
  let (nameRef, bytes) ← decodeUInt64 bytes
  let (word, bytes) ← decodeUInt64 bytes
  let presence := word.toNat
  let (flags, bytes) ← decodeIf presence ncdbPresenceFlags decodeUInt64 bytes
  let (source, bytes) ← decodeIf presence ncdbPresenceSource NcdbSourceRef.decode bytes
  let (weight, bytes) ← decodeIf presence ncdbPresenceWeight decodeUInt64 bytes
  let (atLeast, bytes) ← decodeIf presence ncdbPresenceAtLeast decodeUInt64 bytes
  let (goal, bytes) ← decodeIf presence ncdbPresenceGoal decodeUInt64 bytes
  let (sourceType, bytes) ← decodeIf presence ncdbPresenceSourceType decodeUInt64 bytes
  let (duLink, bytes) ← decodeIf presence ncdbPresenceDuLink decodeUInt64 bytes
  let (duSig, bytes) ← decodeIf presence ncdbPresenceDuSig decodeUInt64 bytes
  let (exprTerms, bytes) ← decodeIf presence ncdbPresenceExprTerms decodeUInt64 bytes
  let (duFiles, bytes) ← decodeIf presence ncdbPresenceDuFiles decodeFiles bytes
  let (props, bytes) ←
    decodeIf presence ncdbPresenceTypedProps NcdbPropRecord.decodeTable bytes
  return ({ type, nameRef, flags, source, weight, atLeast, goal, sourceType, duLink, duSig,
            exprTerms, duFiles, props, extCovers := presence &&& ncdbPresenceExtCovers ≠ 0 }, bytes)

end NcdbScopeHeader

namespace NcdbScopeRecord

mutual

def encode : NcdbScopeRecord → List UInt8
  | togglePair nameRef                       => ncdbMarkerTogglePair :: encodeUInt64 nameRef
  | regular header coverType covers children =>
    ncdbMarkerRegular :: (header.encode ++ encodeVarint children.length ++
      encodeVarint covers.length ++ encodeOption encodeUInt64 coverType ++
      covers.flatMap (·.encode header.extCovers) ++ encodeAll children)

def encodeAll : List NcdbScopeRecord → List UInt8
  | []                => []
  | record :: records => record.encode ++ encodeAll records

end

-- The cover type is there where there are covers.
def decodeCoverType (covers : Nat) (bytes : List UInt8) : Option (Option UInt64 × List UInt8) :=
  if covers = 0 then
    some (none, bytes)
  else
    (decodeUInt64 bytes).map fun (type, bytes) => (some type, bytes)

-- A record with its children; any other marker is refused. The fuel bounds the nesting.
def decode : (fuel : Nat) → List UInt8 → Option (NcdbScopeRecord × List UInt8)
  | 0,        _               => none
  | _ + 1,    []              => none
  | fuel + 1, marker :: bytes =>
    if marker = ncdbMarkerTogglePair then
      (decodeUInt64 bytes).map fun (nameRef, bytes) => (togglePair nameRef, bytes)
    else if marker = ncdbMarkerRegular then do
      let (header, bytes) ← NcdbScopeHeader.decode bytes
      let (numChildren, bytes) ← decodeUInt64 bytes
      let (numCovers, bytes) ← decodeUInt64 bytes
      let (coverType, bytes) ← decodeCoverType numCovers.toNat bytes
      let (covers, bytes) ←
        decodeMany (NcdbCoverRecord.decode header.extCovers) numCovers.toNat bytes
      let (children, bytes) ← decodeMany (decode fuel) numChildren.toNat bytes
      return (regular header coverType covers children, bytes)
    else
      none

end NcdbScopeRecord

-- The index of design units at the end of the stream, the index of a name and of a scope for each,
-- with the length of what comes before it.

-- "NTRL"
def trailerMagic : List UInt8 := [0x4E, 0x54, 0x52, 0x4C]

def encodeDuIndex (entries : List (UInt64 × UInt64)) : List UInt8 :=
  encodeVarint entries.length ++
  entries.flatMap fun (nameIdx, dfsIdx) => encodeUInt64 nameIdx ++ encodeUInt64 dfsIdx

def encodeTrailer (offset : Nat) (entries : List (UInt64 × UInt64)) : List UInt8 :=
  (trailerMagic ++ [1, 0] ++ encodeDuIndex entries) ++ (encodeLe 8 offset ++ trailerMagic)

-- A stream has a trailer if it ends with the magic and, before it, an offset in the stream.
def trailerOffset (data : List UInt8) : Option Nat :=
  let size := data.length
  let offset := decodeLe ((data.drop (size - 12)).take 8)
  if 12 ≤ size ∧ data.drop (size - 4) = trailerMagic ∧ offset < size - 12 then some offset else none

-- The part of a stream that the scope records are read from and, if it has a trailer, the bytes of
-- the index.
def splitTrailer (data : List UInt8) : List UInt8 × Option (List UInt8) :=
  match trailerOffset data with
  | none        => (data, none)
  | some offset => (data.take offset, some ((data.take (data.length - 12)).drop offset))

def decodeDuEntry (bytes : List UInt8) : Option ((UInt64 × UInt64) × List UInt8) := do
  let (nameIdx, bytes) ← decodeUInt64 bytes
  let (dfsIdx, bytes) ← decodeUInt64 bytes
  return ((nameIdx, dfsIdx), bytes)

-- An index that is not well formed is skipped. The library keeps the entries before the point where
-- one breaks off.
def decodeDuIndex (bytes : List UInt8) : Option (List (UInt64 × UInt64)) :=
  if 6 ≤ bytes.length ∧ bytes.take 4 = trailerMagic ∧ bytes[4]? = some 1 then do
    let (count, bytes) ← decodeUInt64 (bytes.drop 6)
    let (entries, _) ← decodeMany decodeDuEntry count.toNat bytes
    return entries
  else
    none
