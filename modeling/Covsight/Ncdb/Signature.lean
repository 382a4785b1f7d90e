import Covsight.Lib.Dict
import Covsight.Lib.Packing
import Covsight.Lib.Blocks
import Mathlib.Data.Finset.Sort
import Mathlib.Data.Finset.SymmDiff
import Mathlib.Order.SymmDiff

-- The sets of runs in which bins were hit, each held once and told by its number, and the column
-- with the number for each bin.

-- Positions in the run space.
abbrev Signature := Finset Nat

def signaturesMagic : Nat := 0x41534947
def signaturesVersion : Nat := 1
def assocTesthit : Int := 1

def encEmpty  : UInt8 := 0
def encFull   : UInt8 := 1
def encArray  : UInt8 := 2
def encBitmap : UInt8 := 3
def encDelta  : UInt8 := 4

def sigEmpty : Nat := 0
def sigFull  : Nat := 1

def maxDeltaChainDepth : Nat := 8

def encodeInt (n : Int) : Option (List UInt8) :=
  if n < 0 then none else some (encodeVarint n.toNat)

-- A signature as it is written.
inductive SignatureRecord
  | empty
  | full
  | array  (positions : List Nat)
  | bitmap (bytes : List UInt8)
  | delta  (baseId : Nat) (flipped : List Nat)

namespace SignatureRecord

def encoding : SignatureRecord → UInt8
  | empty     => encEmpty
  | full      => encFull
  | array _   => encArray
  | bitmap _  => encBitmap
  | delta _ _ => encDelta

def payload : SignatureRecord → List UInt8
  | empty | full         => []
  | array positions      => encodeVarint positions.length ++ encodePositions positions
  | bitmap bytes         => bytes
  | delta baseId flipped =>
    encodeVarint baseId ++ (encodeVarint flipped.length ++ encodePositions flipped)

def bytes (r : SignatureRecord) : List UInt8 :=
  r.encoding :: r.payload

-- The smaller one comes first, and of two of one size the one with the lower code.
def precedes (r s : SignatureRecord) : Bool :=
  r.bytes.length < s.bytes.length ∨ r.bytes.length = s.bytes.length ∧ r.encoding < s.encoding

def least (r : SignatureRecord) (rs : List SignatureRecord) : SignatureRecord :=
  rs.foldl (fun best r => if r.precedes best then r else best) r

-- How many signatures one has to go back, once it is known of those before.
def chain (depth : List Nat) : SignatureRecord → Nat
  | delta baseId _ => depth.getD baseId 0 + 1
  | _              => 0

end SignatureRecord

def bitmapBytes (runSpace : Nat) : Nat :=
  (runSpace + 7) / 8

-- Writing outside of the bitmap raises.
def bitmapOf (runSpace : Nat) (positions : List Nat) : Option (List UInt8) :=
  if positions.any (bitmapBytes runSpace ≤ · / 8) then
    none
  else
    some (positions.foldl setBit (List.replicate (bitmapBytes runSpace) 0))

-- The base comes with its number.
def encodeSignature (bits : Signature) (runSpace : Nat) (base : Option (Nat × Signature)) :
    Option SignatureRecord :=
  if bits = ∅ then
    some .empty
  else if bits.card = runSpace then
    some .full
  else do
    let bitmap ← bitmapOf runSpace bits.sort
    let delta := base.map fun (baseId, base) => SignatureRecord.delta baseId (symmDiff bits base).sort
    return .least (.array bits.sort) (.bitmap bitmap :: delta.toList)

def decodeSignature (runSpace : Nat) (resolved : List Signature) :
    List UInt8 → Option (Signature × List UInt8)
  | []                => none
  | encoding :: bytes =>
    if encoding = encEmpty then
      some (∅, bytes)
    else if encoding = encFull then
      some (Finset.range runSpace, bytes)
    else if encoding = encArray then do
      let (cardinality, bytes) ← decodeVarint bytes
      let (positions, bytes)   ← decodePositions cardinality bytes
      return (positions.toFinset, bytes)
    else if encoding = encBitmap then
      let width := bitmapBytes runSpace
      let chunk := bytes.take width
      if chunk.length ≠ width then
        none
      else
        some (((List.range runSpace).filter (hasBit chunk)).toFinset, bytes.drop width)
    else if encoding = encDelta then do
      let (baseId, bytes)      ← decodeVarint bytes
      let (cardinality, bytes) ← decodeVarint bytes
      let (flipped, bytes)     ← decodePositions cardinality bytes
      let base                 ← resolved[baseId]?
      return (symmDiff base flipped.toFinset, bytes)
    else
      none

-- The dictionary. The depth of its chains is found out anew whenever it is written.
structure SignatureTable where
  runIds     : List Int
  assocType  : Int
  signatures : List Signature
  byKey      : Dict Signature Nat

namespace SignatureTable

def runSpace (t : SignatureTable) : Nat :=
  t.runIds.length

-- The first of several equal signatures is the one that is found.
def keyed (signatures : List Signature) : Dict Signature Nat :=
  signatures.zipIdx.foldl (fun byKey (bits, sigId) => if bits ∈ byKey.keys then byKey else byKey.set bits sigId) ∅

def new (runIds : List Int) (assocType : Int) : SignatureTable where
  runIds     := runIds
  assocType  := assocType
  signatures := [∅, Finset.range runIds.length]
  byKey      := keyed [∅, Finset.range runIds.length]

def intern (t : SignatureTable) (bits : Signature) : SignatureTable × Nat :=
  match t.byKey.get? bits with
  | some existing => (t, existing)
  | none          =>
    let sigId := t.signatures.length
    ({ t with signatures := t.signatures ++ [bits], byKey := t.byKey.set bits sigId }, sigId)

def internAll (t : SignatureTable) : List Signature → SignatureTable × List Nat
  | []           => (t, [])
  | bits :: sets =>
    let (t, sigId)  := t.intern bits
    let (t, sigIds) := t.internAll sets
    (t, sigId :: sigIds)

-- The signature before is the base, unless its chain is as long as one may be.
def chooseBase (signatures : List Signature) (depth : List Nat) (sigId : Nat) :
    Option (Nat × Signature) :=
  if sigId ≤ sigFull then
    none
  else
    let candidate := sigId - 1
    if maxDeltaChainDepth - 1 ≤ depth.getD candidate 0 then
      none
    else
      signatures[candidate]?.map (candidate, ·)

-- The signatures from some number on, where the chains of those before are known.
def recordsFrom (runSpace : Nat) (signatures : List Signature) :
    (depth : List Nat) → List Signature → Option (List SignatureRecord)
  | _,     []           => some []
  | depth, bits :: sets => do
    let record  ← encodeSignature bits runSpace (chooseBase signatures depth depth.length)
    let records ← recordsFrom runSpace signatures (depth ++ [record.chain depth]) sets
    return record :: records

def records (t : SignatureTable) : Option (List SignatureRecord) :=
  recordsFrom t.runSpace t.signatures [] t.signatures

def serialize (t : SignatureTable) : Option (List UInt8) := do
  let assocType ← toBytes 2 t.assocType
  let runSpace  ← toBytes 4 t.runSpace
  let runIds    ← t.runIds.mapM encodeInt
  let records   ← t.records
  return encodeLe 4 signaturesMagic ++ (encodeLe 1 signaturesVersion ++ (assocType ++ (runSpace ++
    (encodeVarint t.signatures.length ++ (runIds.flatten ++ records.flatMap (·.bytes))))))

-- What the record at the front says of its chain.
def readChain (depth : List Nat) : List UInt8 → Option Nat
  | []                => none
  | encoding :: bytes =>
    if encoding = encDelta then do
      let (baseId, _) ← decodeVarint bytes
      guard (baseId < depth.length)
      let chain := depth.getD baseId 0 + 1
      guard (chain < maxDeltaChainDepth)
      return chain
    else
      some 0

-- The signatures that follow on those that are read already.
def readFrom (runSpace : Nat) : (count : Nat) → (depth : List Nat) → (signatures : List Signature) →
    List UInt8 → Option (List Signature)
  | 0,         _,     signatures, _     => some signatures
  | count + 1, depth, signatures, bytes => do
    let (bits, rest) ← decodeSignature runSpace signatures bytes
    let chain        ← readChain depth bytes
    readFrom runSpace count (depth ++ [chain]) (signatures ++ [bits]) rest

def deserialize (data : List UInt8) : Option SignatureTable := do
  guard (11 ≤ data.length)
  let (magic, bytes)     ← decodeFixed 4 data
  let (version, bytes)   ← decodeFixed 1 bytes
  let (assocType, bytes) ← decodeFixed 2 bytes
  let (runSpace, bytes)  ← decodeFixed 4 bytes
  guard (magic = signaturesMagic ∧ version = signaturesVersion)
  let (numSigs, bytes)   ← decodeVarint bytes
  let (runIds, bytes)    ← decodeMany decodeVarint runSpace bytes
  let signatures         ← readFrom runSpace numSigs [] [] bytes
  return {
    runIds     := runIds.map Int.ofNat
    assocType  := assocType
    signatures := signatures
    byKey      := keyed signatures }

end SignatureTable

-- The column with the signature of each bin, and the fingerprint of the bins that it is about.

def binSigMagic : Nat := 0x41425347
def binSigVersion : Nat := 1

def idxVarint : UInt8 := 0
def idxRle    : UInt8 := 1

-- The runs of a list that goes on after a run of some value and length.
def rlePairsFrom (value length : Nat) : List Nat → List (Nat × Nat)
  | []              => [(value, length)]
  | sigId :: sigIds =>
    if sigId = value then
      rlePairsFrom value (length + 1) sigIds
    else
      (value, length) :: rlePairsFrom sigId 1 sigIds

def rlePairs : List Nat → List (Nat × Nat)
  | []              => []
  | sigId :: sigIds => rlePairsFrom sigId 1 sigIds

def encodePair : Nat × Nat → List UInt8
  | (value, length) => encodeVarint value ++ encodeVarint length

-- The smaller one of both encodings.
def encodeSigIds (sigIds : List Nat) : UInt8 × List UInt8 :=
  let flat := sigIds.flatMap encodeVarint
  let rle := (rlePairs sigIds).flatMap encodePair
  if rle.length < flat.length then (idxRle, rle) else (idxVarint, flat)

def encodeBinSignatures (sigIds : List Nat) (schemaFingerprint : Int) : Option (List UInt8) := do
  let fingerprint ← toBytes 8 schemaFingerprint
  return encodeLe 4 binSigMagic ++ (encodeLe 1 binSigVersion ++ (fingerprint ++
    (encodeVarint sigIds.length ++ (encodeSigIds sigIds).fst :: (encodeSigIds sigIds).snd)))

theorem length_lt_of_decodeVarint {bytes rest : List UInt8} {n : Nat} (h : decodeVarint bytes = some (n, rest)) :
    rest.length < bytes.length := by
  induction bytes generalizing n
  case nil => nomatch h
  case cons b bytes hi =>
    rw [decodeVarint] at h
    rw [List.length_cons]
    split at h
    case isTrue =>
      cases h
      exact Nat.lt_succ_self _
    case isFalse =>
      obtain ⟨⟨n, rest'⟩, hd, he⟩ := Option.map_eq_some_iff.mp h
      cases he
      exact Nat.lt_succ_of_lt (hi hd)

-- Runs are read until there are as many bins as there should be, or more.
def decodeRuns (numBins : Nat) (sigIds : List Nat) (bytes : List UInt8) : Option (List Nat) :=
  if sigIds.length < numBins then
    match _ : decodeVarint bytes with
    | none                 => none
    | some (value, bytes₁) =>
      match _ : decodeVarint bytes₁ with
      | none                  => none
      | some (length, bytes₂) => decodeRuns numBins (sigIds ++ List.replicate length value) bytes₂
  else
    some sigIds
termination_by bytes.length
decreasing_by
  have hv := length_lt_of_decodeVarint ‹decodeVarint bytes = _›
  have hl := length_lt_of_decodeVarint ‹decodeVarint bytes₁ = _›
  exact Nat.lt_trans hl hv

def decodeSigIds (encoding : UInt8) (numBins : Nat) (payload : List UInt8) : Option (List Nat) :=
  if encoding = idxVarint then
    (decodeMany decodeVarint numBins payload).map Prod.fst
  else if encoding = idxRle then
    decodeRuns numBins [] payload
  else
    none

-- The fingerprint stands for some bins, and for those that are expected.
def checkFingerprint (fingerprint : Nat) : (expected : Option Int) → Bool
  | none          => true
  | some expected => fingerprint ≠ 0 ∧ expected ≠ 0 ∧ fingerprint = expected

def decodeBinSignatures (data : List UInt8) (expectedFingerprint : Option Int) :
    Option (List Nat × Nat) := do
  guard (14 ≤ data.length)
  let (magic, bytes)       ← decodeFixed 4 data
  let (version, bytes)     ← decodeFixed 1 bytes
  let (fingerprint, bytes) ← decodeFixed 8 bytes
  guard (magic = binSigMagic ∧ version = binSigVersion)
  guard (checkFingerprint fingerprint expectedFingerprint)
  let (numBins, bytes)     ← decodeVarint bytes
  let encoding             ← bytes.head?
  let sigIds               ← decodeSigIds encoding numBins bytes.tail
  guard (sigIds.length = numBins)
  return (sigIds, fingerprint)
