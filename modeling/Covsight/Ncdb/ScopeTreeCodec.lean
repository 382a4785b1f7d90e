import Covsight.Lib.Varint
import Covsight.Ncdb.ScopeTree

-- The bytes of the scope tree member.

-- The values of the enumerations.

def ScopeTypeT.value : ScopeTypeT → Nat
  | toggle          => 0x1
  | branch          => 0x2
  | expr            => 0x4
  | cond            => 0x8
  | instanceScope   => 0x10
  | process         => 0x20
  | block           => 0x40
  | function        => 0x80
  | forkJoin        => 0x100
  | generate        => 0x200
  | generic         => 0x400
  | classScope      => 0x800
  | covergroup      => 0x1000
  | coverInstance   => 0x2000
  | coverpoint      => 0x4000
  | cross           => 0x8000
  | cover           => 0x10000
  | assertScope     => 0x20000
  | program         => 0x40000
  | package         => 0x80000
  | task            => 0x100000
  | interface       => 0x200000
  | fsm             => 0x400000
  | duModule        => 0x1000000
  | duArch          => 0x2000000
  | duPackage       => 0x4000000
  | duProgram       => 0x8000000
  | duInterface     => 0x10000000
  | fsmStates       => 0x20000000
  | fsmTrans        => 0x40000000
  | covBlock        => 0x80000000
  | cvgBinScope     => 0x100000000
  | illegalBinScope => 0x200000000
  | ignoreBinScope  => 0x400000000

def ScopeTypeT.all : List ScopeTypeT := [
  toggle, branch, expr, cond, instanceScope, process, block, function, forkJoin, generate, generic,
  classScope, covergroup, coverInstance, coverpoint, cross, cover, assertScope, program, package,
  task, interface, fsm, duModule, duArch, duPackage, duProgram, duInterface, fsmStates, fsmTrans,
  covBlock, cvgBinScope, illegalBinScope, ignoreBinScope
]

-- The type with a value; a value that names no single type is not read.
def ScopeTypeT.ofValue (n : Nat) : Option ScopeTypeT :=
  all.find? (·.value = n)

def CoverTypeT.value : CoverTypeT → Nat
  | cvgBin        => 0x1
  | coverBin      => 0x2
  | assertBin     => 0x4
  | stmtBin       => 0x20
  | branchBin     => 0x40
  | exprBin       => 0x80
  | condBin       => 0x100
  | toggleBin     => 0x200
  | passBin       => 0x400
  | fsmBin        => 0x800
  | userBin       => 0x1000
  | count         => 0x2000
  | failBin       => 0x4000
  | vacuousBin    => 0x8000
  | disabledBin   => 0x10000
  | attemptBin    => 0x20000
  | activeBin     => 0x40000
  | ignoreBin     => 0x80000
  | illegalBin    => 0x100000
  | defaultBin    => 0x200000
  | peakActiveBin => 0x400000
  | blockBin      => 0x1000000

def CoverTypeT.all : List CoverTypeT := [
  cvgBin, coverBin, assertBin, stmtBin, branchBin, exprBin, condBin, toggleBin, passBin, fsmBin,
  userBin, count, failBin, vacuousBin, disabledBin, attemptBin, activeBin, ignoreBin, illegalBin,
  defaultBin, peakActiveBin, blockBin
]

def CoverTypeT.ofValue (n : Nat) : Option CoverTypeT :=
  all.find? (·.value = n)

def SourceT.all : List SourceT :=
  [vhdl, vlog, sv, systemC, pslVhdl, pslVlog, pslSv, pslSystemC, e, vera, none, other]

-- The source languages are numbered in order.
def SourceT.value (source : SourceT) : Nat :=
  all.idxOf source

def SourceT.ofValue (n : Nat) : Option SourceT :=
  all[n]?

-- The bits of a presence word.
def presenceFlags : Nat := 0x01
def presenceSource : Nat := 0x02
def presenceWeight : Nat := 0x04
def presenceAtLeast : Nat := 0x08
def presenceGoal : Nat := 0x20
def presenceSourceType : Nat := 0x40

def scopeMarkerRegular : UInt8 := 0x00
def scopeMarkerTogglePair : UInt8 := 0x01

namespace ScopeHeader

def presence (h : ScopeHeader) : Nat :=
  (if h.flags.isSome then presenceFlags else 0) +
  (if h.source.isSome then presenceSource else 0) +
  (if h.weight.isSome then presenceWeight else 0) +
  (if h.atLeast.isSome then presenceAtLeast else 0) +
  (if h.goal.isSome then presenceGoal else 0) +
  (if h.sourceType.isSome then presenceSourceType else 0)

def encodeSource (ref : SourceRef) : List UInt8 :=
  encodeVarint ref.fileId ++ encodeVarint ref.line ++ encodeVarint ref.token

-- The header up to the numbers of sub-scopes and items.
def encode (h : ScopeHeader) : List UInt8 :=
  encodeVarint h.type.value ++ encodeVarint h.nameRef ++ encodeVarint h.presence ++
  encodeOption encodeVarint h.flags ++ encodeOption encodeSource h.source ++
  encodeOption encodeVarint h.weight ++ encodeOption encodeVarint h.atLeast ++
  encodeOption encodeVarint h.goal ++ encodeOption (encodeVarint ·.value) h.sourceType

def decodeSource (bytes : List UInt8) : Option (SourceRef × List UInt8) := do
  let (fileId, bytes) ← decodeVarint bytes
  let (line, bytes) ← decodeVarint bytes
  let (token, bytes) ← decodeVarint bytes
  return (⟨fileId, line, token⟩, bytes)

def decodeSourceType (bytes : List UInt8) : Option (SourceT × List UInt8) := do
  let (value, bytes) ← decodeVarint bytes
  let source ← SourceT.ofValue value
  return (source, bytes)

-- The cover type comes later.
def decode (bytes : List UInt8) : Option (ScopeHeader × List UInt8) := do
  let (value, bytes) ← decodeVarint bytes
  let (nameRef, bytes) ← decodeVarint bytes
  let (presence, bytes) ← decodeVarint bytes
  let type ← ScopeTypeT.ofValue value
  let (flags, bytes) ← decodeIf presence presenceFlags decodeVarint bytes
  let (source, bytes) ← decodeIf presence presenceSource decodeSource bytes
  let (weight, bytes) ← decodeIf presence presenceWeight decodeVarint bytes
  let (atLeast, bytes) ← decodeIf presence presenceAtLeast decodeVarint bytes
  let (goal, bytes) ← decodeIf presence presenceGoal decodeVarint bytes
  let (sourceType, bytes) ← decodeIf presence presenceSourceType decodeSourceType bytes
  return ({ type, nameRef, flags, source, weight, atLeast, goal, sourceType }, bytes)

end ScopeHeader

namespace ScopeRecord

def encodeItems (coverType : Option CoverTypeT) (items : List Nat) : List UInt8 :=
  encodeOption (encodeVarint ·.value) coverType ++ items.flatMap encodeVarint

mutual

def encode : ScopeRecord → List UInt8
  | togglePair nameRef          => scopeMarkerTogglePair :: encodeVarint nameRef
  | regular header items scopes =>
    scopeMarkerRegular :: (header.encode ++ encodeVarint scopes.length ++
      encodeVarint items.length ++ encodeItems header.coverType items ++ encodeAll scopes)

def encodeAll : List ScopeRecord → List UInt8
  | []                => []
  | record :: records => record.encode ++ encodeAll records

end

-- The cover type is stored where there are items.
def decodeCoverType (items : Nat) (bytes : List UInt8) : Option (Option CoverTypeT × List UInt8) :=
  if items = 0 then
    some (none, bytes)
  else do
    let (value, bytes) ← decodeVarint bytes
    let type ← CoverTypeT.ofValue value
    return (some type, bytes)

-- A record with its sub-scopes. Any marker but that of a toggle pair starts a regular record. The
-- fuel bounds the nesting.
def decode : (fuel : Nat) → List UInt8 → Option (ScopeRecord × List UInt8)
  | 0,        _               => none
  | _ + 1,    []              => none
  | fuel + 1, marker :: bytes =>
    if marker = scopeMarkerTogglePair then
      (decodeVarint bytes).map fun (nameRef, bytes) => (togglePair nameRef, bytes)
    else do
      let (header, bytes) ← ScopeHeader.decode bytes
      let (scopes, bytes) ← decodeVarint bytes
      let (items, bytes) ← decodeVarint bytes
      let (coverType, bytes) ← decodeCoverType items bytes
      let (refs, bytes) ← decodeMany decodeVarint items bytes
      let (records, bytes) ← decodeMany (decode fuel) scopes bytes
      return (regular { header with coverType } refs records, bytes)

end ScopeRecord

-- Writing the scopes of a database, and reading them back with the tables and the counts.

def ScopeTreeWriter.write (scopes : List Scope) : Option (List UInt8 × ScopeTreeWriter) := do
  let (records, w) ← ScopeTreeWriter.writeScopes {} scopes
  return (ScopeRecord.encodeAll records, w)

def ScopeTreeReader.read (r : ScopeTreeReader) (data : List UInt8) (counts : Counts) :
    Option (List Scope) := do
  let records ← decodeAll (ScopeRecord.decode data.length) data.length data
  let (scopes, _) ← r.readScopes none [] records counts
  return scopes
