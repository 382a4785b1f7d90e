import Covsight.Lib.BoundedReader
import Mathlib.Data.List.Basic
import Covsight.NcdbC.ScopeTreeCodec

-- The members of an archive that the C library reads straight from their bytes. Whether there is
-- memory for what is read is up to the platform; what becomes of a payload of the JSON format is a
-- parameter.

open Decoder

-- The bytes of a string end before the first zero.
abbrev CString := List UInt8

def cString (bytes : List UInt8) : CString :=
  bytes.takeWhile (· ≠ 0)

structure NcdbPlatform where
  -- There is an array of that many states.
  calloc : UInt64 → Bool
  -- The record of that number is kept.
  stores : Nat → Bool

def readLpStr : Decoder CString := do
  return cString (← copy)

-- Other members have the same reader under names of their own.
def readLpDup : Decoder CString :=
  readLpStr

def readLenprefixedStr : Decoder CString :=
  readLpStr

def readLenprefixedStrdup : Decoder CString :=
  readLpStr

def readLpStrN : Decoder CString :=
  readLpStr

def readU32le : Decoder UInt32 := do
  return (← littleEndian 4).toUInt32

def readU64le : Decoder UInt64 :=
  littleEndian 8

-- A string that is in the table already is not added again.
def stringsAdd (tab : List CString) (s : CString) : List CString :=
  if s ∈ tab then tab else tab ++ [s]

def stringsDeserialize (p : NcdbPlatform) : Decoder (List CString) := do
  let count ← varint
  records count [] fun i tab => do
    let s ← readLpStr
    check (p.stores i)
    return stringsAdd tab s

structure NcdbManifest where
  format             : CString
  version            : CString
  ucisVersion        : CString
  created            : CString
  pathSeparator      : CString
  schemaHash         : CString
  generator          : CString
  historyFormat      : CString
  vendorId           : CString
  vendorTool         : CString
  vendorToolVersion  : CString
  ucisStandard       : CString
  scopeCount         : UInt64
  coveritemCount     : UInt64
  testCount          : UInt64
  totalHits          : UInt64
  coveredBins        : UInt64
  schemaVersionMajor : UInt32 := 3
  schemaVersionMinor : UInt32 := 0
  featureFlags       : UInt64 := 0
  nHistoryNodes      : UInt64 := testCount
  nAssociations      : UInt64 := 0

def ncdbManifestMagic : List UInt8 := [0x4E, 0x4D, 0x41, 0x4E]
def ncdbManifestVersion : UInt8 := 2
def ncdbManifestVersionV1 : UInt8 := 1

def readManifestV1 : Decoder NcdbManifest := do
  let format            ← readLpStr
  let version           ← readLpStr
  let ucisVersion       ← readLpStr
  let created           ← readLpStr
  let pathSeparator     ← readLpStr
  let schemaHash        ← readLpStr
  let generator         ← readLpStr
  let historyFormat     ← readLpStr
  let vendorId          ← readLpStr
  let vendorTool        ← readLpStr
  let vendorToolVersion ← readLpStr
  let ucisStandard      ← readLpStr
  let scopeCount        ← varint
  let coveritemCount    ← varint
  let testCount         ← varint
  let totalHits         ← varint
  let coveredBins       ← varint
  return {
    format, version, ucisVersion, created, pathSeparator, schemaHash, generator, historyFormat,
    vendorId, vendorTool, vendorToolVersion, ucisStandard,
    scopeCount, coveritemCount, testCount, totalHits, coveredBins }

def readManifestV2 (m : NcdbManifest) : Decoder NcdbManifest := do
  let schemaVersionMajor ← readU32le
  let schemaVersionMinor ← readU32le
  let featureFlags       ← readU64le
  let nHistoryNodes      ← varint
  let nAssociations      ← varint
  return { m with
    schemaVersionMajor, schemaVersionMinor, featureFlags, nHistoryNodes, nAssociations }

def manifestDeserialize (json : List UInt8 → Option NcdbManifest) : Decoder NcdbManifest := do
  match ← opening ncdbManifestMagic 1 with
  | none    => whole json
  | some bs =>
    let version := bs.headD 0
    if version ≠ ncdbManifestVersion ∧ version ≠ ncdbManifestVersionV1 then
      fail
    else do
      let m ← readManifestV1
      if version ≥ ncdbManifestVersion then readManifestV2 m else return m

-- Times and costs are kept as the bits of a double.
structure NcdbHistoryEntry where
  kind              : UInt32
  parentIdx         : UInt64 := -1
  testStatus        : UInt32 := 0
  compulsory        : UInt32 := 0
  simTime           : UInt64
  cpuTime           : UInt64
  cost              : UInt64
  logicalName       : CString := []
  physicalName      : Option CString := none
  userName          : Option CString := none
  seed              : Option CString := none
  toolCategory      : Option CString := none
  comment           : Option CString := none
  date              : Option CString := none
  runCwd            : Option CString := none
  cmd               : Option CString := none
  args              : Option CString := none
  timeUnit          : Option CString := none
  vendorId          : Option CString := none
  vendorTool        : Option CString := none
  vendorToolVersion : Option CString := none
  sameTests         : Option CString := none
  deriving DecidableEq

def ncdbHistMagic : List UInt8 := [0x4E, 0x48, 0x49, 0x53]
def ncdbHistVersion : UInt8 := 1

def readHistoryNode (p : NcdbPlatform) (i : Nat) : Decoder NcdbHistoryEntry := do
  let kind              ← byte
  let parentP1          ← varint
  let status            ← varint
  let compulsory        ← byteIf (p.stores i)
  let simTime           ← readU64le
  let cpuTime           ← readU64le
  let cost              ← readU64le
  let logicalName       ← readLpDup
  let physicalName      ← readLpDup
  let userName          ← readLpDup
  let seed              ← readLpDup
  let toolCategory      ← readLpDup
  let comment           ← readLpDup
  let date              ← readLpDup
  let runCwd            ← readLpDup
  let cmd               ← readLpDup
  let args              ← readLpDup
  let timeUnit          ← readLpDup
  let vendorId          ← readLpDup
  let vendorTool        ← readLpDup
  let vendorToolVersion ← readLpDup
  let sameTests         ← readLpDup
  return {
    kind := kind.toUInt32, parentIdx := if parentP1 = 0 then -1 else parentP1 - 1,
    testStatus := status.toUInt32, compulsory := compulsory.toUInt32, simTime, cpuTime, cost,
    logicalName, physicalName, userName, seed, toolCategory, comment, date, runCwd, cmd, args,
    timeUnit, vendorId, vendorTool, vendorToolVersion, sameTests }

def historyDeserialize (p : NcdbPlatform) (json : List UInt8 → Option (List NcdbHistoryEntry)) :
    Decoder (List NcdbHistoryEntry) := do
  match ← opening ncdbHistMagic 1 with
  | none    => whole json
  | some bs =>
    if bs.headD 0 ≠ ncdbHistVersion then
      fail
    else do
      let n ← varint
      records n [] fun i nodes => do
        return nodes ++ [← readHistoryNode p i]

structure NcdbToggle where
  canonical : Option CString := none
  metric    : UInt8 := 0
  type      : UInt8 := 0
  dir       : UInt8 := 0
  deriving DecidableEq

def ncdbToggleMagic : List UInt8 := [0x4E, 0x54, 0x47, 0x4C]
def ncdbToggleVersion : UInt8 := 1

def bitCanon : UInt8 := 0x01
def bitMetric : UInt8 := 0x02
def bitType : UInt8 := 0x04
def bitDir : UInt8 := 0x08

-- The data of the scopes in depth-first order.
def readToggle (flat : List NcdbToggle) : Decoder (List NcdbToggle) := do
  let k ← varint
  let p ← byte
  check (k.toNat < flat.length)
  let canonical ← optional (p &&& bitCanon ≠ 0) readLenprefixedStr
  let metric    ← optional (p &&& bitMetric ≠ 0) byte
  let type      ← optional (p &&& bitType ≠ 0) byte
  let dir       ← optional (p &&& bitDir ≠ 0) byte
  return flat.modify k.toNat fun t => {
    canonical := canonical.or t.canonical, metric := metric.getD t.metric
    type := type.getD t.type, dir := dir.getD t.dir }

-- A payload of another kind leaves the scopes as they are.
def toggleDeserialize (flat : List NcdbToggle) : Decoder (List NcdbToggle) := do
  match ← opening ncdbToggleMagic 1 with
  | none    => return flat
  | some bs =>
    if bs.headD 0 ≠ ncdbToggleVersion then
      return flat
    else do
      let n ← varint
      records n flat fun _ => readToggle

structure NcdbFsmState where
  name  : CString
  value : UInt32
  deriving DecidableEq

def ncdbFsmMagic : List UInt8 := [0x4E, 0x46, 0x53, 0x4D]
def ncdbFsmVersion : UInt8 := 1

def readFsmStates (sc : UInt64) : Decoder (List NcdbFsmState) :=
  records sc [] fun _ states => do
    let name ← readLenprefixedStrdup
    let val  ← varint
    return states ++ [⟨name, val.toUInt32⟩]

def readFsm (p : NcdbPlatform) (flat : List (List NcdbFsmState)) :
    Decoder (List (List NcdbFsmState)) := do
  let k ← varint
  check (k.toNat < flat.length)
  let sc ← varint
  if sc = 0 then
    return flat
  else do
    check (p.calloc sc)
    return flat.set k.toNat (← readFsmStates sc)

def fsmDeserialize (p : NcdbPlatform) (flat : List (List NcdbFsmState)) :
    Decoder (List (List NcdbFsmState)) := do
  match ← opening ncdbFsmMagic 1 with
  | none    => return flat
  | some bs =>
    if bs.headD 0 ≠ ncdbFsmVersion then
      return flat
    else do
      let n ← varint
      records n flat fun _ => readFsm p

-- What is known of a scope, told by its position.
structure NcdbFormalRecord where
  scope   : UInt64
  status  : Option UInt8 := none
  radius  : Option Int64 := none
  witness : Option CString := none
  deriving DecidableEq

def nfrmMagic : List UInt8 := [0x4E, 0x46, 0x52, 0x4D]
def nfrmVersion : UInt8 := 1

def formalBitStatus : UInt8 := 0x01
def formalBitRadius : UInt8 := 0x02
def formalBitWitness : UInt8 := 0x04

def zzDecode (v : UInt64) : Int64 :=
  ((v >>> 1) ^^^ (0 - (v &&& 1))).toInt64

-- Fields that are there replace the ones of an earlier record of the scope.
def formalPut (table : List NcdbFormalRecord) (new : NcdbFormalRecord) : List NcdbFormalRecord :=
  if table.any (·.scope == new.scope) then
    table.map fun r =>
      if r.scope = new.scope then
        { r with
          status := new.status.or r.status, radius := new.radius.or r.radius
          witness := new.witness.or r.witness }
      else r
  else
    table ++ [new]

def readFormal (p : NcdbPlatform) (total i : Nat) (table : List NcdbFormalRecord) :
    Decoder (List NcdbFormalRecord) := do
  let dfs      ← varint
  let presence ← byte
  if total ≤ dfs.toNat then do
    -- The scope is gone.
    let _ ← optional (presence &&& formalBitStatus ≠ 0) byte
    let _ ← optional (presence &&& formalBitRadius ≠ 0) varint
    let _ ← optional (presence &&& formalBitWitness ≠ 0) pass
    return table
  else do
    check (p.stores i)
    let status  ← optional (presence &&& formalBitStatus ≠ 0) byte
    let radius  ← optional (presence &&& formalBitRadius ≠ 0) varint
    let witness ← optional (presence &&& formalBitWitness ≠ 0) readLpStrN
    return formalPut table ⟨dfs, status, radius.map zzDecode, witness⟩

def formalDeserialize (p : NcdbPlatform) (total : Nat) (table : List NcdbFormalRecord) :
    Decoder (List NcdbFormalRecord) := do
  match ← opening nfrmMagic 2 with
  | none    => fail
  | some bs =>
    if bs.headD 0 ≠ nfrmVersion then
      fail
    else do
      let n ← varint
      records n table (readFormal p total)

structure NcdbMetric where
  id             : UInt32
  mode           : UInt8
  targetTypeMask : UInt64
  name           : CString
  deriving DecidableEq

def nmtrMagic : List UInt8 := [0x4E, 0x4D, 0x54, 0x52]
def nmtrVersion : UInt8 := 1

def readMetric (p : NcdbPlatform) (i : Nat) (metrics : List NcdbMetric) :
    Decoder (List NcdbMetric) := do
  let id   ← varint
  let mode ← byte
  let mask ← readU64le
  let name ← readLpStr
  check (p.stores i)
  return metrics ++ [⟨id.toUInt32, mode, mask, name⟩]

def metricDeserialize (p : NcdbPlatform) (metrics : List NcdbMetric) :
    Decoder (List NcdbMetric) := do
  match ← opening nmtrMagic 2 with
  | none    => fail
  | some bs =>
    if bs.headD 0 ≠ nmtrVersion then
      fail
    else do
      let n ← varint
      records n metrics (readMetric p)

-- The counts as the C library reads them.

open Decoder

def ncdbCountsModeUint32 : UInt8 := 0
def ncdbCountsModeVarint : UInt8 := 1

def ncdbVarintDecodeMany (count : UInt64) : Decoder (List UInt64) :=
  records count [] fun _ vals => do
    return vals ++ [← varint]

-- The size is compared once for all numbers; each of them is then read without another look.
def ncdbUint32DecodeMany (count : UInt64) : Decoder (List UInt64) := do
  fits false (count * 4)
  records count [] fun _ vals => do
    return vals ++ [(← take 4).foldr (fun b n => 256 * n + b.toUInt64) 0]

-- `calloc` is whether there is an array of that many numbers.
def ncdbCountsDecode (calloc : UInt64 → Bool) : Decoder (List UInt64) := do
  let mode  ← take 1
  let count ← varint
  check (calloc count)
  if mode = [ncdbCountsModeVarint] then
    ncdbVarintDecodeMany count
  else if mode = [ncdbCountsModeUint32] then
    ncdbUint32DecodeMany count
  else
    fail

def ncdbCountsDeserialize (calloc : UInt64 → Bool) : Decoder (List UInt64) := fun r c =>
  if r.buffer.size = 0 then (.done [], c) else ncdbCountsDecode calloc r c

-- The member that keeps the history, as the C library writes it.

-- A string that is missing is stored as an empty one.
def writeLp (s : Option CString) : List UInt8 :=
  encodeVarint (s.getD []).length ++ s.getD []

namespace NcdbHistoryEntry

-- The position of the parent plus one, zero for none.
def parentPlus1 (n : NcdbHistoryEntry) : UInt64 :=
  if n.parentIdx = -1 then 0 else n.parentIdx + 1

-- The strings after the two names.
def strings (n : NcdbHistoryEntry) : List (Option CString) :=
  [n.userName, n.seed, n.toolCategory, n.comment, n.date, n.runCwd, n.cmd, n.args, n.timeUnit,
    n.vendorId, n.vendorTool, n.vendorToolVersion, n.sameTests]

def write (n : NcdbHistoryEntry) : List UInt8 :=
  [n.kind.toUInt8] ++ (encodeVarint n.parentPlus1.toNat ++ (encodeVarint n.testStatus.toNat ++
    ([if n.compulsory = 0 then 0 else 1] ++ (encodeLe 8 n.simTime.toNat ++ (encodeLe 8 n.cpuTime.toNat ++
      (encodeLe 8 n.cost.toNat ++ (writeLp n.logicalName ++ (writeLp n.physicalName ++
        n.strings.flatMap writeLp))))))))

end NcdbHistoryEntry

def historySerialize (nodes : List NcdbHistoryEntry) : List UInt8 :=
  ncdbHistMagic ++ ([ncdbHistVersion] ++ (encodeVarint nodes.length ++ nodes.flatMap (·.write)))

-- What is made of a node: every string is there, and the flag is one or zero.
def NcdbHistoryEntry.reread (n : NcdbHistoryEntry) : NcdbHistoryEntry where
  kind              := n.kind.toUInt8.toUInt32
  parentIdx         := n.parentIdx
  testStatus        := n.testStatus
  compulsory        := if n.compulsory = 0 then 0 else 1
  simTime           := n.simTime
  cpuTime           := n.cpuTime
  cost              := n.cost
  logicalName       := n.logicalName
  physicalName      := n.physicalName.getD []
  userName          := n.userName.getD []
  seed              := n.seed.getD []
  toolCategory      := n.toolCategory.getD []
  comment           := n.comment.getD []
  date              := n.date.getD []
  runCwd            := n.runCwd.getD []
  cmd               := n.cmd.getD []
  args              := n.args.getD []
  timeUnit          := n.timeUnit.getD []
  vendorId          := n.vendorId.getD []
  vendorTool        := n.vendorTool.getD []
  vendorToolVersion := n.vendorToolVersion.getD []
  sameTests         := n.sameTests.getD []

-- Requests for memory are granted.
def historyRead (json : List UInt8 → Option (List NcdbHistoryEntry)) (member : ByteBuffer) :
    Option (List NcdbHistoryEntry) :=
  match historyDeserialize ⟨fun _ => true, fun _ => true⟩ json ⟨member, fun _ => true, true⟩ {} with
  | (.done nodes, _) => some nodes
  | _                => none
