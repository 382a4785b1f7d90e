import Covsight.Lib.Grouping
import Covsight.NcdbC.ScopeTree
import Mathlib.Data.String.Basic
import Covsight.NcdbC.Covers

-- The unique id of a scope names the scopes on the way to it. The index of unique ids finds a scope by
-- the hash of its unique id.

def xxhPrime1 : UInt64 := 0x9E3779B185EBCA87
def xxhPrime2 : UInt64 := 0xC2B2AE3D27D4EB4F
def xxhPrime3 : UInt64 := 0x165667B19E3779F9
def xxhPrime4 : UInt64 := 0x85EBCA77C2B2AE63
def xxhPrime5 : UInt64 := 0x27D4EB2F165667C5

def xxhRotl (v n : UInt64) : UInt64 :=
  (v <<< n) ||| (v >>> (64 - n))

-- A number of 8 or 4 bytes.
def xxhRead (width : Nat) (bytes : List UInt8) : UInt64 :=
  UInt64.ofNat (decodeLe (bytes.take width))

def xxhRound (acc input : UInt64) : UInt64 :=
  xxhRotl (acc + input * xxhPrime2) 31 * xxhPrime1

def xxhMergeRound (acc val : UInt64) : UInt64 :=
  (acc ^^^ xxhRound 0 val) * xxhPrime1 + xxhPrime4

structure XxhLanes where
  v1 : UInt64
  v2 : UInt64
  v3 : UInt64
  v4 : UInt64

namespace XxhLanes

def init (seed : UInt64) : XxhLanes where
  v1 := seed + xxhPrime1 + xxhPrime2
  v2 := seed + xxhPrime2
  v3 := seed
  v4 := seed - xxhPrime1

-- A stripe of 32 bytes goes in, 8 bytes to a lane.
def stripe (l : XxhLanes) (bytes : List UInt8) : XxhLanes where
  v1 := xxhRound l.v1 (xxhRead 8 bytes)
  v2 := xxhRound l.v2 (xxhRead 8 (bytes.drop 8))
  v3 := xxhRound l.v3 (xxhRead 8 (bytes.drop 16))
  v4 := xxhRound l.v4 (xxhRead 8 (bytes.drop 24))

def merge (l : XxhLanes) : UInt64 :=
  [l.v1, l.v2, l.v3, l.v4].foldl xxhMergeRound
    (xxhRotl l.v1 1 + xxhRotl l.v2 7 + xxhRotl l.v3 12 + xxhRotl l.v4 18)

end XxhLanes

def xxhAvalanche (h : UInt64) : UInt64 :=
  let h := (h ^^^ (h >>> 33)) * xxhPrime2
  let h := (h ^^^ (h >>> 29)) * xxhPrime3
  h ^^^ (h >>> 32)

-- The pieces of a number of bytes that a list begins with.
def xxhPieces (width : Nat) (bytes : List UInt8) : List (List UInt8) :=
  (List.range (bytes.length / width)).map fun i => (bytes.drop (width * i)).take width

def ncdbXxh64 (input : List UInt8) (seed : UInt64) : UInt64 :=
  let h :=
    if 32 ≤ input.length then
      ((xxhPieces 32 input).foldl XxhLanes.stripe (.init seed)).merge
    else
      seed + xxhPrime5
  let h := h + UInt64.ofNat input.length
  let tail := input.drop (32 * (input.length / 32))
  let h := (xxhPieces 8 tail).foldl
    (fun h word => xxhRotl (h ^^^ xxhRound 0 (xxhRead 8 word)) 27 * xxhPrime1 + xxhPrime4) h
  let tail := tail.drop (8 * (tail.length / 8))
  let h := (xxhPieces 4 tail).foldl
    (fun h word => xxhRotl (h ^^^ xxhRead 4 word * xxhPrime1) 23 * xxhPrime2 + xxhPrime3) h
  let tail := tail.drop (4 * (tail.length / 4))
  let h := tail.foldl (fun h b => xxhRotl (h ^^^ b.toUInt64 * xxhPrime5) 11 * xxhPrime1) h
  xxhAvalanche h

-- The position of the lowest bit that is set, 63 where no lower one is. No type has no bits.
def typeLog2 (type : UInt64) : Nat :=
  let rec lowest : (left : Nat) → UInt64 → Nat
    | 0,        _    => 0
    | left + 1, type => if type &&& 1 = 0 then lowest left (type >>> 1) + 1 else 0
  if type = 0 then 0 else lowest 63 type

def utf8Bytes (s : String) : List UInt8 :=
  s.toList.flatMap String.utf8EncodeChar

-- The first byte of the path separator, where one is set.
def uidSeparator (pathSeparator : Option String) : UInt8 :=
  ((pathSeparator.map utf8Bytes).bind (·.head?)).getD 0x2F

-- A separator, the position of the bit of the type, a colon and the name.
def uidComponent (sep : UInt8) (d : NcdbScopeData) : List UInt8 :=
  sep :: (utf8Bytes (toString (typeLog2 d.type)) ++ 0x3A :: utf8Bytes d.name)

def uidChainCap : Nat := 64
def uidBufferSize : Nat := 1024

-- The scopes from a root to the scope itself.
abbrev NcdbChain := List NcdbScopeData

-- A component has to leave a byte of the buffer.
def appendComponents (sep : UInt8) (bufsz : Nat) : (buf : List UInt8) → NcdbChain → Option (List UInt8)
  | buf, []      => some buf
  | buf, d :: ds =>
    if (uidComponent sep d).length < bufsz - buf.length then
      appendComponents sep bufsz (buf ++ uidComponent sep d) ds
    else
      none

def computeUniqueId (sep : UInt8) (chain : NcdbChain) (bufsz : Nat) : Option (List UInt8) :=
  if uidChainCap < chain.length then none else appendComponents sep bufsz [] chain

namespace NcdbScope

mutual

-- The chains of a scope and of all below it, in depth-first order.
def chains (above : NcdbChain) : NcdbScope → List NcdbChain
  | mk d _ ss => (above ++ [d]) :: chainsAll (above ++ [d]) ss

def chainsAll (above : NcdbChain) : List NcdbScope → List NcdbChain
  | []      => []
  | s :: ss => s.chains above ++ chainsAll above ss

end

end NcdbScope

def Ncdb.chains (db : Ncdb) : List NcdbChain :=
  NcdbScope.chainsAll [] db.roots

structure NuidEntry where
  hash   : UInt64
  dfsIdx : UInt64

namespace NuidEntry

def encode (e : NuidEntry) : List UInt8 :=
  encodeLe 8 e.hash.toNat ++ encodeUInt64 e.dfsIdx

def decode (bytes : List UInt8) : Option (NuidEntry × List UInt8) := do
  let (hash, bytes) ← (if 8 ≤ bytes.length then some (xxhRead 8 bytes, bytes.drop 8) else none)
  let (dfsIdx, bytes) ← decodeUInt64 bytes
  return (⟨hash, dfsIdx⟩, bytes)

end NuidEntry

-- "NUID"
def nuidMagic : List UInt8 := [0x4E, 0x55, 0x49, 0x44]

-- The order of entries with one hash is not specified.
def nuidEntries (uids : List (List UInt8)) : List NuidEntry :=
  (uids.zipIdx.map fun (uid, i) => ⟨ncdbXxh64 uid 0, UInt64.ofNat i⟩).mergeSort
    fun a b => decide (a.hash ≤ b.hash)

-- There is nothing to emit for a database without scopes.
def Ncdb.uniqueIdIndexSerialize (db : Ncdb) (pathSeparator : Option String) : Option (List UInt8) :=
  let chains := db.chains
  if chains = [] then
    some []
  else do
    let uids ← chains.mapM fun chain => computeUniqueId (uidSeparator pathSeparator) chain uidBufferSize
    return nuidMagic ++ [1, 0] ++
      (encodeVarint uids.length ++ (nuidEntries uids).flatMap NuidEntry.encode)

-- The flags, and bytes behind the entries, are not looked at.
def uniqueIdIndexDeserialize (data : List UInt8) : Option (List NuidEntry) :=
  if 7 ≤ data.length ∧ data.take 4 = nuidMagic ∧ data[4]? = some 1 then do
    let (n, bytes) ← decodeUInt64 (data.drop 6)
    let (entries, _) ← decodeMany NuidEntry.decode n.toNat bytes
    return entries
  else
    none

-- The entries are searched by their hashes.
def uniqueIdIndexLookup (entries : List NuidEntry) (hash : UInt64) : Option UInt64 :=
  search (entries.map fun e => (e.hash.toNat, e.dfsIdx)) hash.toNat

-- Finding a scope by its unique id, and a design unit by its name. A database that was read from a
-- file has an index for each, which later edits leave as it is; without them the tree is scanned.

namespace NcdbScope

mutual

-- The scopes of a tree in depth-first order, each with the scopes on the way to it.
def pointers (p : NcdbScopePath) (above : NcdbChain) : NcdbScope → List (NcdbScopePath × NcdbChain)
  | mk d _ ss => (p, above ++ [d]) :: pointersAll p 0 (above ++ [d]) ss

def pointersAll (p : NcdbScopePath) (start : Nat) (above : NcdbChain) :
    List NcdbScope → List (NcdbScopePath × NcdbChain)
  | []      => []
  | s :: ss =>
    s.pointers ⟨p.root, p.path ++ [start]⟩ above ++ pointersAll p (start + 1) above ss

end

end NcdbScope

namespace Ncdb

def pointers (db : Ncdb) : List (NcdbScopePath × NcdbChain) :=
  db.roots.zipIdx.flatMap fun (s, i) => s.pointers ⟨i, []⟩ []

def scopeByDfsIndex (db : Ncdb) (dfsIdx : UInt64) : Option (NcdbScopePath × NcdbChain) :=
  db.pointers[dfsIdx.toNat]?

end Ncdb

-- The type of a scope is cut to 32 bits.
def isDuNamed (name : String) (chain : NcdbChain) : Bool :=
  chain.getLast?.any fun d =>
    d.type.toUInt32 &&& ncdbDuTypeMask.toUInt32 ≠ 0 && d.name = name

-- A database with what was read from a file besides: the index of unique ids, and the design units
-- sorted by name.
structure UcisDb where
  db            : Ncdb
  pathSeparator : Option String := some "/"
  nuidIdx       : Option (List NuidEntry) := none
  duLookup      : List (String × Option NcdbScopePath) := []

namespace UcisDb

def uniqueIdOf (x : UcisDb) (chain : NcdbChain) : Option (List UInt8) :=
  computeUniqueId (uidSeparator x.pathSeparator) chain uidBufferSize

def matchDuByName (x : UcisDb) (name : String) : Option NcdbScopePath :=
  (searchWithin x.duLookup name (x.duLookup.length + 1) 0 x.duLookup.length).join

def findDu (x : UcisDb) (name : String) : Option NcdbScopePath :=
  (x.db.pointers.find? fun (_, chain) => isDuNamed name chain).map (·.1)

-- Where the names that were read do not have it, the tree is scanned.
def matchDu (x : UcisDb) (name : String) : Option NcdbScopePath :=
  (x.matchDuByName name).or (x.findDu name)

def findUniqueId (x : UcisDb) (uniqueId : List UInt8) : Option NcdbScopePath :=
  (x.db.pointers.find? fun (_, chain) => x.uniqueIdOf chain = some uniqueId).map (·.1)

-- With an index the tree is not scanned.
def matchScopeByUniqueId (x : UcisDb) (uniqueId : List UInt8) : Option NcdbScopePath :=
  match x.nuidIdx with
  | some entries => do
    let dfsIdx ← uniqueIdIndexLookup entries (ncdbXxh64 uniqueId 0)
    let (p, chain) ← x.db.scopeByDfsIndex dfsIdx
    if x.uniqueIdOf chain = some uniqueId then some p else none
  | none => x.findUniqueId uniqueId

def createScope (x : UcisDb) (parent : Option NcdbScopePath) (d : NcdbScopeData) : UcisDb :=
  { x with db := x.db.createScope parent d }

end UcisDb

namespace Ncdb

def readDuLookup (db : Ncdb) (t : NcdbTables) (data : List UInt8) :
    List (String × Option NcdbScopePath) :=
  (((splitTrailer data).2.bind decodeDuIndex).getD []).map fun (nameIdx, dfsIdx) =>
    (t.stringsGet nameIdx, (db.scopeByDfsIndex dfsIdx).map (·.1))

end Ncdb

namespace UcisDb

-- Writing the database and reading it back. There is no index of unique ids in a file without scopes.
def reopen (x : UcisDb) : Option UcisDb := do
  let out ← x.db.scopeTreeSerialize [""]
  let nuid ← x.db.uniqueIdIndexSerialize x.pathSeparator
  let roots ← scopeTreeDeserialize out.toNcdbTables out.data out.counts
  let db := { x.db with roots := roots, sources := out.sources }
  return {
    db            := db
    pathSeparator := x.pathSeparator
    nuidIdx       := if nuid = [] then none else uniqueIdIndexDeserialize nuid
    duLookup      := db.readDuLookup out.toNcdbTables out.data
  }

end UcisDb
