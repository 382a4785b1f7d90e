import Covsight.Lib.Columns
import Covsight.NcdbC.ScopeTree

-- The member that associates covers with tests. A test is told by its slot, which is its position
-- among the history nodes that are not merges.

-- Slots and positions of history nodes are kept as numbers of 32 bits.
def slotLimit : Nat := 2 ^ 32

-- Associating a cover with a slot keeps the slots in order; one that is there is not added again.
def assocInsertSorted : List Nat → Nat → List Nat
  | [],      slot => [slot]
  | s :: ss, slot =>
    if s < slot then
      s :: assocInsertSorted ss slot
    else if slot < s then
      slot :: s :: ss
    else
      s :: ss

namespace Ncdb

-- The covers in depth-first order of their scopes.
def flattenCovers (db : Ncdb) : List NcdbCover :=
  db.dfsFlatten.flatMap (·.covers)

-- The positions of the real tests among the history nodes, by slot.
def slotToHist (db : Ncdb) : List Nat :=
  (db.historyNodes.zipIdx.filter fun (h, _) => h.kind ≠ ncdbHistoryMerge).map Prod.snd

-- A merge has no slot.
def histToSlot (db : Ncdb) (h : Nat) : Option Nat :=
  db.slotToHist.findIdx? (· = h)

end Ncdb

namespace NcdbCover

def assocHistory (db : Ncdb) (c : NcdbCover) (h : Nat) : Option NcdbCover :=
  (db.histToSlot h).map fun slot => { c with assoc := assocInsertSorted c.assoc (slot % slotLimit) }

end NcdbCover

inductive NtasTier
  | never
  | all
  | sparse
  deriving DecidableEq, Repr

namespace NtasTier

def toBits : NtasTier → UInt8
  | never  => 0
  | all    => 1
  | sparse => 2

-- Anything else is read as sparse.
def ofBits (bits : UInt8) : NtasTier :=
  if bits = 0 then never else if bits = 1 then all else sparse

-- Four covers share a byte, the first one in the lowest bits.
def pack : List NtasTier → List UInt8
  | []                       => []
  | [a]                      => [a.toBits]
  | [a, b]                   => [a.toBits ||| b.toBits <<< 2]
  | [a, b, c]                => [a.toBits ||| b.toBits <<< 2 ||| c.toBits <<< 4]
  | a :: b :: c :: d :: tiers =>
    (a.toBits ||| b.toBits <<< 2 ||| c.toBits <<< 4 ||| d.toBits <<< 6) :: pack tiers

def unpack (n : Nat) (bytes : List UInt8) : List NtasTier :=
  (List.range n).map fun i => ofBits ((bytes.getD (i / 4) 0) >>> (UInt8.ofNat (i % 4) * 2) &&& 3)

end NtasTier

def excCap : Nat := 256

-- A difference of two sizes wraps around.
def sizeSub (a b : Nat) : Nat :=
  (a + sizeLimit - b) % sizeLimit

-- The tier of a cover, with the slots that it lists as exceptions.
def classifyTier (slots : List Nat) (nReal : Nat) : NtasTier × List Nat :=
  if slots.length = 0 then
    (.never, [])
  else if slots.length = nReal then
    (.all, [])
  else if nReal - nReal / 20 < slots.length ∧ sizeSub nReal slots.length ≤ excCap then
    (.all, (leftOut slots (List.range nReal)).map (· % slotLimit))
  else
    (.sparse, [])

def writeDeltaList (vals : List Nat) : List UInt8 :=
  encodeUInt64 (UInt64.ofNat vals.length) ++ (deltas slotLimit 0 vals).flatMap encodeVarint

def readDeltaList (bytes : List UInt8) : Option (List Nat × List UInt8) := do
  let (n, bytes) ← decodeUInt64 bytes
  let (ds, bytes) ← decodeMany decodeUInt64 n.toNat bytes
  return (undeltas slotLimit 0 (ds.map (·.toNat)), bytes)

-- What is stored for a cover that has any slots.
def ntasRecord (slots : List Nat) (nReal : Nat) : List UInt8 :=
  match classifyTier slots nReal with
  | (.never, _)       => []
  | (.all, exceptions) => writeDeltaList exceptions
  | (.sparse, _)      => writeDeltaList slots

def skipStride : Nat := 1024

-- The payload with where every so manieth record starts.
structure NtasPayload where
  data     : List UInt8 := []
  skip     : List (Nat × Nat) := []
  nonempty : Nat := 0

def NtasPayload.add (nReal : Nat) (p : NtasPayload) : NcdbCover × Nat → NtasPayload
  | (c, i) =>
    if (classifyTier c.assoc nReal).fst = .never then
      p
    else {
      data     := p.data ++ ntasRecord c.assoc nReal
      skip     := if p.nonempty % skipStride = 0 then p.skip ++ [(i, p.data.length)] else p.skip
      nonempty := p.nonempty + 1
    }

-- "NTAS"
def ntasMagic : List UInt8 := [0x4E, 0x54, 0x41, 0x53]

def encodeSkip (e : Nat × Nat) : List UInt8 :=
  encodeUInt64 (UInt64.ofNat e.fst) ++ encodeUInt64 (UInt64.ofNat e.snd)

-- Without any association there is nothing to emit.
def Ncdb.testsAssocSerialize (db : Ncdb) : List UInt8 :=
  let covers := db.flattenCovers
  if covers.all (·.assoc.isEmpty) then
    []
  else
    let nReal := db.slotToHist.length
    let p := covers.zipIdx.foldl (NtasPayload.add nReal) {}
    ntasMagic ++ [1, 0] ++
      (encodeUInt64 (UInt64.ofNat nReal) ++ (encodeUInt64 (UInt64.ofNat covers.length) ++
        ((deltas sizeLimit 0 db.slotToHist).flatMap encodeVarint ++
          (NtasTier.pack (covers.map fun c => (classifyTier c.assoc nReal).fst) ++
            (p.data ++ (encodeUInt64 (UInt64.ofNat p.skip.length) ++ p.skip.flatMap encodeSkip))))))

structure NtasHeader where
  nReal      : Nat
  nCovers    : UInt64
  slotToHist : List Nat

-- The reserved byte is not looked at.
def readNtasHeader (data : List UInt8) : Option (NtasHeader × List UInt8) :=
  if 6 ≤ data.length ∧ data.take 4 = ntasMagic ∧ data[4]? = some 1 then do
    let (nReal, bytes) ← decodeUInt64 (data.drop 6)
    let (nCovers, bytes) ← decodeUInt64 bytes
    let (ds, bytes) ← decodeMany decodeUInt64 nReal.toNat bytes
    return ({
      nReal      := nReal.toNat
      nCovers    := nCovers
      slotToHist := (undeltas sizeLimit 0 (ds.map (·.toNat))).map (· % slotLimit)
    }, bytes)
  else
    none

-- The slots that a record stands for.
def ntasSlots (tier : NtasTier) (nReal : Nat) (list : List Nat) : List Nat :=
  match tier with
  | .all => ((leftOut list (List.range nReal)).map (· % slotLimit)).foldl assocInsertSorted []
  | _    => list.foldl assocInsertSorted []

-- The covers get their slots one after the other, up to the first record that cannot be read.
def readPayload (nReal : Nat) :
    List NtasTier → List NcdbCover → List UInt8 → List NcdbCover × Option (List UInt8)
  | tier :: tiers, c :: cs, bytes =>
    if tier = .never then
      let (cs, rest) := readPayload nReal tiers cs bytes
      (c :: cs, rest)
    else
      match readDeltaList bytes with
      | none               => (c :: cs, none)
      | some (list, bytes) =>
        let (cs, rest) := readPayload nReal tiers cs bytes
        ({ c with assoc := ntasSlots tier nReal list } :: cs, rest)
  | _, cs, bytes => (cs, some bytes)

def decodeSkip (bytes : List UInt8) : Option ((UInt64 × UInt64) × List UInt8) := do
  let (cover, bytes) ← decodeUInt64 bytes
  let (offset, bytes) ← decodeUInt64 bytes
  return ((cover, offset), bytes)

def readSkipTable (bytes : List UInt8) : Option (List (UInt64 × UInt64)) := do
  let (n, bytes) ← decodeUInt64 bytes
  let (entries, _) ← decodeMany decodeSkip n.toNat bytes
  return entries

namespace NcdbScope

mutual

-- The scopes with other covers, taken off the front of a list.
def putCovers (new : List NcdbCover) : NcdbScope → NcdbScope
  | mk d cs ss => mk d (new.take cs.length) (putCoversAll (new.drop cs.length) ss)

def putCoversAll (new : List NcdbCover) : List NcdbScope → List NcdbScope
  | []      => []
  | s :: ss => s.putCovers new :: putCoversAll (new.drop (s.dfs.flatMap (·.covers)).length) ss

end

end NcdbScope

namespace Ncdb

def putCovers (db : Ncdb) (new : List NcdbCover) : Ncdb :=
  { db with roots := NcdbScope.putCoversAll new db.roots }

-- Whether the member was accepted. The map of the slots is compared at the end, when the covers have
-- their slots.
def testsAssocDeserialize (db : Ncdb) (data : List UInt8) : Ncdb × Bool :=
  match readNtasHeader data with
  | none                 => (db, false)
  | some (header, bytes) =>
    let n := db.flattenCovers.length
    let tierBytes := (n + 3) / 4
    if UInt64.ofNat n ≠ header.nCovers ∨ bytes.length < tierBytes then
      (db, false)
    else
      let (covers, rest) :=
        readPayload header.nReal (NtasTier.unpack n bytes) db.flattenCovers (bytes.drop tierBytes)
      (db.putCovers covers,
        (rest.bind readSkipTable).isSome && decide (db.slotToHist = header.slotToHist))

end Ncdb
