import Covsight.Lib.Probing
import Covsight.Lib.XmlEscaping
import Mathlib.Algebra.Group.Int.Defs
import Mathlib.Algebra.Group.Nat.Defs

-- XML text of the streaming C writer.

open Xml

inductive UwCh
  | plain
  | amp
  | lt
  | gt
  | quot
  | apos
  | numref
  | bad
  deriving DecidableEq

namespace UwCh

def ofClass : Nat → UwCh
  | 0 => plain
  | 1 => amp
  | 2 => lt
  | 3 => gt
  | 4 => quot
  | 5 => apos
  | 6 => numref
  | _ => bad

end UwCh

def uwClassAscii : List Nat := [
  7, 7, 7, 7, 7, 7, 7, 7, 7, 6, 6, 7, 7, 6, 7, 7,
  7, 7, 7, 7, 7, 7, 7, 7, 7, 7, 7, 7, 7, 7, 7, 7,
  0, 0, 4, 0, 0, 0, 1, 5, 0, 0, 0, 0, 0, 0, 0, 0,
  0, 0, 0, 0, 0, 0, 0, 0, 0, 0, 0, 0, 2, 0, 3, 0,
  0, 0, 0, 0, 0, 0, 0, 0, 0, 0, 0, 0, 0, 0, 0, 0,
  0, 0, 0, 0, 0, 0, 0, 0, 0, 0, 0, 0, 0, 0, 0, 0,
  0, 0, 0, 0, 0, 0, 0, 0, 0, 0, 0, 0, 0, 0, 0, 0,
  0, 0, 0, 0, 0, 0, 0, 0, 0, 0, 0, 0, 0, 0, 0, 0
]

-- How many bytes the first one asks for, with its part of the code point.
def uwUtf8Lead (c0 : UInt8) : Option (Nat × Nat) :=
  if c0 < 0xC2 then none
  else if c0 < 0xE0 then some (2, (c0 &&& 0x1F).toNat)
  else if c0 < 0xF0 then some (3, (c0 &&& 0x0F).toNat)
  else if c0 < 0xF5 then some (4, (c0 &&& 0x07).toNat)
  else none

def uwUtf8Rest : List UInt8 → (cp : Nat) → Option Nat
  | [],     cp => some cp
  | b :: s, cp => if b &&& 0xC0 ≠ 0x80 then none else uwUtf8Rest s (cp <<< 6 ||| (b &&& 0x3F).toNat)

def uwUtf8Len (s : List UInt8) : Nat :=
  match uwUtf8Lead (s.headD 0) with
  | none            => 0
  | some (need, cp) =>
    if s.length < need then 0
    else
      match uwUtf8Rest (s.tail.take (need - 1)) cp with
      | none    => 0
      | some cp =>
        if need = 3 ∧ cp < 0x800 then 0
        else if need = 4 ∧ cp < 0x10000 then 0
        else if 0xD800 ≤ cp ∧ cp ≤ 0xDFFF then 0
        else if 0x10FFFF < cp ∨ cp = 0xFFFE ∨ cp = 0xFFFF then 0
        else need

-- The number of warnings goes up where a byte cannot be represented.
def uwScan (s : List UInt8) : Scan Nat :=
  let c := s.headD 0
  let bad : Scan Nat := .replace (ascii ['?']) (· + 1)
  if 0x80 ≤ c then
    let seq := uwUtf8Len s
    if seq ≠ 0 then .keep seq else bad
  else
    match UwCh.ofClass (uwClassAscii.getD c.toNat 0) with
    | .plain  => .keep 1
    | .amp    => .replace (ascii ['&', 'a', 'm', 'p', ';']) id
    | .lt     => .replace (ascii ['&', 'l', 't', ';']) id
    | .gt     => .replace (ascii ['&', 'g', 't', ';']) id
    | .quot   => .replace (ascii ['&', 'q', 'u', 'o', 't', ';']) id
    | .apos   => .replace (ascii ['&', 'a', 'p', 'o', 's', ';']) id
    | .numref =>
      if c = 0x9 then .replace (ascii ['&', '#', '9', ';']) id
      else if c = 0xA then .replace (ascii ['&', '#', '1', '0', ';']) id
      else .replace (ascii ['&', '#', '1', '3', ';']) id
    | .bad    => bad

def uwTextEscape (s : List UInt8) (nwarn : Nat) : Escaped Nat :=
  escapeWith uwScan s nwarn

-- The table of source files of the streaming C writer. The number of buckets is a power of two, so that
-- the mask is the remainder.

open Xml

structure UwFile where
  id   : Nat
  name : List UInt8
  deriving DecidableEq

structure UwFiletab where
  buckets : List (List UwFile) := []
  byid    : List UwFile        := []
  isSealed : Bool              := false

def uwHash (s : List UInt8) : UInt64 :=
  s.foldl (fun h b => (h ^^^ b.toUInt64) * 16777619) 1469598103

def UwFile.home (f : UwFile) : Nat :=
  (uwHash f.name).toNat

-- A file as it is registered. The working directory may be missing.
structure Registration where
  filename : List UInt8
  workdir  : Option (List UInt8)
  deriving DecidableEq

namespace Registration

-- The directory that is put before the name, without one slash at its end.
def prefixed (r : Registration) : List UInt8 :=
  match r.workdir with
  | none         => []
  | some workdir =>
    if workdir ≠ [] ∧ r.filename.head? ≠ some '/'.toUInt8 then
      if workdir.getLast? = some '/'.toUInt8 then workdir.dropLast else workdir
    else
      []

def joined (r : Registration) : List UInt8 :=
  if r.prefixed ≠ [] then r.prefixed ++ '/'.toUInt8 :: r.filename else r.filename

end Registration

namespace UwFiletab

def initBuckets : Nat :=
  64

def grow (t : UwFiletab) : UwFiletab :=
  let newn := if t.buckets.length ≠ 0 then t.buckets.length * 2 else initBuckets
  { t with buckets := Chaining.build UwFile.home newn t.byid }

-- The file of a registration; there is none if the table is closed and does not know it.
def intern (t : UwFiletab) (r : Registration) : Option UwFile × UwFiletab :=
  let t := if t.buckets.length = 0 then t.grow else t
  let name := r.joined
  match Chaining.find t.buckets (fun f => f.name = name) (uwHash name).toNat with
  | some cur => (some cur, t)
  | none     =>
    if t.isSealed then
      (none, t)
    else
      let f := { id := t.byid.length + 1, name }
      let t := { t with byid := t.byid ++ [f], buckets := Chaining.put UwFile.home t.buckets f }
      (some f, if t.byid.length * 2 > t.buckets.length then t.grow else t)

def byId (t : UwFiletab) (id : Nat) : Option UwFile :=
  if id = 0 ∨ id > t.byid.length then none else t.byid[id - 1]?

-- The attributes of the elements, or those of a placeholder.
def emitSourceFiles (t : UwFiletab) : List (List UInt8 × Nat) :=
  if t.byid.length = 0 then
    [(ascii "(unknown)".toList, 1)]
  else
    t.byid.map fun f => ((uwTextEscape f.name 0).out, f.id)

-- The table is written out and closed.
def flush (t : UwFiletab) : List (List UInt8 × Nat) × UwFiletab :=
  let t := { t with isSealed := true }
  (t.emitSourceFiles, t)

-- What is returned for registrations, one after the other.
def internAll (t : UwFiletab) : List Registration → List (Option UwFile) × UwFiletab
  | []      => ([], t)
  | r :: rs =>
    let (f, t) := t.intern r
    let (fs, t) := t.internAll rs
    (f :: fs, t)

end UwFiletab

-- Coverpoints, crosses and their bins in one covergroup instance of the streaming C writer. Names are
-- given without the zero byte at their end.

structure UwCvpslot where
  hash  : UInt64
  index : UInt32
  deriving DecidableEq

structure UwCvptab where
  slots    : List (Option UwCvpslot) := []
  used     : Nat                     := 0
  cvpCount : UInt32                  := 0
  binCount : UInt32                  := 0

-- The ordinal under which the names of coverpoints are kept.
def uwCvpNamespace : UInt32 :=
  0xFFFFFFFF

def uwCvpHash (cvp : UInt32) (name : List UInt8) : UInt64 :=
  let byte (h : UInt64) (b : UInt64) := (h ^^^ b) * 1099511628211
  let h := ([0, 8, 16, 24] : List UInt32).foldl (fun h i => byte h ((cvp >>> i) &&& 0xFF).toUInt64)
    1469598103934665603
  let h := name.foldl (fun h b => byte h b.toUInt64) h
  if h = 0 then 1 else h

def UwCvpslot.home (s : UwCvpslot) : Nat :=
  s.hash.toNat

inductive UwErr
  | order
  | state
  deriving DecidableEq

namespace UwCvptab

def grow (t : UwCvptab) : UwCvptab :=
  let newcap := if t.slots.length ≠ 0 then t.slots.length * 2 else 64
  { t with slots := Probing.rehash UwCvpslot.home t.slots newcap }

-- The first writer wins.
def put (t : UwCvptab) (cvp : UInt32) (name : List UInt8) (index : UInt32) : UwCvptab :=
  let t := if t.used * 4 ≥ t.slots.length * 3 then t.grow else t
  let h := uwCvpHash cvp name
  match Probing.lookup t.slots (fun s => s.hash = h) h.toNat with
  | some _ => t
  | none   =>
    { t with
      slots := t.slots.set (Probing.search t.slots (fun s => s.hash = h) h.toNat) (some ⟨h, index⟩)
      used  := t.used + 1 }

def get (t : UwCvptab) (cvp : UInt32) (name : List UInt8) : Option UInt32 :=
  if t.slots.length = 0 then none
  -- The name is copied to a buffer of 128 bytes.
  else if name.length ≥ 128 then none
  else
    let h := uwCvpHash cvp name
    (Probing.lookup t.slots (fun s => s.hash = h) h.toNat).map (·.index)

end UwCvptab

def uwMaxCrossed : Nat :=
  16

-- What is open in the instance.
inductive UwTop
  | coverinstance
  | coverpoint
  | cross
  deriving DecidableEq

inductive UwCgstage
  | opened
  | coverpoint
  | cross
  deriving DecidableEq

structure UwCgInstance where
  cvpbins  : UwCvptab    := {}
  top      : UwTop       := .coverinstance
  stage    : UwCgstage   := .opened
  crossCvp : List UInt32 := []

namespace UwCgInstance

-- A coverpoint comes before every cross.
def uwOpenCoverpoint (db : UwCgInstance) (name : List UInt8) : Except UwErr UwCgInstance :=
  if db.stage = .cross then throw .order
  else
    let t := db.cvpbins.put uwCvpNamespace name db.cvpbins.cvpCount
    let t := { t with cvpCount := t.cvpCount + 1, binCount := 0 }
    return { db with cvpbins := t, top := .coverpoint, stage := .coverpoint }

def uwOpenCross (db : UwCgInstance) : UwCgInstance :=
  { db with top := .cross, stage := .cross, crossCvp := [] }

def uwCrossAddCvp (db : UwCgInstance) (name : List UInt8) : Except UwErr UwCgInstance :=
  if db.crossCvp.length ≥ uwMaxCrossed then return db
  else
    match db.cvpbins.get uwCvpNamespace name with
    | none     => throw .order
    | some ord => return { db with crossCvp := db.crossCvp ++ [ord] }

def uwCross (db : UwCgInstance) (crossed : List (List UInt8)) : Except UwErr UwCgInstance :=
  crossed.foldlM uwCrossAddCvp db.uwOpenCross

def uwEmitCoverpointBin (db : UwCgInstance) (name : List UInt8) : UwCgInstance :=
  let index := db.cvpbins.binCount
  let t := db.cvpbins.put (db.cvpbins.cvpCount - 1) name index
  { db with cvpbins := { t with binCount := t.binCount + 1 } }

def comma : UInt8 :=
  ','.toUInt8

-- The bin of a component. An unknown one is -1.
def crossIndex (db : UwCgInstance) (i : Nat) (component : List UInt8) : Int :=
  let cvp := if i < db.crossCvp.length then db.crossCvp.getD i 0 else .ofNat i
  match db.cvpbins.get cvp component with
  | none     => -1
  | some ord => Int.ofNat ord.toNat

-- The indices for the components from the i-th one on
def indicesFrom (db : UwCgInstance) : (fuel i : Nat) → List UInt8 → List Int
  | 0,        _, _ => []
  | fuel + 1, i, p =>
    let ord := db.crossIndex i <| p.takeWhile (· ≠ comma)
    match p.dropWhile (· ≠ comma) with
    | []     => [ord]
    | _ :: p => ord :: db.indicesFrom fuel (i + 1) p

def uwEmitCrossIndices (db : UwCgInstance) (name : List UInt8) : List Int :=
  db.indicesFrom uwMaxCrossed 0 name

-- A bin goes to what is open. A bin of a cross is written with its indices.
def uwEmitCvgBin (db : UwCgInstance) (name : List UInt8) : Except UwErr (List Int × UwCgInstance) :=
  match db.top with
  | .coverpoint    => return ([], db.uwEmitCoverpointBin name)
  | .cross         => return (db.uwEmitCrossIndices name, db)
  | .coverinstance => throw .state

-- A coverpoint or a cross is closed. The instance itself stays open.
def uwElEnd (db : UwCgInstance) : UwCgInstance :=
  { db with top := .coverinstance }

end UwCgInstance

-- What is called while the instance is open.
inductive UwCall
  | coverpoint (name : List UInt8)
  | cross (crossed : List (List UInt8))
  | bin (name : List UInt8)
  | elEnd

namespace UwCgInstance

def call (db : UwCgInstance) : UwCall → Except UwErr UwCgInstance
  | .coverpoint name => db.uwOpenCoverpoint name
  | .cross crossed   => db.uwCross crossed
  | .bin name        => (·.snd) <$> db.uwEmitCvgBin name
  | .elEnd           => return db.uwElEnd

def run (db : UwCgInstance) (calls : List UwCall) : Except UwErr UwCgInstance :=
  calls.foldlM call db

end UwCgInstance
