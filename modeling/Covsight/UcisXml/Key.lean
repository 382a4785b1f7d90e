import Covsight.Lib.Probing
import Mathlib.Data.Nat.Digits.Defs
import Covsight.Lib.XmlEscaping

-- XML text of the C++ writer.

open Xml

structure Sanitize where
  controlChars : Nat := 0
  badUtf8      : Nat := 0
  clampedInts  : Nat := 0

namespace Sanitize

def total (s : Sanitize) : Nat :=
  s.controlChars + s.badUtf8 + s.clampedInts

end Sanitize

inductive EscapeClass
  | pass
  | amp
  | lt
  | gt
  | quot
  | control
  | numRef
  | highBit
  deriving DecidableEq

def kEscape (c : UInt8) : EscapeClass :=
  if 0x80 ≤ c then .highBit
  else if c = '"'.toUInt8 then .quot
  else if c = '>'.toUInt8 then .gt
  else if c = '<'.toUInt8 then .lt
  else if c = '&'.toUInt8 then .amp
  else if c = 0x9 ∨ c = 0xA ∨ c = 0xD then .numRef
  else if c < 0x20 then .control
  else .pass

def utf8Len (b : UInt8) : Nat :=
  if b < 0xC2 then 0
  else if b < 0xE0 then 2
  else if b < 0xF0 then 3
  else if b < 0xF5 then 4
  else 0

def utf8Valid (p : List UInt8) : Nat :=
  let need := utf8Len (p.headD 0)
  if need = 0 ∨ p.length < need then 0
  else if (p.tail.take (need - 1)).any (· &&& 0xC0 ≠ 0x80) then 0
  else
    let p0 := p.headD 0
    let p1 := p.tail.headD 0
    if need = 3 ∧ p0 = 0xE0 ∧ p1 < 0xA0 then 0
    else if need = 3 ∧ p0 = 0xED ∧ 0xA0 ≤ p1 then 0
    else if need = 4 ∧ p0 = 0xF0 ∧ p1 < 0x90 then 0
    else if need = 4 ∧ p0 = 0xF4 ∧ 0x90 ≤ p1 then 0
    else need

def uxScan (s : List UInt8) : Scan Sanitize :=
  let c := s.headD 0
  match kEscape c with
  | .pass    => .keep 1
  | .highBit =>
    let seq := utf8Valid s
    if seq ≠ 0 then .keep seq
    else .replace (ascii ['?']) fun s => { s with badUtf8 := s.badUtf8 + 1 }
  | .amp     => .replace (ascii ['&', 'a', 'm', 'p', ';']) id
  | .lt      => .replace (ascii ['&', 'l', 't', ';']) id
  | .gt      => .replace (ascii ['&', 'g', 't', ';']) id
  | .quot    => .replace (ascii ['&', 'q', 'u', 'o', 't', ';']) id
  | .numRef  =>
    if c = 0x9 then .replace (ascii ['&', '#', 'x', '9', ';']) id
    else if c = 0xA then .replace (ascii ['&', '#', 'x', 'A', ';']) id
    else .replace (ascii ['&', '#', 'x', 'D', ';']) id
  | .control => .replace (ascii ['?']) fun s => { s with controlChars := s.controlChars + 1 }

def writeEscaped (t : List UInt8) (s : Sanitize) : Escaped Sanitize :=
  escapeWith uxScan t s

-- The keys of the C++ writer, and the table of strings that they are counted in. Numbers of slots and
-- offsets are kept without a bound.

open Xml

structure Str where
  off : Nat := 0
  len : Nat := 0

structure StrArena where
  buf : List UInt8 := [0]

namespace StrArena

def add (arena : StrArena) (t : List UInt8) : Str × StrArena :=
  if t = [] then ({}, arena) else (⟨arena.buf.length, t.length⟩, ⟨arena.buf ++ t⟩)

def get (arena : StrArena) (s : Str) : List UInt8 :=
  (arena.buf.drop s.off).take s.len

end StrArena

def hashText (t : List UInt8) : UInt64 :=
  t.foldl (fun h b => (h ^^^ b.toUInt64) * 1099511628211) 1469598103934665603

structure StrMap.Slot where
  hash  : UInt64
  key   : Str
  value : Nat

structure StrMap where
  slots : List (Option StrMap.Slot) := []
  count : Nat                       := 0

namespace StrMap

def home (hash : UInt64) : Nat :=
  hash.toUInt32.toNat

def Slot.home (s : Slot) : Nat :=
  StrMap.home s.hash

def grow (m : StrMap) : StrMap :=
  if m.slots.length ≠ 0 ∧ m.count * 2 < m.slots.length then m
  else
    let want := if m.slots.length ≠ 0 then m.slots.length * 2 else 64
    { m with slots := Probing.rehash Slot.home m.slots want }

def hits (arena : StrArena) (t : List UInt8) (s : Slot) : Bool :=
  s.hash = hashText t ∧ arena.get s.key = t

-- The value of a string, and whether it was added.
def getOrAdd (m : StrMap) (arena : StrArena) (t : List UInt8) (value : Nat) :
    Nat × Bool × StrArena × StrMap :=
  let m := m.grow
  let h := hashText t
  match Probing.lookup m.slots (hits arena t) (home h) with
  | some s => (s.value, false, arena, m)
  | none   =>
    let (key, arena') := arena.add t
    let slots := m.slots.set (Probing.search m.slots (hits arena t) (home h)) (some ⟨h, key, value⟩)
    (value, true, arena', { slots, count := m.count + 1 })

end StrMap

structure Status where
  keyCollisions : Nat      := 0
  sanitize      : Sanitize := {}

def writeUInt (v : Nat) : List UInt8 :=
  if v = 0 then ascii ['0'] else (Nat.digits 10 v).reverse.map fun d => .ofNat (0x30 + d)

structure KeyGen where
  arena  : StrArena := {}
  counts : StrMap   := {}
  bumps  : List Nat := []

namespace KeyGen

-- The number of times that a name came so far.
def occurrence (k : KeyGen) (name : List UInt8) (st : Status) : Nat × KeyGen × Status :=
  let (got, inserted, arena, counts) := k.counts.getOrAdd k.arena name k.bumps.length
  if inserted then
    (1, { arena, counts, bumps := k.bumps ++ [1] }, st)
  else
    let n := k.bumps.getD got 0 + 1
    (n, { arena, counts, bumps := k.bumps.set got n }, { st with keyCollisions := st.keyCollisions + 1 })

def writeKey (k : KeyGen) (name : List UInt8) (st : Status) : List UInt8 × KeyGen × Status :=
  let (n, k, st) := k.occurrence name st
  let e := writeEscaped name st.sanitize
  (e.out ++ if n > 1 then '#'.toUInt8 :: writeUInt n else [], k, { st with sanitize := e.notes })

-- The keys of the elements of a container, by their names.
def writeKeys (k : KeyGen) (st : Status) : List (List UInt8) → List (List UInt8)
  | []            => []
  | name :: names =>
    let (key, k, st) := k.writeKey name st
    key :: writeKeys k st names

end KeyGen
