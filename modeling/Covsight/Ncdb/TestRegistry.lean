import Covsight.Lib.Heap
import Mathlib.Data.List.Nodup
import Covsight.Lib.Packing
import Covsight.Ncdb.StringTable

-- Strings numbered by insertion order. The source keeps a reverse dictionary
-- `{s: i for i, s in enumerate(strings)}` beside the list.
structure StringIds where
  strings : List String := []
  deriving DecidableEq, Repr

namespace StringIds

def idIn (s : String) : (start : Nat) → List String → Option Nat
  | _,     []      => none
  | start, x :: xs => (idIn s (start + 1) xs).or (if x = s then some start else none)

-- What the reverse dictionary holds: a repeated string has its last position.
def idOf (ids : StringIds) (s : String) : Option Nat :=
  idIn s 0 ids.strings

def lookupId (ids : StringIds) (s : String) : Nat × StringIds :=
  match ids.idOf s with
  | some i => (i, ids)
  | none   => (ids.strings.length, ⟨ids.strings ++ [s]⟩)

-- Whether the heap offsets of the strings fit their 32 bits.
def packs (ids : StringIds) : Bool :=
  ids.strings.length < 2 ^ 32 ∧
    (Heap.offsets (ids.strings.map String.toList)).all (· < 2 ^ 32)

end StringIds

structure TestRegistry where
  nextRunId : Nat := 0
  names     : StringIds := {}
  seeds     : StringIds := {}
  deriving DecidableEq, Repr

-- The registry as stored: offset tables into one heap of zero-terminated names and seeds. The heap
-- is kept in characters; an encoded string has a zero byte exactly where it has the character NUL.
structure RegistryFile where
  nextRunId   : Nat
  nameOffsets : List Nat
  seedOffsets : List Nat
  heap        : List Char
  deriving DecidableEq, Repr

namespace TestRegistry

def lookupNameId (reg : TestRegistry) (name : String) : Nat × TestRegistry :=
  let (nameId, names) := reg.names.lookupId name
  (nameId, { reg with names := names })

def lookupSeedId (reg : TestRegistry) (seed : String) : Nat × TestRegistry :=
  let (seedId, seeds) := reg.seeds.lookupId seed
  (seedId, { reg with seeds := seeds })

def assignRunId (reg : TestRegistry) : Nat × TestRegistry :=
  (reg.nextRunId, { reg with nextRunId := reg.nextRunId + 1 })

-- `none` where packing a number raises.
def serialize (reg : TestRegistry) : Option RegistryFile :=
  if reg.nextRunId < 2 ^ 32 ∧ reg.names.packs ∧ reg.seeds.packs then
    some {
      nextRunId   := reg.nextRunId
      nameOffsets := Heap.offsets <| reg.names.strings.map String.toList
      seedOffsets := Heap.offsets <| reg.seeds.strings.map String.toList
      heap        := Heap.pack '\x00' (reg.names.strings.map String.toList) ++
        Heap.pack '\x00' (reg.seeds.strings.map String.toList)
    }
  else
    none

-- The base of the seed heap is computed from the names that were read.
def deserialize (file : RegistryFile) : Option TestRegistry := do
  let names ← file.nameOffsets.mapM <| Heap.readAt '\x00' file.heap
  let seedHeapBase := Heap.size names
  let seeds ← file.seedOffsets.mapM fun offset =>
    Heap.readAt '\x00' file.heap (seedHeapBase + offset)
  return {
    nextRunId := file.nextRunId
    names     := ⟨names.map String.ofList⟩
    seeds     := ⟨seeds.map String.ofList⟩
  }

end TestRegistry

namespace StringIds

variable {s : String} {ids : StringIds} {i : Nat}

theorem idIn_eq_none_iff {start : Nat} {xs : List String} : idIn s start xs = none ↔ s ∉ xs := by
  induction xs generalizing start
  case nil => simp [idIn]
  case cons x xs hi => grind [idIn]

theorem idIn_eq_some_iff {start : Nat} {xs : List String} (hn : xs.Nodup) :
    idIn s start xs = some i ↔ ∃ k, i = start + k ∧ xs[k]? = some s := by
  induction xs generalizing start
  case nil => simp [idIn]
  case cons x xs hi =>
    have ⟨hx, hn⟩ := List.nodup_cons.mp hn
    rw [idIn, Option.or_eq_some_iff, hi hn]
    constructor
    case mp =>
      intro h
      cases h
      case inl h =>
        have ⟨k, hk, hs⟩ := h
        exact ⟨k + 1, by omega, by simpa using hs⟩
      case inr h =>
        have ⟨_, h⟩ := h
        by_cases he : x = s <;> simp only [he, if_true, if_false, reduceCtorEq] at h
        exact ⟨0, by simpa using h.symm, by simp [he]⟩
    case mpr =>
      intro ⟨k, hk, hs⟩
      cases k
      case succ k => exact .inl ⟨k, by omega, by simpa using hs⟩
      case zero =>
        have he : x = s := by simpa using hs
        exact .inr ⟨idIn_eq_none_iff.mpr (he ▸ hx), by simp [he, hk]⟩

theorem idOf_eq_none_iff : ids.idOf s = none ↔ s ∉ ids.strings :=
  idIn_eq_none_iff

theorem idOf_eq_some_iff (hn : ids.strings.Nodup) :
    ids.idOf s = some i ↔ ids.strings[i]? = some s := by
  rw [idOf, idIn_eq_some_iff hn]
  simp

-- Looking a string up numbers it and keeps every number given before.
theorem lookupId_spec (hn : ids.strings.Nodup) (s : String) :
    (ids.lookupId s).snd.strings.Nodup ∧
    (ids.lookupId s).snd.strings[(ids.lookupId s).fst]? = some s ∧
    (∀ (i : Nat) x, ids.strings[i]? = some x → (ids.lookupId s).snd.strings[i]? = some x) ∧
    (∀ x ∈ (ids.lookupId s).snd.strings, x ∈ ids.strings ∨ x = s) := by
  rw [lookupId]
  split
  case h_1 i h => exact ⟨hn, (idOf_eq_some_iff hn).mp h, fun _ _ hx => hx, fun _ hx => .inl hx⟩
  case h_2 h =>
    have hs : s ∉ ids.strings := idOf_eq_none_iff.mp h
    refine ⟨by simpa using hn.concat hs, by simp, fun i x hx => ?_, by simp⟩
    rw [List.getElem?_append_left (List.getElem?_eq_some_iff.mp hx).1, hx]

end StringIds

namespace TestRegistry

-- No name and no seed contains the character that ends them in the heap.
def NulFree (reg : TestRegistry) : Prop :=
  (∀ s ∈ reg.names.strings, '\x00' ∉ s.toList) ∧ ∀ s ∈ reg.seeds.strings, '\x00' ∉ s.toList

theorem deserialize_serialize {reg : TestRegistry} {file : RegistryFile} (h : reg.NulFree)
    (hs : reg.serialize = some file) : deserialize file = some reg := by
  have hz : ∀ {xs : List String}, (∀ s ∈ xs, '\x00' ∉ s.toList) →
      ∀ seg ∈ xs.map String.toList, '\x00' ∉ seg := by simp
  have hl : ∀ xs : List String, (xs.map String.toList).map String.ofList = xs := by simp
  rw [serialize] at hs
  split at hs <;> cases hs
  case isTrue =>
    have hn := Heap.mapM_readAt_base (hz h.1) [] (Heap.pack '\x00' (reg.seeds.strings.map String.toList))
    have hd := Heap.mapM_readAt_base (hz h.2) (Heap.pack '\x00' (reg.names.strings.map String.toList)) []
    rw [Heap.pack_length] at hd
    simp only [List.nil_append, List.length_nil, Nat.zero_add, List.append_nil] at hn hd
    simp [deserialize, hn, hd, Function.comp_def]

end TestRegistry

-- The bytes of a registry: a header, the offsets of the names and of the seeds, and the names and the
-- seeds themselves, each with a zero byte after it.

namespace TestRegistry

open StringTable

def magic : Nat := 0x54535452
def version : Nat := 1

def packOffsets (strings : List String) : Option (List UInt8) :=
  pack ((Heap.offsets (strings.map utf8)).map fun offset : Nat => (4, (offset : Int)))

def stringHeap (strings : List String) : List UInt8 :=
  Heap.pack 0 (strings.map utf8)

def serializeBytes (reg : TestRegistry) : Option (List UInt8) := do
  let header ← pack [(4, magic), (1, version), (4, reg.nextRunId), (4, reg.names.strings.length),
    (4, reg.seeds.strings.length)]
  let nameOffsets ← packOffsets reg.names.strings
  let seedOffsets ← packOffsets reg.seeds.strings
  return header ++ nameOffsets ++ seedOffsets ++ stringHeap reg.names.strings ++ stringHeap reg.seeds.strings

def readString (heap : List UInt8) (offset : Nat) : Option String :=
  (Heap.readAt 0 heap offset).bind HistoryReader.utf8Decode

-- Where the seeds begin is known from the names that were read.
def deserializeBytes (data : List UInt8) : Option TestRegistry := do
  let (m, bytes)           ← decodeFixed 4 data
  let (v, bytes)           ← decodeFixed 1 bytes
  let (nextRunId, bytes)   ← decodeFixed 4 bytes
  let (numNames, bytes)    ← decodeFixed 4 bytes
  let (numSeeds, bytes)    ← decodeFixed 4 bytes
  guard (m = magic)
  guard (v = version)
  let (nameOffsets, bytes) ← decodeMany (decodeFixed 4) numNames bytes
  let (seedOffsets, heap)  ← decodeMany (decodeFixed 4) numSeeds bytes
  let names ← nameOffsets.mapM (readString heap)
  let seedHeapBase := Heap.size (names.map utf8)
  let seeds ← seedOffsets.mapM fun offset => readString heap (seedHeapBase + offset)
  return { nextRunId, names := ⟨names⟩, seeds := ⟨seeds⟩ }

def nameForId (reg : TestRegistry) (nameId : Nat) : Option String :=
  reg.names.strings[nameId]?

def seedForId (reg : TestRegistry) (seedId : Nat) : Option String :=
  reg.seeds.strings[seedId]?

end TestRegistry
