import Covsight.Lib.Dict
import Covsight.Lib.EncodedReads
import Covsight.Lib.Interning
import Covsight.NcdbC.Theorems.HistoryMember
import Mathlib.Data.List.TakeWhile

-- The tables of typed properties and of attributes of the C library, and how they are stored. Memory that is asked
-- for is there.

open Decoder

-- A string in memory ends at its first zero.
@[ext]
structure CText where
  bytes   : CString
  no_zero : 0 ∉ bytes
  deriving DecidableEq

theorem not_mem_cString (bytes : List UInt8) : 0 ∉ cString bytes := by
  intro h
  have hz := List.mem_takeWhile_imp h
  simp at hz

def CText.ofBytes (bytes : List UInt8) : CText :=
  ⟨cString bytes, not_mem_cString bytes⟩

theorem CText.cString_bytes (t : CText) : cString t.bytes = t.bytes :=
  List.takeWhile_eq_self_iff.mpr fun _ hb => decide_eq_true fun hz => t.no_zero (hz ▸ hb)

theorem CText.ofBytes_bytes (t : CText) : ofBytes t.bytes = t := by
  simp only [ofBytes, cString_bytes]

def zzEncode (v : Int64) : UInt64 :=
  ((v <<< 1) ^^^ (v >>> 63)).toUInt64

def lengthPrefixed (bytes : List UInt8) : List UInt8 :=
  encodeVarint bytes.length ++ bytes

theorem encodeVarint_ne_nil (n : Nat) : encodeVarint n ≠ [] :=
  varintBytes_ne_nil n n

theorem lengthPrefixed_ne_nil (bytes : List UInt8) : lengthPrefixed bytes ≠ [] :=
  List.append_ne_nil_of_left_ne_nil (encodeVarint_ne_nil _) _

-- The strings that properties refer to. A string is in the table once.
structure NcdbStrings where
  items : List CText
  nodup : items.Nodup

namespace NcdbStrings

def add (strings : NcdbStrings) (s : CText) : Nat × NcdbStrings :=
  ((intern strings.items s).fst, ⟨(intern strings.items s).snd, intern.nodup strings.nodup⟩)

def serialize (strings : NcdbStrings) : List UInt8 :=
  encodeVarint strings.items.length ++ strings.items.flatMap fun s => lengthPrefixed s.bytes

end NcdbStrings

-- A string that is not in the table is empty.
def stringsGet (tab : List CString) (idx : UInt64) : CString :=
  tab.getD idx.toNat []

-- Typed properties.

inductive PropValue
  | int32 (v : Int32)
  | int64 (v : Int64)
  | double (bits : UInt64)
  | string (s : CText)
  deriving DecidableEq

abbrev PropTable :=
  Dict UInt16 PropValue

-- The number of a string is an `int`.
def PropValue.write (strings : NcdbStrings) : PropValue → Option (List UInt8 × NcdbStrings)
  | int32 v     => some (1 :: encodeVarint (zzEncode v.toInt64).toNat, strings)
  | int64 v     => some (2 :: encodeVarint (zzEncode v).toNat, strings)
  | double bits => some (3 :: encodeLe 8 bits.toNat, strings)
  | string s    =>
    let (idx, strings) := strings.add s
    if idx < 2 ^ 31 then some (4 :: encodeVarint idx, strings) else none

def readPropValue (tab : List CString) : UInt8 → Decoder PropValue
  | 1 => do return .int32 (zzDecode (← varint)).toInt32
  | 2 => do return .int64 (zzDecode (← varint))
  | 3 => do return .double (← readU64le)
  | 4 => do return .string (.ofBytes (stringsGet tab (← varint)))
  | _ => fail

namespace PropTable

def writeEntries (strings : NcdbStrings) : List (UInt16 × PropValue) → Option (List UInt8 × NcdbStrings)
  | []            => some ([], strings)
  | (id, v) :: es => do
    let (value, strings) ← v.write strings
    let (bytes, strings) ← writeEntries strings es
    return (encodeVarint id.toNat ++ value ++ bytes, strings)

def serialize (strings : NcdbStrings) (t : PropTable) : Option (List UInt8 × NcdbStrings) := do
  let (bytes, strings) ← writeEntries strings t.entries
  return (encodeVarint t.entries.length ++ bytes, strings)

def readEntry (tab : List CString) (t : PropTable) : Decoder PropTable := do
  let id  ← varint
  let tag ← byte
  let v   ← readPropValue tab tag
  return t.set id.toUInt16 v

def deserialize (tab : List CString) (t : PropTable) : Decoder PropTable := do
  let count ← varint
  records count t fun _ => readEntry tab

end PropTable

-- Attributes.

inductive AttrValue
  | int32 (v : Int32)
  | int64 (v : Int64)
  | float (bits : UInt32)
  | double (bits : UInt64)
  | string (s : CText)
  | bytes (blob : List UInt8)
  deriving DecidableEq

abbrev AttrTable :=
  Dict CText AttrValue

def AttrValue.write : AttrValue → List UInt8
  | int32 v     => 1 :: encodeVarint (zzEncode v.toInt64).toNat
  | int64 v     => 2 :: encodeVarint (zzEncode v).toNat
  | float bits  => 3 :: encodeLe 4 bits.toNat
  | double bits => 4 :: encodeLe 8 bits.toNat
  | string s    => 5 :: lengthPrefixed s.bytes
  | bytes blob  => 6 :: lengthPrefixed blob

def readAttrValue : UInt8 → Decoder AttrValue
  | 1 => do return .int32 (zzDecode (← varint)).toInt32
  | 2 => do return .int64 (zzDecode (← varint))
  | 3 => do return .float (← readU32le)
  | 4 => do return .double (← readU64le)
  | 5 => do return .string (.ofBytes (← copy))
  | 6 => do return .bytes (← copy)
  | _ => fail

namespace AttrTable

def writeEntry (e : CText × AttrValue) : List UInt8 :=
  lengthPrefixed e.fst.bytes ++ e.snd.write

def write (t : AttrTable) : List UInt8 :=
  encodeVarint t.entries.length ++ t.entries.flatMap writeEntry

def readEntryInto (t : AttrTable) : Decoder AttrTable := do
  let key  ← copy
  let type ← byte
  let v    ← readAttrValue type
  return t.set (.ofBytes key) v

def readInto (t : AttrTable) : Decoder AttrTable := do
  let n ← varint
  records n t fun _ => readEntryInto

end AttrTable

-- What has a table. Scopes are numbered in depth-first order, covers in their scope.
inductive NcdbObject
  | db
  | scope (i : Nat)
  | cover (i j : Nat)
  | history (i : Nat)
  deriving DecidableEq

-- How many covers the scopes have, and how many history nodes there are. Positions are 64-bit numbers.
structure NcdbShape where
  covers  : List Nat
  history : Nat
  small   : covers.length ≤ 2 ^ 64 ∧ (∀ n ∈ covers, n ≤ 2 ^ 64) ∧ history ≤ 2 ^ 64

namespace NcdbShape

variable (shape : NcdbShape)

def Has : NcdbObject → Prop
  | .db        => True
  | .scope i   => i < shape.covers.length
  | .cover i j => j < shape.covers.getD i 0
  | .history i => i < shape.history

def scopes : List NcdbObject :=
  (List.range shape.covers.length).map .scope

def coverObjects : List NcdbObject :=
  (List.range shape.covers.length).flatMap fun i => (List.range (shape.covers.getD i 0)).map (.cover i)

def historyNodes : List NcdbObject :=
  (List.range shape.history).map .history

end NcdbShape

-- The numbers that tell an object from others of its kind.
def NcdbObject.position : NcdbObject → List Nat
  | db        => []
  | scope i   => [i]
  | cover i j => [i, j]
  | history i => [i]

def natrMagic : List UInt8 := [0x4E, 0x41, 0x54, 0x52]
def natrVersion : UInt8 := 1

-- Tables without entries are not stored.
def writeAttrRecords (attrs : NcdbObject → AttrTable) (objects : List NcdbObject) : List UInt8 :=
  let objects := objects.filter fun o => (attrs o).entries ≠ []
  encodeVarint objects.length ++ objects.flatMap fun o => o.position.flatMap encodeVarint ++ (attrs o).write

def attrsSerialize (shape : NcdbShape) (attrs : NcdbObject → AttrTable) : List UInt8 :=
  natrMagic ++ [natrVersion] ++ ((attrs .db).write ++ (writeAttrRecords attrs shape.scopes ++
    (writeAttrRecords attrs shape.coverObjects ++ writeAttrRecords attrs shape.historyNodes)))

def readPosition (count : Nat) (object : Nat → NcdbObject) : Decoder NcdbObject := do
  let k ← varint
  check (k.toNat < count)
  return object k.toNat

def readCoverPosition (shape : NcdbShape) : Decoder NcdbObject := do
  let i ← varint
  let j ← varint
  check (i.toNat < shape.covers.length)
  check (j.toNat < shape.covers.getD i.toNat 0)
  return .cover i.toNat j.toNat

def readAttrRecord (position : Decoder NcdbObject) (attrs : NcdbObject → AttrTable) :
    Decoder (NcdbObject → AttrTable) := do
  let o ← position
  let t ← (attrs o).readInto
  return Function.update attrs o t

def readAttrTables (position : Decoder NcdbObject) (attrs : NcdbObject → AttrTable) :
    Decoder (NcdbObject → AttrTable) := do
  let n ← varint
  records n attrs fun _ => readAttrRecord position

-- A payload of another kind or version is passed over.
def attrsDeserialize (shape : NcdbShape) (attrs : NcdbObject → AttrTable) : Decoder (NcdbObject → AttrTable) := do
  match ← opening natrMagic 1 with
  | none    => return attrs
  | some bs =>
    if bs.headD 0 ≠ natrVersion then
      return attrs
    else do
      let t     ← (attrs .db).readInto
      let attrs ← readAttrTables (readPosition shape.covers.length .scope) (Function.update attrs .db t)
      let attrs ← readAttrTables (readCoverPosition shape) attrs
      readAttrTables (readPosition shape.history .history) attrs

-- Sequences of operations.

inductive TableOp
  | setProp (o : NcdbObject) (id : UInt16) (v : PropValue)
  | removeProp (o : NcdbObject) (id : UInt16)
  | setAttr (o : NcdbObject) (key : CText) (v : AttrValue)

structure TypedTables where
  props : NcdbObject → PropTable := fun _ => ∅
  attrs : NcdbObject → AttrTable := fun _ => ∅

namespace TypedTables

def apply (t : TypedTables) : TableOp → TypedTables
  | .setProp o id v   => { t with props := Function.update t.props o ((t.props o).set id v) }
  | .removeProp o id  => { t with props := Function.update t.props o ((t.props o).pop id) }
  | .setAttr o key v  => { t with attrs := Function.update t.attrs o ((t.attrs o).set key v) }

def run (ops : List TableOp) : TypedTables :=
  ops.foldl apply {}

end TypedTables

-- The lowest bit, spread over the word.
theorem getLsbD_zero_sub_and_one (x : BitVec 64) {i : Nat} (hi : i < 64) :
    (0#64 - (x &&& 1#64)).getLsbD i = x.getLsbD 0 := by
  have h : x &&& 1#64 = if x.getLsbD 0 then 1#64 else 0#64 := by
    refine BitVec.eq_of_getLsbD_eq fun i hi => ?_
    rw [BitVec.getLsbD_and, BitVec.getLsbD_one]
    split <;> cases i <;> simp_all
  rw [h]
  split
  case isTrue hx  => rw [hx]; exact BitVec.getLsbD_allOnes.trans (decide_eq_true hi)
  case isFalse hx => rw [Bool.eq_false_iff.mpr hx]; exact BitVec.getLsbD_zero

theorem getLsbD_zigzag (v : BitVec 64) {i : Nat} (hi : i < 64) :
    (v <<< 1 ^^^ v.sshiftRight 63).getLsbD i = ((decide (i ≠ 0) && v.getLsbD (i - 1)) ^^ v.getLsbD 63) := by
  have hs : (v.sshiftRight 63).getLsbD i = v.getLsbD 63 := by
    have hl : decide (64 ≤ i) = false := decide_eq_false (by omega)
    rw [BitVec.getLsbD_sshiftRight, BitVec.msb_eq_getLsbD_last, hl, Bool.not_false, Bool.true_and]
    split
    case isTrue h  => rw [(by omega : 63 + i = 63)]
    case isFalse h => rfl
  rw [BitVec.getLsbD_xor, BitVec.getLsbD_shiftLeft, hs]
  cases i <;> simp [hi]

theorem zzDecode_zzEncode (v : Int64) : zzDecode (zzEncode v) = v := by
  have hd : (zzDecode (zzEncode v)).toBitVec = (v.toBitVec <<< 1 ^^^ v.toBitVec.sshiftRight 63) >>> 1 ^^^
      (0#64 - ((v.toBitVec <<< 1 ^^^ v.toBitVec.sshiftRight 63) &&& 1#64)) := rfl
  refine Int64.toBitVec_inj.mp (BitVec.eq_of_getLsbD_eq fun i hi => ?_)
  rw [hd, BitVec.getLsbD_xor, getLsbD_zero_sub_and_one _ hi, getLsbD_zigzag _ (by decide),
    BitVec.getLsbD_ushiftRight]
  by_cases hl : 1 + i < 64
  case pos =>
    rw [getLsbD_zigzag _ hl, Nat.add_sub_cancel_left]
    simp
  case neg =>
    obtain rfl : i = 63 := by omega
    simp

example : zzEncode Int64.minValue = 0xFFFFFFFFFFFFFFFF := by decide

-- The strings of a table are read as they were written.

theorem stringsAdd_eq (tab : List CString) (s : CString) : stringsAdd tab s = (intern tab s).snd := by
  rw [intern, stringsAdd]
  split <;> rfl

namespace NcdbStrings

theorem fst_add_le (strings : NcdbStrings) (s : CText) : (strings.add s).fst ≤ strings.items.length := by
  change (intern strings.items s).fst ≤ _
  rw [intern]
  split
  case isTrue h => exact Nat.le_of_lt (List.idxOf_lt_length_of_mem h)
  case isFalse  => exact Nat.le_refl _

theorem length_snd_add_le (strings : NcdbStrings) (s : CText) :
    (strings.add s).snd.items.length ≤ strings.items.length + 1 := by
  change (intern strings.items s).snd.length ≤ _
  rw [intern]
  split
  case isTrue  => exact Nat.le_succ _
  case isFalse => exact (List.length_append).le

theorem reads_serialize (strings : NcdbStrings) {p : NcdbPlatform} (hp : ∀ i, p.stores i = true) :
    (stringsDeserialize p).Reads strings.serialize (strings.items.map (·.bytes)) := by
  have hstep : ∀ s ∈ strings.items, ∀ i (tab : List CString),
      (do let s ← readLpStr; check (p.stores i); return stringsAdd tab s : Decoder _).Reads (lengthPrefixed s.bytes)
        (stringsAdd tab s.bytes) := by
    intro s _ i tab
    have hr := (reads_lengthPrefixed s.bytes).map cString
    rw [s.cString_bytes] at hr
    exact hr.bind_pure <| (reads_check (hp i)).bind_pure (reads_pure _)
  have hr := reads_counted (fun s _ => lengthPrefixed_ne_nil s.bytes) hstep []
  have hn : (strings.items.map (·.bytes)).Nodup := strings.nodup.map fun _ _ h => CText.ext h
  have hall := internAll_of_nodup hn
  have hfold : strings.items.foldl (fun tab s => stringsAdd tab s.bytes) [] = strings.items.map (·.bytes) := by
    rw [internAll, List.foldl_map] at hall
    simp only [stringsAdd_eq, hall]
  exact hfold ▸ hr

end NcdbStrings

namespace PropValue

variable {v : PropValue} {strings strings' : NcdbStrings} {bytes : List UInt8}

theorem write_spec (h : v.write strings = some (bytes, strings')) :
    strings.items <+: strings'.items ∧ ∃ tag payload, bytes = tag :: payload ∧
      ∀ tab, strings'.items <+: tab → (readPropValue (tab.map (·.bytes)) tag).Reads payload v := by
  cases v
  case int32 v =>
    cases h
    refine ⟨List.prefix_rfl, _, _, rfl, fun tab _ => ?_⟩
    have hr := (reads_varint (zzEncode v.toInt64)).map fun z => PropValue.int32 (zzDecode z).toInt32
    rwa [zzDecode_zzEncode, Int32.toInt32_toInt64] at hr
  case int64 v =>
    cases h
    refine ⟨List.prefix_rfl, _, _, rfl, fun tab _ => ?_⟩
    have hr := (reads_varint (zzEncode v)).map fun z => PropValue.int64 (zzDecode z)
    rwa [zzDecode_zzEncode] at hr
  case double bits =>
    cases h
    exact ⟨List.prefix_rfl, _, _, rfl, fun tab _ => (reads_readU64le bits).map PropValue.double⟩
  case string s =>
    rw [write] at h
    dsimp only at h
    split at h
    case isFalse => cases h
    case isTrue hl =>
      cases h
      refine ⟨intern.extends_table .., _, _, rfl, fun tab ht => ?_⟩
      have hget := intern.get?_of_prefix ht
      have hidx : (UInt64.ofNat (strings.add s).fst).toNat = (strings.add s).fst :=
        UInt64.toNat_ofNat_of_lt' (Nat.lt_trans hl (by decide))
      have hs : stringsGet (tab.map (·.bytes)) (UInt64.ofNat (strings.add s).fst) = s.bytes := by
        rw [stringsGet, hidx, List.getD_eq_getElem?_getD, List.getElem?_map, NcdbStrings.add, hget]
        rfl
      have hr := (reads_varint (UInt64.ofNat (strings.add s).fst)).map fun idx =>
        PropValue.string (.ofBytes (stringsGet (tab.map (·.bytes)) idx))
      rwa [hidx, hs, CText.ofBytes_bytes] at hr

end PropValue

namespace PropTable

variable {es : List (UInt16 × PropValue)} {strings strings' : NcdbStrings} {bytes : List UInt8}

-- The entries with the bytes that each was written to.
theorem writeEntries_spec (h : writeEntries strings es = some (bytes, strings')) :
    strings.items <+: strings'.items ∧ ∃ chunks : List ((UInt16 × PropValue) × List UInt8),
      chunks.map Prod.fst = es ∧ chunks.flatMap Prod.snd = bytes ∧
        ∀ c ∈ chunks, ∃ tag payload, c.snd = encodeVarint c.fst.fst.toNat ++ tag :: payload ∧
          ∀ tab, strings'.items <+: tab → (readPropValue (tab.map (·.bytes)) tag).Reads payload c.fst.snd := by
  induction es generalizing strings bytes
  case nil =>
    cases h
    exact ⟨List.prefix_rfl, [], rfl, rfl, nofun⟩
  case cons e es hi =>
    have ⟨⟨value, mid⟩, hv, h⟩ := Option.bind_eq_some_iff.mp h
    have ⟨⟨more, last⟩, he, h⟩ := Option.bind_eq_some_iff.mp h
    cases h
    have ⟨hp, tag, payload, hb, hr⟩ := PropValue.write_spec hv
    have ⟨hp', chunks, hes, hbytes, hc⟩ := hi he
    refine ⟨hp.trans hp', (e, encodeVarint e.fst.toNat ++ value) :: chunks, ?_, ?_,
      List.forall_mem_cons.mpr ⟨?_, hc⟩⟩
    · rw [List.map_cons, hes]
    · rw [List.flatMap_cons, hbytes]
    · exact ⟨tag, payload, by rw [hb], fun tab ht => hr tab (hp'.trans ht)⟩

theorem length_write_le {v : PropValue} (h : v.write strings = some (bytes, strings')) :
    strings'.items.length ≤ strings.items.length + 1 := by
  cases v
  case int32 | int64 | double =>
    cases h
    exact Nat.le_succ _
  case string s =>
    rw [PropValue.write] at h
    dsimp only at h
    split at h
    case isFalse => cases h
    case isTrue =>
      cases h
      exact strings.length_snd_add_le s

theorem write_isSome (v : PropValue) (h : strings.items.length < 2 ^ 31) : ∃ r, v.write strings = some r := by
  cases v
  case int32 | int64 | double => exact ⟨_, rfl⟩
  case string s => exact ⟨_, if_pos (Nat.lt_of_le_of_lt (strings.fst_add_le s) h)⟩

-- There are numbers for as many strings as an `int` counts.
theorem writeEntries_isSome (h : strings.items.length + es.length ≤ 2 ^ 31) :
    ∃ r, writeEntries strings es = some r := by
  induction es generalizing strings
  case nil => exact ⟨_, rfl⟩
  case cons e es hi =>
    rw [List.length_cons] at h
    have ⟨⟨value, mid⟩, hv⟩ := @write_isSome strings e.snd (by omega)
    have hm := length_write_le hv
    have ⟨⟨more, last⟩, he⟩ := @hi mid (by omega)
    refine ⟨(encodeVarint e.fst.toNat ++ value ++ more, last), ?_⟩
    simp only [writeEntries, hv, he, Option.bind_eq_bind, Option.bind_some]
    rfl

theorem serialize_isSome {t : PropTable} (h : strings.items.length + t.entries.length ≤ 2 ^ 31) :
    ∃ r, t.serialize strings = some r := by
  have ⟨⟨bytes, last⟩, he⟩ := writeEntries_isSome h
  exact ⟨_, congrArg (Option.bind · _) he⟩

theorem serialize_extends {t : PropTable} (h : t.serialize strings = some (bytes, strings')) :
    strings.items <+: strings'.items := by
  have ⟨⟨more, last⟩, he, h⟩ := Option.bind_eq_some_iff.mp h
  cases h
  exact (writeEntries_spec he).left

theorem reads_serialize {t : PropTable} (h : t.serialize strings = some (bytes, strings')) {tab : List CText}
    (ht : strings'.items <+: tab) : (deserialize (tab.map (·.bytes)) ∅).Reads bytes t := by
  have ⟨⟨more, last⟩, he, h⟩ := Option.bind_eq_some_iff.mp h
  cases h
  have ⟨_, chunks, hes, hbytes, hc⟩ := writeEntries_spec he
  have hentry : ∀ c ∈ chunks, ∀ (_ : Nat) t,
      (readEntry (tab.map (·.bytes)) t).Reads c.snd (t.set c.fst.fst c.fst.snd) := by
    intro c hm _ t
    have ⟨tag, payload, hb, hr⟩ := hc c hm
    have hid := reads_varint c.fst.fst.toUInt64
    rw [UInt16.toNat_toUInt64] at hid
    rw [hb]
    refine hid.bind <| (reads_byte tag).bind <| (hr tab ht).bind_pure ?_
    rw [UInt16.toUInt16_toUInt64]
    exact reads_pure _
  have hne : ∀ c ∈ chunks, c.snd ≠ [] := by
    intro c hm
    have ⟨tag, payload, hb, _⟩ := hc c hm
    rw [hb]
    exact List.append_ne_nil_of_left_ne_nil (encodeVarint_ne_nil _) _
  have hr := reads_counted hne hentry ∅
  have hlen : chunks.length = t.entries.length := by rw [← hes, List.length_map]
  have hfold : chunks.foldl (fun (t : PropTable) c => t.set c.fst.fst c.fst.snd) ∅ = t := by
    have hs := Dict.foldl_set (∅ : PropTable) (chunks.map Prod.fst)
    rw [List.foldl_map, hes, t.setAll_empty_entries] at hs
    exact hs
  rw [hbytes, hlen, hfold] at hr
  exact hr

end PropTable

-- Attributes.

theorem reads_readU32le (n : UInt32) : readU32le.Reads (encodeLe 4 n.toNat) n := by
  have hr := (reads_littleEndian (encodeLe 4 n.toNat)).map UInt64.toUInt32
  have hn : (UInt64.ofNat n.toNat).toUInt32 = n := by rw [UInt64.ofNat_uInt32ToNat, UInt32.toUInt32_toUInt64]
  rwa [length_encodeLe, foldr_encodeLe n.toNat_lt, hn] at hr

theorem AttrValue.write_spec (v : AttrValue) :
    ∃ tag payload, v.write = tag :: payload ∧ (readAttrValue tag).Reads payload v := by
  cases v
  case int32 v =>
    refine ⟨_, _, rfl, ?_⟩
    have hr := (reads_varint (zzEncode v.toInt64)).map fun z => AttrValue.int32 (zzDecode z).toInt32
    rwa [zzDecode_zzEncode, Int32.toInt32_toInt64] at hr
  case int64 v =>
    refine ⟨_, _, rfl, ?_⟩
    have hr := (reads_varint (zzEncode v)).map fun z => AttrValue.int64 (zzDecode z)
    rwa [zzDecode_zzEncode] at hr
  case float bits  => exact ⟨_, _, rfl, (reads_readU32le bits).map AttrValue.float⟩
  case double bits => exact ⟨_, _, rfl, (reads_readU64le bits).map AttrValue.double⟩
  case string s =>
    refine ⟨_, _, rfl, ?_⟩
    have hr := (reads_lengthPrefixed s.bytes).map fun bytes => AttrValue.string (.ofBytes bytes)
    rwa [CText.ofBytes_bytes] at hr
  case bytes blob => exact ⟨_, _, rfl, (reads_lengthPrefixed blob).map AttrValue.bytes⟩

namespace AttrTable

theorem reads_writeEntry (e : CText × AttrValue) (t : AttrTable) :
    (readEntryInto t).Reads (writeEntry e) (t.set e.fst e.snd) := by
  have ⟨tag, payload, hv, hr⟩ := e.snd.write_spec
  rw [writeEntry, hv]
  refine (reads_lengthPrefixed _).bind <| (reads_byte tag).bind <| hr.bind_pure ?_
  rw [CText.ofBytes_bytes]
  exact reads_pure _

-- The entries of the one table are set in the other.
theorem reads_write (t t' : AttrTable) : (readInto t').Reads t.write (t'.setAll t.entries) := by
  have hne : ∀ e ∈ t.entries, writeEntry e ≠ [] := fun e _ =>
    List.append_ne_nil_of_left_ne_nil (lengthPrefixed_ne_nil _) _
  have hr := reads_counted hne (fun e _ _ => reads_writeEntry e) t'
  rwa [Dict.foldl_set] at hr

end AttrTable

-- The positions of objects.

theorem reads_position {i : Nat} (h : i < 2 ^ 64) : varint.Reads (encodeVarint i) (UInt64.ofNat i) := by
  have hr := reads_varint (UInt64.ofNat i)
  rwa [UInt64.toNat_ofNat_of_lt' h] at hr

theorem reads_readPosition {count : Nat} {object : Nat → NcdbObject} (hc : count ≤ 2 ^ 64)
    (hp : ∀ i, (object i).position = [i]) : ∀ o ∈ (List.range count).map object,
    (readPosition count object).Reads (o.position.flatMap encodeVarint) o := by
  refine List.forall_mem_map.mpr fun i hi => ?_
  have hi := List.mem_range.mp hi
  have hl : i < 2 ^ 64 := Nat.lt_of_lt_of_le hi hc
  have hn := UInt64.toNat_ofNat_of_lt' hl
  rw [hp, List.flatMap_singleton]
  refine (reads_position hl).bind_pure ?_
  rw [hn]
  exact (reads_check (decide_eq_true hi)).bind_pure (reads_pure _)

theorem NcdbShape.getD_covers_le (shape : NcdbShape) (i : Nat) : shape.covers.getD i 0 ≤ 2 ^ 64 := by
  rw [List.getD_eq_getElem?_getD]
  cases h : shape.covers[i]?
  case none   => exact Nat.zero_le _
  case some n => exact shape.small.right.left n (List.mem_of_getElem? h)

theorem reads_readCoverPosition (shape : NcdbShape) : ∀ o ∈ shape.coverObjects,
    (readCoverPosition shape).Reads (o.position.flatMap encodeVarint) o := by
  refine List.forall_mem_flatMap.mpr fun i hi => List.forall_mem_map.mpr fun j hj => ?_
  have hi := List.mem_range.mp hi
  have hj := List.mem_range.mp hj
  have hil : i < 2 ^ 64 := Nat.lt_of_lt_of_le hi shape.small.left
  have hjl : j < 2 ^ 64 := Nat.lt_of_lt_of_le hj (shape.getD_covers_le i)
  have hin := UInt64.toNat_ofNat_of_lt' hil
  have hjn := UInt64.toNat_ofNat_of_lt' hjl
  have hpos : (NcdbObject.cover i j).position.flatMap encodeVarint = encodeVarint i ++ encodeVarint j := by
    simp [NcdbObject.position]
  rw [hpos]
  refine (reads_position hil).bind <| (reads_position hjl).bind_pure ?_
  rw [hin, hjn]
  refine (reads_check (decide_eq_true hi)).bind_pure <| (reads_check (decide_eq_true hj)).bind_pure (reads_pure _)

-- Tables that are read one after the other.

theorem foldl_update {ι τ : Type} [DecidableEq ι] {objects : List ι} (hn : objects.Nodup) (f : ι → τ → τ)
    (t : ι → τ) (o : ι) :
    objects.foldl (fun t o => Function.update t o (f o (t o))) t o = if o ∈ objects then f o (t o) else t o := by
  induction objects generalizing t
  case nil => rfl
  case cons o' objects hi =>
    have ⟨hm, hn⟩ := List.nodup_cons.mp hn
    rw [List.foldl_cons, hi hn]
    by_cases ho : o = o'
    case pos => simp [ho, hm]
    case neg => simp [ho]

theorem AttrTable.reads_record {position : Decoder NcdbObject} {o : NcdbObject}
    (hp : position.Reads (o.position.flatMap encodeVarint) o) (t : AttrTable) (attrs : NcdbObject → AttrTable) :
    (readAttrRecord position attrs).Reads (o.position.flatMap encodeVarint ++ t.write)
      (Function.update attrs o ((attrs o).setAll t.entries)) :=
  hp.bind <| (reads_write t (attrs o)).bind_pure (reads_pure _)

theorem reads_writeAttrRecords {position : Decoder NcdbObject} {objects : List NcdbObject}
    (hp : ∀ o ∈ objects, position.Reads (o.position.flatMap encodeVarint) o) (hn : objects.Nodup)
    (attrs attrs' : NcdbObject → AttrTable) :
    (readAttrTables position attrs').Reads (writeAttrRecords attrs objects) fun o =>
      if o ∈ objects then (attrs' o).setAll (attrs o).entries else attrs' o := by
  have hkept : ∀ {o}, o ∈ objects.filter (fun o => (attrs o).entries ≠ []) → o ∈ objects := List.mem_of_mem_filter
  have hne : ∀ o ∈ objects.filter (fun o => (attrs o).entries ≠ []),
      o.position.flatMap encodeVarint ++ (attrs o).write ≠ [] := fun o _ =>
    List.append_ne_nil_of_right_ne_nil _ <| List.append_ne_nil_of_left_ne_nil (encodeVarint_ne_nil _) _
  have hrecord o ho (_ : Nat) attrs' := AttrTable.reads_record (hp o (hkept ho)) (attrs o) attrs'
  have hr := reads_counted hne hrecord attrs'
  have hfold : (objects.filter fun o => (attrs o).entries ≠ []).foldl
      (fun t o => Function.update t o ((t o).setAll (attrs o).entries)) attrs' =
        fun o => if o ∈ objects then (attrs' o).setAll (attrs o).entries else attrs' o := by
    funext o
    rw [foldl_update (hn.filter _) fun o (t : AttrTable) => t.setAll (attrs o).entries]
    by_cases he : (attrs o).entries = []
    case pos => simp [he]
    case neg => simp [he]
  rw [hfold] at hr
  exact hr

namespace NcdbShape

variable (shape : NcdbShape)

theorem nodup_scopes : shape.scopes.Nodup :=
  List.nodup_range.map fun _ _ h => NcdbObject.scope.inj h

theorem nodup_historyNodes : shape.historyNodes.Nodup :=
  List.nodup_range.map fun _ _ h => NcdbObject.history.inj h

theorem nodup_coverObjects : shape.coverObjects.Nodup := by
  refine List.nodup_flatMap.mpr ⟨fun i _ => List.nodup_range.map fun _ _ h => (NcdbObject.cover.inj h).right, ?_⟩
  refine List.nodup_range.imp fun hne => ?_
  simp [Function.onFun, List.disjoint_left, hne.symm]

theorem mem_coverObjects {i j : Nat} (h : shape.Has (.cover i j)) : .cover i j ∈ shape.coverObjects := by
  have hj : j < shape.covers.getD i 0 := h
  have hi : i < shape.covers.length := by
    by_contra hi
    rw [List.getD_eq_getElem?_getD, List.getElem?_eq_none (Nat.le_of_not_lt hi)] at hj
    exact Nat.not_lt_zero _ hj
  exact List.mem_flatMap.mpr ⟨i, List.mem_range.mpr hi, List.mem_map_of_mem (List.mem_range.mpr hj)⟩

end NcdbShape

-- Each object has the attributes of the one at its position.
theorem reads_attrsSerialize (shape : NcdbShape) (attrs : NcdbObject → AttrTable) :
    ∃ read, (attrsDeserialize shape fun _ => ∅).Reads (attrsSerialize shape attrs) read ∧
      ∀ o, shape.Has o → read o = attrs o := by
  have hdb := (attrs .db).reads_write ∅
  have hscopes := reads_writeAttrRecords (reads_readPosition shape.small.left fun _ => rfl) shape.nodup_scopes attrs
    (Function.update (fun _ => ∅) .db ((∅ : AttrTable).setAll (attrs .db).entries))
  have hcovers := reads_writeAttrRecords (reads_readCoverPosition shape) shape.nodup_coverObjects attrs
  have hhistory := reads_writeAttrRecords (reads_readPosition shape.small.right.right fun _ => rfl)
    shape.nodup_historyNodes attrs
  refine ⟨_, (reads_opening natrMagic [natrVersion]).bind <| hdb.bind <| hscopes.bind <|
    (hcovers _).bind (hhistory _), fun o ho => ?_⟩
  have hempty (o : NcdbObject) : (∅ : AttrTable).setAll (attrs o).entries = attrs o :=
    (attrs o).setAll_empty_entries
  cases o
  case db        => simp [NcdbShape.coverObjects, hempty]
  case scope i   =>
    have hi : i < shape.covers.length := ho
    simp [NcdbShape.coverObjects, hi, hempty]
  case cover i j =>
    have hm := shape.mem_coverObjects ho
    simp [hm, hempty]
  case history i =>
    have hi : i < shape.history := ho
    simp [NcdbShape.coverObjects, hi, hempty]

-- What sequences of operations leave.

namespace TableOp

-- What an operation says about a property or an attribute of an object.

def prop? (o : NcdbObject) (id : UInt16) : TableOp → Option (Option PropValue)
  | setProp o' id' v  => if o' = o ∧ id' = id then some (some v) else none
  | removeProp o' id' => if o' = o ∧ id' = id then some none else none
  | setAttr ..        => none

def attr? (o : NcdbObject) (key : CText) : TableOp → Option AttrValue
  | setAttr o' key' v => if o' = o ∧ key' = key then some v else none
  | _                 => none

end TableOp

-- The last operation about it decides.

def lastProp (ops : List TableOp) (o : NcdbObject) (id : UInt16) : Option PropValue :=
  (ops.reverse.findSome? (·.prop? o id)).join

def lastAttr (ops : List TableOp) (o : NcdbObject) (key : CText) : Option AttrValue :=
  ops.reverse.findSome? (·.attr? o key)

namespace TypedTables

theorem props_apply (t : TypedTables) (op : TableOp) (o : NcdbObject) (id : UInt16) :
    ((t.apply op).props o).get? id = (op.prop? o id).getD ((t.props o).get? id) := by
  cases op
  case setAttr => rfl
  case setProp o' id' v =>
    by_cases ho : o' = o
    case pos => by_cases hi : id' = id <;> simp [apply, TableOp.prop?, ho, hi, Dict.get?_set]
    case neg => simp [apply, TableOp.prop?, ho, Ne.symm ho]
  case removeProp o' id' =>
    by_cases ho : o' = o
    case pos => by_cases hi : id = id' <;> simp [apply, TableOp.prop?, ho, hi, Dict.get?_pop, eq_comm]
    case neg => simp [apply, TableOp.prop?, ho, Ne.symm ho]

theorem attrs_apply (t : TypedTables) (op : TableOp) (o : NcdbObject) (key : CText) :
    ((t.apply op).attrs o).get? key = (op.attr? o key).or ((t.attrs o).get? key) := by
  cases op
  case setProp | removeProp => rfl
  case setAttr o' key' v =>
    by_cases ho : o' = o
    case pos => by_cases hk : key' = key <;> simp [apply, TableOp.attr?, ho, hk, Dict.get?_set]
    case neg => simp [apply, TableOp.attr?, ho, Ne.symm ho]

theorem props_run (ops : List TableOp) (o : NcdbObject) (id : UInt16) :
    ((run ops).props o).get? id = lastProp ops o id := by
  induction ops using List.reverseRecOn
  case nil => rfl
  case append_singleton ops op hi =>
    rw [run, List.foldl_append, ← run, List.foldl_cons, List.foldl_nil, props_apply, hi, lastProp, lastProp,
      List.reverse_append, List.reverse_singleton, List.singleton_append, List.findSome?_cons]
    cases op.prop? o id <;> rfl

theorem attrs_run (ops : List TableOp) (o : NcdbObject) (key : CText) :
    ((run ops).attrs o).get? key = lastAttr ops o key := by
  induction ops using List.reverseRecOn
  case nil => rfl
  case append_singleton ops op hi =>
    rw [run, List.foldl_append, ← run, List.foldl_cons, List.foldl_nil, attrs_apply, hi, lastAttr, lastAttr,
      List.reverse_append, List.reverse_singleton, List.singleton_append, List.findSome?_cons]
    cases op.attr? o key <;> rfl

end TypedTables

-- Whatever was set, overwritten and removed, each object has the values that were set last after the tables were
-- written and read. Properties are written in any order of objects, with other strings in between.
theorem typed_tables_round_trip (ops : List TableOp) (shape : NcdbShape) :
    (∀ o strings,
      (strings.items.length + ((TypedTables.run ops).props o).entries.length ≤ 2 ^ 31 →
        ∃ r, ((TypedTables.run ops).props o).serialize strings = some r) ∧
      ∀ bytes strings', ((TypedTables.run ops).props o).serialize strings = some (bytes, strings') →
        strings.items <+: strings'.items ∧ ∀ tab : NcdbStrings, strings'.items <+: tab.items →
          ∃ items props, (stringsDeserialize ⟨fun _ => true, fun _ => true⟩).Reads tab.serialize items ∧
            (PropTable.deserialize items ∅).Reads bytes props ∧ ∀ id, props.get? id = lastProp ops o id) ∧
    ∃ attrs, (attrsDeserialize shape fun _ => ∅).Reads (attrsSerialize shape (TypedTables.run ops).attrs) attrs ∧
      ∀ o, shape.Has o → ∀ key, (attrs o).get? key = lastAttr ops o key := by
  have ⟨read, hr, hread⟩ := reads_attrsSerialize shape (TypedTables.run ops).attrs
  refine ⟨fun o strings => ⟨fun h => ?_, fun bytes strings' h => ⟨PropTable.serialize_extends h, fun tab ht => ?_⟩⟩,
    read, hr, fun o ho key => ?_⟩
  · exact PropTable.serialize_isSome h
  · exact ⟨_, _, tab.reads_serialize fun _ => rfl, PropTable.reads_serialize h ht, TypedTables.props_run ops o⟩
  · rw [hread o ho, TypedTables.attrs_run]
