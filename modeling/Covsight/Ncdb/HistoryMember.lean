import Covsight.Mem.UCIS
import Covsight.NcdbC.ScopeTreeCodec
import Mathlib.Algebra.Field.Rat
import Covsight.Lib.Rearrangement

-- The member that keeps the history, as the Python library writes and reads it: an array of records,
-- or the binary format of the C library, which is only read. The fields of a node hold whatever was
-- set on it.

-- A floating-point number that is finite is told by its value.
inductive PyValue
  | none
  | number (q : Rat)
  | infinity (negative : Bool)
  | nan
  | text (s : String)
  | list (ss : List String)
  deriving DecidableEq

-- Whether a value is not negative; text cannot be compared with a number.
def PyValue.nonneg : PyValue → Option Bool
  | number q          => some (decide (0 ≤ q))
  | infinity negative => some !negative
  | nan               => some false
  | _                 => Option.none

inductive HistoryField
  | simTime
  | timeUnit
  | runCwd
  | cpuTime
  | seed
  | cmd
  | args
  | compulsory
  | date
  | userName
  | cost
  | toolCategory
  | vendorId
  | vendorTool
  | vendorToolVersion
  | sameTests
  | comment
  deriving DecidableEq

namespace HistoryField

-- What a field of a new node holds. The date is the time at which the node is created.
def default (now : Rat) : HistoryField → PyValue
  | simTime | cpuTime | cost | sameTests                        => .number (-1)
  | toolCategory | vendorId | vendorTool | vendorToolVersion    => .text "unknown"
  | date                                                        => .number now
  | _                                                           => .none

-- The numbers that the reader of a database takes over only if they are not negative.
def measures : List HistoryField :=
  [simTime, cpuTime, cost, sameTests]

end HistoryField

-- The parent is told by its position in the history.
structure MemHistoryNode where
  parent       : Option Nat
  logicalName  : String
  physicalName : Option String
  kind         : Option HistoryNodeKind
  testStatus   : TestStatusT
  value        : HistoryField → PyValue

namespace TestStatusT

def value : TestStatusT → Int
  | ok         => 1
  | warning    => 2
  | error      => 3
  | fatal      => 4
  | missing    => 5
  | mergeError => 6

def fromInt : Int → TestStatusT
  | 2 => warning
  | 3 => error
  | 4 => fatal
  | 5 => missing
  | 6 => mergeError
  | _ => ok

theorem fromInt_value (status : TestStatusT) : fromInt status.value = status := by
  cases status <;> rfl

end TestStatusT

namespace HistoryNodeKind

def toStr : Option HistoryNodeKind → String
  | some none  => "NONE"
  | some all   => "ALL"
  | some merge => "MERGE"
  | _          => "TEST"

def fromStr : String → HistoryNodeKind
  | "NONE"  => none
  | "ALL"   => all
  | "MERGE" => merge
  | _       => test

end HistoryNodeKind

structure HistoryRecord where
  logicalName  : String
  physicalName : Option String
  kind         : String
  testStatus   : Int
  value        : HistoryField → PyValue

-- Parents are not written.
def HistoryWriter.record (node : MemHistoryNode) : HistoryRecord where
  logicalName  := node.logicalName
  physicalName := node.physicalName
  kind         := HistoryNodeKind.toStr node.kind
  testStatus   := node.testStatus.value
  value        := node.value

-- The tests of a history, then the merges.
def nodesOfKind (nodes : List MemHistoryNode) (kind : HistoryNodeKind) : List MemHistoryNode :=
  nodes.filter (·.kind = some kind)

def HistoryWriter.serialize (nodes : List MemHistoryNode) : List HistoryRecord :=
  (nodesOfKind nodes .test ++ nodesOfKind nodes .merge).map record

namespace HistoryReader

-- A value that is absent is not set.
def setUnless (now : Rat) (value : HistoryField → PyValue) (field : HistoryField) : PyValue :=
  if value field = .none then field.default now else value field

def node (now : Rat) (r : HistoryRecord) : MemHistoryNode where
  parent       := none
  logicalName  := r.logicalName
  physicalName := r.physicalName
  kind         := some (HistoryNodeKind.fromStr r.kind)
  testStatus   := .fromInt r.testStatus
  value        := setUnless now r.value

-- The strings of the binary format come in this order after the two names.
def binaryStrings : List HistoryField :=
  [.userName, .seed, .toolCategory, .comment, .date, .runCwd, .cmd, .args, .timeUnit, .vendorId,
    .vendorTool, .vendorToolVersion, .sameTests]

def utf8Decode (bytes : List UInt8) : Option String :=
  String.fromUTF8? ⟨bytes.toArray⟩

-- A slice may be cut short by the end of the data; it is not looked at if its length is zero.
def readString (bytes : List UInt8) : Option (String × List UInt8) := do
  let (length, bytes) ← decodeVarint bytes
  let s ← if length = 0 then some "" else utf8Decode (bytes.take length)
  return (s, bytes.drop length)

-- The value of a double, by its sign, its exponent and its fraction.
def doubleValue (bits : Nat) : PyValue :=
  let negative := decide (2 ^ 63 ≤ bits)
  let exponent := bits / 2 ^ 52 % 2 ^ 11
  let fraction : Nat := bits % 2 ^ 52
  if exponent = 2047 then
    if fraction = 0 then .infinity negative else .nan
  else
    let magnitude : Rat :=
      if exponent = 0 then
        fraction / 2 ^ 1074
      else
        (2 ^ 52 + fraction) * 2 ^ exponent / 2 ^ 1075
    .number (if negative then -magnitude else magnitude)

def unpackDouble (bytes : List UInt8) : Option (PyValue × List UInt8) :=
  if bytes.length < 8 then none else some (doubleValue (decodeLe (bytes.take 8)), bytes.drop 8)

def unpackByte : List UInt8 → Option (UInt8 × List UInt8)
  | []         => none
  | b :: bytes => some (b, bytes)

-- A string that is empty is not set.
def binaryValue (now : Rat) (strings : List String) (compulsory : UInt8)
    (simTime cpuTime cost : PyValue) (field : HistoryField) : PyValue :=
  match field with
  | .compulsory => .number compulsory.toNat
  | .simTime    => simTime
  | .cpuTime    => cpuTime
  | .cost       => cost
  | field       =>
    match strings[binaryStrings.idxOf field]? with
    | none   => field.default now
    | some s => if s = "" then field.default now else .text s

def binaryNode (now : Rat) (bytes : List UInt8) : Option (MemHistoryNode × List UInt8) := do
  let (kind, bytes) ← unpackByte bytes
  let (_parentP1, bytes) ← decodeVarint bytes
  let (status, bytes) ← decodeVarint bytes
  let (compulsory, bytes) ← unpackByte bytes
  let (simTime, bytes) ← unpackDouble bytes
  let (cpuTime, bytes) ← unpackDouble bytes
  let (cost, bytes) ← unpackDouble bytes
  let (logicalName, bytes) ← readString bytes
  let (physicalName, bytes) ← readString bytes
  let (strings, bytes) ← decodeMany readString binaryStrings.length bytes
  return ({
    parent       := none
    logicalName  := logicalName
    physicalName := if physicalName = "" then none else some physicalName
    kind         := some (if kind = 2 then .merge else .test)
    testStatus   := .fromInt status
    value        := binaryValue now strings compulsory simTime cpuTime cost
  }, bytes)

def nhisMagic : List UInt8 := [0x4E, 0x48, 0x49, 0x53]
def nhisVersion : UInt8 := 1

-- What comes after the magic of a binary member.
def deserializeBinary (now : Rat) (bytes : List UInt8) : Option (List MemHistoryNode) := do
  let (version, bytes) ← unpackByte bytes
  if version ≠ nhisVersion then
    none
  else do
    let (n, bytes) ← decodeVarint bytes
    let (nodes, _) ← decodeMany (binaryNode now) n bytes
    return nodes

end HistoryReader

namespace NcdbReader

-- A value that the reader copies to the node that it creates; comparing text with zero raises.
def copyValue (now : Rat) (value : HistoryField → PyValue) (field : HistoryField) : Option PyValue :=
  if value field = .none then
    some (field.default now)
  else if field ∈ HistoryField.measures then
    (value field).nonneg.map fun nonneg => if nonneg then value field else field.default now
  else
    some (value field)

-- The time is that of the whole run of the reader.
def copyNode (now : Rat) (node : MemHistoryNode) : Option MemHistoryNode :=
  if ∀ field ∈ HistoryField.measures, (copyValue now node.value field).isSome then
    some { node with
      parent := none
      value  := fun field => (copyValue now node.value field).getD (field.default now) }
  else
    none

def readHistoryMember (now : Rat) (records : List HistoryRecord) : Option (List MemHistoryNode) :=
  (records.map (HistoryReader.node now)).mapM (copyNode now)

def readBinaryHistoryMember (now : Rat) (bytes : List UInt8) : Option (List MemHistoryNode) := do
  if bytes.take HistoryReader.nhisMagic.length ≠ HistoryReader.nhisMagic then
    none
  else do
    let nodes ← HistoryReader.deserializeBinary now (bytes.drop HistoryReader.nhisMagic.length)
    nodes.mapM (copyNode now)

end NcdbReader

-- What the Python library makes of the history that it wrote.

-- Every field is the same but the parent.
def MemHistoryNode.Same (node node' : MemHistoryNode) : Prop :=
  { node' with parent := node.parent } = node

theorem MemHistoryNode.Same.value {node node' : MemHistoryNode} (h : node.Same node') :
    node'.value = node.value := by
  have h : { node' with parent := node.parent } = node := h
  rw [← h]

structure MemHistory where
  nodes : List MemHistoryNode
  kinds : ∀ node ∈ nodes, node.kind = some .test ∨ node.kind = some .merge

-- Values that are not given up for the one of a new node.
def HistoryField.Keeps (now : Rat) (field : HistoryField) (v : PyValue) : Prop :=
  (v = .none → field.default now = .none) ∧
  (field ∈ measures → v.nonneg = some true ∨ v = field.default now)

theorem HistoryField.keeps_default (now : Rat) (field : HistoryField) :
    field.Keeps now (field.default now) :=
  ⟨id, fun _ => .inr rfl⟩

-- The tests and the merges are all there is.
theorem MemHistory.nodesOfKind_perm (h : MemHistory) :
    (nodesOfKind h.nodes .test ++ nodesOfKind h.nodes .merge).Perm h.nodes := by
  have hm : nodesOfKind h.nodes .merge = 
      h.nodes.filter fun node => !decide (node.kind = some .test) := by
    refine List.filter_congr fun node hn => ?_
    cases h.kinds node hn <;> simp [*]
  rw [hm]
  exact List.filter_append_perm _ h.nodes

namespace NcdbReader

variable {now : Rat} {value : HistoryField → PyValue} {field : HistoryField} {v : PyValue}
  {node node' : MemHistoryNode}

theorem nonneg_default (hm : field ∈ HistoryField.measures) :
    (field.default now).nonneg = some false := by
  simp only [HistoryField.measures, List.mem_cons, List.not_mem_nil, or_false] at hm
  rcases hm with rfl | rfl | rfl | rfl <;> exact congrArg some (decide_eq_false (by decide))

theorem copyValue_of_default (h : value field = field.default now) :
    copyValue now value field = some (field.default now) := by
  rw [copyValue, h]
  split
  case isTrue => rfl
  case isFalse =>
    split
    case isTrue hm => rw [nonneg_default hm]; rfl
    case isFalse   => rfl

-- A field that is not set has its default when the copy is made.
theorem copyValue_setUnless : copyValue now (HistoryReader.setUnless now value) field =
    copyValue now value field := by
  by_cases h : value field = .none
  case pos =>
    rw [copyValue_of_default (if_pos h), copyValue, if_pos h]
  case neg =>
    have hs : HistoryReader.setUnless now value field = value field := if_neg h
    rw [copyValue, copyValue, hs]

theorem keeps_of_copyValue (h : copyValue now value field = some v) : field.Keeps now v := by
  rw [copyValue] at h
  split at h
  case isTrue =>
    obtain rfl := Option.some.inj h
    exact field.keeps_default now
  case isFalse hn =>
    split at h
    case isTrue hm =>
      have ⟨nonneg, hv, h⟩ := Option.map_eq_some_iff.mp h
      subst h
      cases nonneg
      case false => exact field.keeps_default now
      case true  => exact ⟨fun hz => absurd hz hn, fun _ => .inl hv⟩
    case isFalse hm =>
      obtain rfl := Option.some.inj h
      exact ⟨fun hz => absurd hz hn, fun h => absurd h hm⟩

theorem copyValue_of_keeps (h : field.Keeps now (value field)) :
    copyValue now value field = some (value field) := by
  by_cases hd : value field = field.default now
  case pos => rw [copyValue_of_default hd, hd]
  case neg =>
    rw [copyValue, if_neg fun hz => hd (hz.trans (h.left hz).symm)]
    split
    case isTrue hm => rw [(h.right hm).resolve_right hd]; rfl
    case isFalse   => rfl

theorem copyNode_eq_some (h : copyNode now node = some node') :
    node'.parent = none ∧ ∀ field : HistoryField, field.Keeps now (node'.value field) := by
  rw [copyNode, Option.ite_none_right_eq_some] at h
  have ⟨hm, h⟩ := h
  obtain rfl := Option.some.inj h
  refine ⟨rfl, fun field => ?_⟩
  cases hc : copyValue now node.value field
  case none   => simp only [hc, Option.getD_none]; exact field.keeps_default now
  case some v => simp only [hc, Option.getD_some]; exact keeps_of_copyValue hc

theorem copyNode_of_keeps (hp : node.parent = none)
    (h : ∀ field : HistoryField, field.Keeps now (node.value field)) : copyNode now node = some node := by
  have hv : (fun field => (copyValue now node.value field).getD (field.default now)) = node.value :=
    funext fun field => by rw [copyValue_of_keeps (h field), Option.getD_some]
  rw [copyNode, if_pos fun field _ => by rw [copyValue_of_keeps (h field)]; rfl, hv, ← hp]

-- The record of a test or a merge is made into a node that is copied like the node that was written.
theorem copyNode_record (hk : node.kind = some .test ∨ node.kind = some .merge) :
    copyNode now (HistoryReader.node now (HistoryWriter.record node)) = copyNode now node := by
  have hkind : some (HistoryNodeKind.fromStr (HistoryNodeKind.toStr node.kind)) = node.kind := by
    rcases hk with hk | hk <;> rw [hk] <;> rfl
  simp only [copyNode, HistoryReader.node, HistoryWriter.record, copyValue_setUnless, hkind,
    TestStatusT.fromInt_value]

theorem readHistoryMember_serialize (h : MemHistory) : readHistoryMember now (HistoryWriter.serialize h.nodes) =
    (nodesOfKind h.nodes .test ++ nodesOfKind h.nodes .merge).mapM (copyNode now) := by
  rw [readHistoryMember, HistoryWriter.serialize, List.map_map, List.mapM_map]
  refine mapM_congr fun node hn => ?_
  exact copyNode_record (h.kinds node (h.nodesOfKind_perm.mem_iff.mp hn))

end NcdbReader

open NcdbReader

-- The history comes back, each node with its fields and below its parent, if no node has a parent and
-- no field has a value that is given up.
theorem MemHistory.restored_iff (now : Rat) (h : MemHistory) :
    (∃ after, readHistoryMember now (HistoryWriter.serialize h.nodes) = some after ∧
      Rearranged MemHistoryNode.Same (·.parent) (·.parent) h.nodes after) ↔
    ∀ node ∈ h.nodes, node.parent = none ∧ ∀ field : HistoryField, field.Keeps now (node.value field) := by
  rw [readHistoryMember_serialize]
  constructor
  case mp =>
    intro ⟨after, hr, hs⟩ node hn
    have ⟨node', hm, hsame, hp⟩ := hs.exists_same node hn
    have ⟨_, _, hc⟩ := exists_of_mem_mapM hr hm
    have ⟨hnone, hk⟩ := copyNode_eq_some hc
    have hv : node'.value = node.value := hsame.value
    exact ⟨hp hnone, hv ▸ hk⟩
  case mpr =>
    intro hk
    have hp := h.nodesOfKind_perm
    have hc : ∀ node ∈ _, copyNode now node = some node := fun node hn =>
      have ⟨hp, hk⟩ := hk node (hp.mem_iff.mp hn)
      copyNode_of_keeps hp hk
    refine ⟨_, mapM_eq_some_iff.mpr (List.forall₂_same.mpr hc), .of_forall₂ hp ?_⟩
    refine List.forall₂_same.mpr fun node hn => ?_
    have hnone := (hk node (hp.mem_iff.mp hn)).left
    exact ⟨rfl, hnone, hnone⟩
