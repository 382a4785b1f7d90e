import Covsight.Ncdb.HistoryMember
import Covsight.Ncdb.StringTable
import Covsight.NcdbC.Theorems.CrossRead
import Covsight.NcdbC.Theorems.HistoryMember

-- What the Python library makes of a history that the C library wrote.

namespace HistoryReader

theorem utf8Decode_nil : utf8Decode [] = some "" :=
  utf8Decode_eq_some_iff.mpr rfl

theorem utf8Decode_eq_empty {bytes : List UInt8} (h : utf8Decode bytes = some "") : bytes = [] := by
  have he := congrArg (·.data.toList) (utf8Decode_eq_some_iff.mp h)
  exact he.symm

theorem readString_writeLp (s : Option CString) (rest : List UInt8) :
    readString (writeLp s ++ rest) = (utf8Decode (s.getD [])).map (·, rest) := by
  rw [readString, writeLp, List.append_assoc]
  simp only [decodeVarint_encodeVarint, Option.bind_eq_bind, Option.bind_some, List.take_left,
    List.drop_left]
  split
  case isTrue hl =>
    rw [List.length_eq_zero_iff.mp hl, utf8Decode_nil]
    rfl
  case isFalse => cases utf8Decode (s.getD []) <;> rfl

theorem unpackByte_cons (b : UInt8) (rest : List UInt8) : unpackByte (b :: rest) = some (b, rest) :=
  rfl

theorem unpackDouble_encodeLe (bits : UInt64) (rest : List UInt8) :
    unpackDouble (encodeLe 8 bits.toNat ++ rest) = some (doubleValue bits.toNat, rest) := by
  have hl : (encodeLe 8 bits.toNat).length = 8 := length_encodeLe 8 _
  have ht : (encodeLe 8 bits.toNat ++ rest).take 8 = encodeLe 8 bits.toNat := List.take_left' hl
  have hd : (encodeLe 8 bits.toNat ++ rest).drop 8 = rest := List.drop_left' hl
  have hn : decodeLe (encodeLe 8 bits.toNat) = bits.toNat := decodeLe_encodeLe bits.toNat_lt
  rw [unpackDouble, if_neg (by rw [List.length_append]; omega), ht, hd, hn]

end HistoryReader

open HistoryReader NcdbReader

namespace NcdbHistoryEntry

-- What the Python library makes of a node, before it is copied.
def toPython (now : Rat) (n : NcdbHistoryEntry) : Option MemHistoryNode := do
  let logicalName ← utf8Decode n.logicalName
  let physicalName ← utf8Decode (n.physicalName.getD [])
  let strings ← n.strings.mapM fun s => utf8Decode (s.getD [])
  return {
    parent       := none
    logicalName  := logicalName
    physicalName := if physicalName = "" then none else some physicalName
    kind         := some (if n.kind.toUInt8 = 2 then .merge else .test)
    testStatus   := .fromInt n.testStatus.toNat
    value        := binaryValue now strings (if n.compulsory = 0 then 0 else 1)
      (doubleValue n.simTime.toNat) (doubleValue n.cpuTime.toNat) (doubleValue n.cost.toNat)
  }

theorem binaryNode_write (now : Rat) (n : NcdbHistoryEntry) (rest : List UInt8) :
    binaryNode now (n.write ++ rest) = (n.toPython now).map (·, rest) := by
  have hs : decodeMany readString binaryStrings.length (n.strings.flatMap writeLp ++ rest) =
      (n.strings.mapM fun s => utf8Decode (s.getD [])).map (·, rest) := by
    have hl : binaryStrings.length = n.strings.length := rfl
    rw [hl]
    exact decodeMany_mapM (fun s _ rest => readString_writeLp s rest) rest
  simp only [binaryNode, write, toPython, List.append_assoc, List.cons_append, List.nil_append,
    unpackByte_cons, decodeVarint_encodeVarint, unpackDouble_encodeLe, readString_writeLp, Option.bind_eq_bind,
    Option.bind_some, Option.getD_some]
  cases utf8Decode n.logicalName
  case none => rfl
  case some =>
    simp only [Option.map_some, Option.bind_some, readString_writeLp]
    cases utf8Decode (n.physicalName.getD [])
    case none => rfl
    case some =>
      simp only [Option.map_some, Option.bind_some, hs]
      cases n.strings.mapM fun s => utf8Decode (s.getD []) <;> rfl

end NcdbHistoryEntry

theorem readBinaryHistoryMember_serialize (now : Rat) (nodes : List NcdbHistoryEntry) :
    readBinaryHistoryMember now (historySerialize nodes) =
      (nodes.mapM (NcdbHistoryEntry.toPython now)).bind (·.mapM (copyNode now)) := by
  have hm : (historySerialize nodes).take nhisMagic.length = nhisMagic := rfl
  have hd : (historySerialize nodes).drop nhisMagic.length =
      nhisVersion :: (encodeVarint nodes.length ++ nodes.flatMap (·.write)) := rfl
  have hn : decodeMany (binaryNode now) nodes.length (nodes.flatMap (·.write) ++ []) =
      (nodes.mapM (NcdbHistoryEntry.toPython now)).map (·, []) :=
    decodeMany_mapM (fun n _ rest => n.binaryNode_write now rest) []
  rw [List.append_nil] at hn
  rw [readBinaryHistoryMember, if_neg (not_not_intro hm), hd]
  simp only [deserializeBinary, unpackByte_cons, Option.bind_eq_bind, Option.bind_some, if_neg (not_not_intro rfl),
    decodeVarint_encodeVarint, hn]
  cases nodes.mapM (NcdbHistoryEntry.toPython now) <;> rfl

-- Values on both sides.

namespace HistoryReader

variable {now : Rat} {strings : List String} {compulsory : UInt8} {simTime cpuTime cost : PyValue}

theorem doubleValue_ne_text (bits : Nat) (s : String) : doubleValue bits ≠ .text s := by
  rw [doubleValue]
  split
  case isTrue  => split <;> rintro ⟨⟩
  case isFalse => rintro ⟨⟩

theorem default_ne_empty (field : HistoryField) : field.default now ≠ .text "" := by
  cases field <;> simp [HistoryField.default]

-- A string of the binary format is found at its place.
theorem binaryValue_getElem {i : Nat} (hi : i < binaryStrings.length) :
    binaryValue now strings compulsory simTime cpuTime cost binaryStrings[i] =
      match strings[i]? with
      | none   => binaryStrings[i].default now
      | some s => if s = "" then binaryStrings[i].default now else .text s := by
  match i, hi with
  | 0, _ | 1, _ | 2, _ | 3, _ | 4, _ | 5, _ | 6, _ | 7, _ | 8, _ | 9, _ | 10, _ | 11, _ | 12, _ => rfl

theorem field_cases (field : HistoryField) : field ∈ binaryStrings ∨
    field = .compulsory ∨ field = .simTime ∨ field = .cpuTime ∨ field = .cost := by
  cases field <;> decide

-- No value is a text without characters.
theorem binaryValue_ne_empty (hs : simTime ≠ .text "") (hc : cpuTime ≠ .text "") (ht : cost ≠ .text "")
    (field : HistoryField) :
    binaryValue now strings compulsory simTime cpuTime cost field ≠ .text "" := by
  rcases field_cases field with hm | rfl | rfl | rfl | rfl
  case inl =>
    have ⟨i, hi, he⟩ := List.mem_iff_getElem.mp hm
    rw [← he, binaryValue_getElem hi]
    split
    case h_1 => exact default_ne_empty _
    case h_2 s _ =>
      split
      case isTrue     => exact default_ne_empty _
      case isFalse hn => exact fun h => hn (PyValue.text.inj h)
  case inr.inl             => nofun
  case inr.inr.inl         => exact hs
  case inr.inr.inr.inl     => exact hc
  case inr.inr.inr.inr     => exact ht

end HistoryReader

namespace NcdbHistoryEntry

-- The C library counts the states of a test from zero, in the order of the Python library.
def testStatusOf (status : UInt32) : Option TestStatusT :=
  [TestStatusT.ok, .warning, .error, .fatal, .missing, .mergeError][status.toNat]?

def kindOf (kind : UInt32) : Option HistoryNodeKind :=
  if kind = 1 then some .test else if kind = 2 then some .merge else none

-- A string that is missing is told by a field that is not set.
def SameText (default : PyValue) (s : Option CString) (v : PyValue) : Prop :=
  match s with
  | none   => v = default
  | some s => ∃ text, utf8Decode s = some text ∧ v = .text text

-- A node of the Python library that has the same fields.
structure Told (now : Rat) (n : NcdbHistoryEntry) (node : MemHistoryNode) : Prop where
  kind         : node.kind = kindOf n.kind
  testStatus   : testStatusOf n.testStatus = some node.testStatus
  compulsory   : node.value .compulsory = .number n.compulsory.toNat
  simTime      : node.value .simTime = doubleValue n.simTime.toNat
  cpuTime      : node.value .cpuTime = doubleValue n.cpuTime.toNat
  cost         : node.value .cost = doubleValue n.cost.toNat
  logicalName  : utf8Decode n.logicalName = some node.logicalName
  physicalName : n.physicalName.map utf8Decode = node.physicalName.map some
  strings      : binaryStrings.Forall₂ (fun field s => SameText (field.default now) s (node.value field))
    n.strings

-- A number that the Python library takes over, or that stands for none.
def Measured (bits : UInt64) : Prop :=
  (doubleValue bits.toNat).nonneg = some true ∨ doubleValue bits.toNat = .number (-1)

-- A text that is not empty.
def Text (s : CString) : Prop :=
  s ≠ [] ∧ (utf8Decode s).isSome

structure Portable (n : NcdbHistoryEntry) : Prop where
  parent       : n.parent = none
  testStatus   : n.testStatus = 0
  compulsory   : n.compulsory = 0 ∨ n.compulsory = 1
  simTime      : Measured n.simTime
  cpuTime      : Measured n.cpuTime
  cost         : Measured n.cost
  logicalName  : (utf8Decode n.logicalName).isSome
  physicalName : ∀ s ∈ n.physicalName, Text s
  strings      : ∀ s ∈ n.strings, ∀ t ∈ s, Text t
  sameTests    : n.sameTests = none

theorem value_of_testStatusOf {s : UInt32} {status : TestStatusT} (h : testStatusOf s = some status) :
    s.toNat < 6 ∧ status.value = s.toNat + 1 := by
  rw [testStatusOf] at h
  have ⟨hl, he⟩ := List.getElem?_eq_some_iff.mp h
  generalize s.toNat = k at hl he ⊢
  subst he
  match k, hl with
  | 0, hl | 1, hl | 2, hl | 3, hl | 4, hl | 5, hl => exact ⟨hl, rfl⟩

theorem fromInt_eq_ok_or_value (v : Int) :
    TestStatusT.fromInt v = .ok ∨ (TestStatusT.fromInt v).value = v := by
  rw [TestStatusT.fromInt.eq_def]
  split <;> simp [TestStatusT.value]

-- The Python library reads a state as the one before it, and the first one as it is.
theorem testStatusOf_eq_fromInt {s s' : UInt32}
    (h : testStatusOf s = some (.fromInt s'.toNat)) : s.toNat < 6 ∧ (s.toNat = 0 ∨ s'.toNat = s.toNat + 1) := by
  have ⟨hl, hv⟩ := value_of_testStatusOf h
  refine ⟨hl, ?_⟩
  rcases fromInt_eq_ok_or_value s'.toNat with ho | hs
  case inl =>
    rw [ho, TestStatusT.value] at hv
    omega
  case inr => omega

-- If every state is read from one of them, none was read as another one.
theorem testStatus_eq_zero {statuses : List UInt32}
    (h : ∀ s ∈ statuses, ∃ s' ∈ statuses, testStatusOf s = some (.fromInt s'.toNat)) :
    ∀ s ∈ statuses, s = 0 := by
  have hz (k : Nat) : ∀ s ∈ statuses, s.toNat + k = 6 → s.toNat = 0 := by
    induction k
    case zero =>
      intro s hs hk
      have ⟨_, _, he⟩ := h s hs
      have hl := (testStatusOf_eq_fromInt he).left
      omega
    case succ k hi =>
      intro s hs hk
      have ⟨s', hs', he⟩ := h s hs
      rcases (testStatusOf_eq_fromInt he).right with hz | hn
      case inl => exact hz
      case inr =>
        have := hi s' hs' (by omega)
        omega
  intro s hs
  have ⟨_, _, he⟩ := h s hs
  have hl := (testStatusOf_eq_fromInt he).left
  exact UInt32.toNat_inj.mp (hz (6 - s.toNat) s hs (by omega))

theorem toPython_eq_some {now : Rat} {n : NcdbHistoryEntry} {node : MemHistoryNode}
    (h : n.toPython now = some node) : ∃ logicalName physicalName strings,
      utf8Decode n.logicalName = some logicalName ∧
      utf8Decode (n.physicalName.getD []) = some physicalName ∧
      n.strings.mapM (fun s => utf8Decode (s.getD [])) = some strings ∧
      node = {
        parent       := none
        logicalName  := logicalName
        physicalName := if physicalName = "" then none else some physicalName
        kind         := some (if n.kind.toUInt8 = 2 then .merge else .test)
        testStatus   := .fromInt n.testStatus.toNat
        value        := binaryValue now strings (if n.compulsory = 0 then 0 else 1)
          (doubleValue n.simTime.toNat) (doubleValue n.cpuTime.toNat) (doubleValue n.cost.toNat)
      } := by
  have ⟨logicalName, hl, h⟩ := Option.bind_eq_some_iff.mp h
  have ⟨physicalName, hp, h⟩ := Option.bind_eq_some_iff.mp h
  have ⟨strings, hs, h⟩ := Option.bind_eq_some_iff.mp h
  exact ⟨logicalName, physicalName, strings, hl, hp, hs, (Option.some.inj h).symm⟩

-- A node that is made of one that the C library wrote.
structure Made (now : Rat) (n : NcdbHistoryEntry) (node : MemHistoryNode) : Prop where
  parent       : node.parent = none
  testStatus   : node.testStatus = .fromInt n.testStatus.toNat
  compulsory   : ∀ c : Nat, node.value .compulsory = .number c → c ≤ 1
  physicalName : node.physicalName ≠ some ""
  value        : ∀ field, node.value field ≠ .text ""
  keeps        : ∀ field : HistoryField, field.Keeps now (node.value field)

end NcdbHistoryEntry

namespace NcdbReader

variable {now : Rat} {node node' : MemHistoryNode}

-- A field is copied or has its default.
theorem copyNode_value (h : copyNode now node = some node') (field : HistoryField) :
    node'.value field = node.value field ∨ node'.value field = field.default now := by
  rw [copyNode, Option.ite_none_right_eq_some] at h
  obtain rfl := Option.some.inj h.right
  change (copyValue now node.value field).getD _ = _ ∨ (copyValue now node.value field).getD _ = _
  rw [copyValue]
  split
  case isTrue => exact .inr rfl
  case isFalse =>
    split
    case isTrue =>
      cases (node.value field).nonneg with
      | none        => exact .inr rfl
      | some nonneg =>
        cases nonneg
        case false => exact .inr rfl
        case true  => exact .inl rfl
    case isFalse => exact .inl rfl

theorem copyNode_rest (h : copyNode now node = some node') :
    node'.testStatus = node.testStatus ∧ node'.physicalName = node.physicalName := by
  rw [copyNode, Option.ite_none_right_eq_some] at h
  obtain rfl := Option.some.inj h.right
  exact ⟨rfl, rfl⟩

end NcdbReader

namespace NcdbHistoryEntry

variable {now : Rat} {n n' : NcdbHistoryEntry} {node node' : MemHistoryNode}

theorem made_of_copyNode (h : n.toPython now = some node) (hc : copyNode now node = some node') :
    n.Made now node' := by
  have ⟨_, _, _, _, _, _, he⟩ := toPython_eq_some h
  have ⟨hparent, hkeeps⟩ := copyNode_eq_some hc
  have ⟨hstatus, hphysical⟩ := copyNode_rest hc
  subst he
  refine {
    parent       := hparent
    testStatus   := hstatus
    compulsory   := ?compulsory
    physicalName := ?physicalName
    value        := ?value
    keeps        := hkeeps
  }
  case compulsory =>
    intro c hv
    rcases copyNode_value hc .compulsory with hn | hd
    case inl =>
      have he := Rat.natCast_inj.mp (PyValue.number.inj (hv.symm.trans hn))
      rw [he]
      split <;> decide
    case inr => cases hv.symm.trans hd
  case physicalName =>
    rw [hphysical]
    change (if _ then none else some _) ≠ _
    split
    case isTrue     => nofun
    case isFalse hn => exact fun h => hn (Option.some.inj h)
  case value =>
    intro field
    rcases copyNode_value hc field with hn | hd
    case inl =>
      rw [hn]
      exact binaryValue_ne_empty (doubleValue_ne_text _ _) (doubleValue_ne_text _ _)
        (doubleValue_ne_text _ _) field
    case inr =>
      rw [hd]
      exact default_ne_empty field

theorem SameText.text {d v : PyValue} {s : Option CString} (h : SameText d s v) (hv : v ≠ .text "") :
    ∀ t ∈ s, Text t := by
  intro t ht
  obtain rfl := ht
  have ⟨text, hd, he⟩ := h
  refine ⟨fun hn => ?_, by rw [hd]; rfl⟩
  rw [hn, utf8Decode_nil] at hd
  exact hv (Option.some.inj hd ▸ he)

theorem measured_of_keeps {bits : UInt64} {field : HistoryField} {v : PyValue} (hk : field.Keeps now v)
    (hm : field ∈ HistoryField.measures) (hd : field.default now = .number (-1))
    (hv : v = doubleValue bits.toNat) : Measured bits := by
  rw [Measured, ← hv, ← hd]
  exact hk.right hm

-- What is told by a node that was made of some node can be carried over.
theorem Told.portable (h : n.Told now node) (hm : n'.Made now node) (hp : n.parent = none)
    (hs : n.testStatus = 0) : n.Portable := by
  have ⟨hl, hf⟩ := List.forall₂_iff_get.mp h.strings
  have htext {i : Nat} (hi : i < n.strings.length) := hf i hi hi
  refine {
    parent       := hp
    testStatus   := hs
    compulsory   := ?compulsory
    simTime      := measured_of_keeps (hm.keeps .simTime) (by decide) rfl h.simTime
    cpuTime      := measured_of_keeps (hm.keeps .cpuTime) (by decide) rfl h.cpuTime
    cost         := measured_of_keeps (hm.keeps .cost) (by decide) rfl h.cost
    logicalName  := by rw [h.logicalName]; rfl
    physicalName := ?physicalName
    strings      := ?strings
    sameTests    := ?sameTests
  }
  case compulsory =>
    have hc := hm.compulsory _ h.compulsory
    simp only [← UInt32.toNat_inj]
    change n.compulsory.toNat = 0 ∨ n.compulsory.toNat = 1
    omega
  case physicalName =>
    intro s hs
    have hn := h.physicalName
    rw [hs, Option.map_some] at hn
    have ⟨name, hnode, hd⟩ := Option.map_eq_some_iff.mp hn.symm
    refine ⟨fun he => ?_, by rw [← hd]; rfl⟩
    rw [he, utf8Decode_nil] at hd
    exact hm.physicalName (hnode.trans hd)
  case strings =>
    intro s hs
    have ⟨i, hi, he⟩ := List.mem_iff_getElem.mp hs
    exact he ▸ (htext hi).text (hm.value _)
  case sameTests =>
    have hsame : SameText (.number (-1)) n.sameTests (node.value .sameTests) := 
      htext (Nat.lt_succ_self 12)
    cases ht : n.sameTests
    case none => rfl
    case some s =>
      rw [ht] at hsame
      have ⟨text, _, hv⟩ := hsame
      have hk := (hm.keeps .sameTests).right (by decide)
      rw [hv] at hk
      rcases hk with hk | hk <;> cases hk

theorem Measured.keeps {bits : UInt64} {field : HistoryField} (h : Measured bits)
    (hd : field.default now = .number (-1)) : field.Keeps now (doubleValue bits.toNat) := by
  refine ⟨fun hn => ?_, fun _ => hd ▸ h⟩
  rcases h with hv | hv <;> rw [hn] at hv <;> cases hv

theorem Text.decoded {s : Option CString} (h : ∀ t ∈ s, Text t) :
    ∃ text, utf8Decode (s.getD []) = some text ∧ (text = "" ↔ s = none) := by
  cases s
  case none => exact ⟨"", utf8Decode_nil, iff_of_true rfl rfl⟩
  case some s =>
    have ⟨hn, hd⟩ := h s rfl
    have ⟨text, hd⟩ := Option.isSome_iff_exists.mp hd
    refine ⟨text, hd, iff_of_false (fun he => ?_) nofun⟩
    exact hn (utf8Decode_eq_empty (he ▸ hd))

theorem SameText.keeps {field : HistoryField} {s : Option CString} {v : PyValue}
    (h : SameText (field.default now) s v) (hm : field ∈ HistoryField.measures → s = none) :
    field.Keeps now v := by
  cases s
  case none =>
    obtain rfl : v = field.default now := h
    exact field.keeps_default now
  case some s =>
    have ⟨text, _, hv⟩ : ∃ text, utf8Decode s = some text ∧ v = .text text := h
    exact ⟨fun hn => (nomatch hv.symm.trans hn), fun hf => (nomatch hm hf)⟩

theorem sameText_binaryValue {strings : List String} {compulsory : UInt8} {simTime cpuTime cost : PyValue}
    {i : Nat} (hi : i < binaryStrings.length) {s : Option CString} (h : ∀ t ∈ s, Text t)
    (hs : ∃ text, strings[i]? = some text ∧ utf8Decode (s.getD []) = some text) :
    SameText (binaryStrings[i].default now) s
      (binaryValue now strings compulsory simTime cpuTime cost binaryStrings[i]) := by
  have ⟨text, ht, hd⟩ := hs
  have ⟨text', hd', he⟩ := Text.decoded h
  obtain rfl := Option.some.inj (hd.symm.trans hd')
  rw [binaryValue_getElem hi, ht]
  cases s
  case none   => exact if_pos (he.mpr rfl)
  case some s => exact ⟨text, hd, if_neg fun hn => nomatch he.mp hn⟩

-- The one text that a number is expected for.
theorem strings_of_measures : ∀ i, (hi : i < binaryStrings.length) →
    binaryStrings[i] ∈ HistoryField.measures → i = 12 := by
  decide

theorem Portable.told (h : n.Portable) (hk : n.kind = 1 ∨ n.kind = 2) :
    ∃ node, (n.toPython now).bind (copyNode now) = some node ∧ n.Told now node ∧ node.parent = none := by
  have ⟨logicalName, hl⟩ := Option.isSome_iff_exists.mp h.logicalName
  have ⟨physicalName, hp, hpe⟩ := Text.decoded h.physicalName
  have ⟨strings, hs⟩ : ∃ strings, n.strings.mapM (fun s => utf8Decode (s.getD [])) = some strings :=
    exists_mapM fun s hs =>
      have ⟨text, hd, _⟩ := Text.decoded (h.strings s hs)
      ⟨text, hd⟩
  have ⟨hlen, hf⟩ := List.forall₂_iff_get.mp (mapM_eq_some_iff.mp hs)
  let node : MemHistoryNode := {
    parent       := none
    logicalName  := logicalName
    physicalName := if physicalName = "" then none else some physicalName
    kind         := some (if n.kind.toUInt8 = 2 then .merge else .test)
    testStatus   := .fromInt n.testStatus.toNat
    value        := binaryValue now strings (if n.compulsory = 0 then 0 else 1)
      (doubleValue n.simTime.toNat) (doubleValue n.cpuTime.toNat) (doubleValue n.cost.toNat)
  }
  have hpython : n.toPython now = some node := by
    rw [toPython, hl, hp, hs]
    rfl
  have htext (i : Nat) (hi : i < binaryStrings.length) (hi' : i < n.strings.length) :
      SameText (binaryStrings[i].default now) n.strings[i] (node.value binaryStrings[i]) :=
    sameText_binaryValue hi (h.strings _ (List.getElem_mem hi'))
      ⟨strings[i], List.getElem?_eq_getElem (hlen ▸ hi'), hf i hi' (hlen ▸ hi')⟩
  have hkeeps (field : HistoryField) : field.Keeps now (node.value field) := by
    rcases field_cases field with hm | rfl | rfl | rfl | rfl
    case inl =>
      have ⟨i, hi, he⟩ := List.mem_iff_getElem.mp hm
      have ht := htext i hi hi
      rw [he] at ht
      refine ht.keeps fun hm => ?_
      obtain rfl := strings_of_measures i hi (he ▸ hm)
      exact h.sameTests
    case inr.inl             => exact ⟨nofun, fun hm => absurd hm (by decide)⟩
    case inr.inr.inl         => exact h.simTime.keeps rfl
    case inr.inr.inr.inl     => exact h.cpuTime.keeps rfl
    case inr.inr.inr.inr     => exact h.cost.keeps rfl
  refine ⟨node, by rw [hpython, Option.bind_some, copyNode_of_keeps rfl hkeeps], ?_, rfl⟩
  refine {
    kind         := ?kind
    testStatus   := ?testStatus
    compulsory   := ?compulsory
    simTime      := rfl
    cpuTime      := rfl
    cost         := rfl
    logicalName  := hl
    physicalName := ?physicalName
    strings      := List.forall₂_iff_get.mpr ⟨rfl, htext⟩
  }
  case kind =>
    change some _ = _
    rcases hk with hk | hk <;> rw [hk] <;> rfl
  case testStatus =>
    change _ = some (TestStatusT.fromInt n.testStatus.toNat)
    rw [h.testStatus]
    rfl
  case compulsory =>
    change PyValue.number _ = _
    rcases h.compulsory with hc | hc <;> rw [hc] <;> rfl
  case physicalName =>
    change _ = (if physicalName = "" then none else some physicalName).map some
    cases hn : n.physicalName
    case none =>
      rw [if_pos (hpe.mpr hn)]
      rfl
    case some s =>
      rw [hn] at hp
      rw [if_neg fun he => nomatch hn.symm.trans (hpe.mp he)]
      exact congrArg some hp

end NcdbHistoryEntry

-- The Python library has the history, each node with its fields and below its parent, if there is
-- nothing in it that cannot be carried over.
theorem NcdbHistory.told_iff (now : Rat) (h : NcdbHistory) :
    (∃ after, readBinaryHistoryMember now (historySerialize h.nodes) = some after ∧
      Rearranged (NcdbHistoryEntry.Told now) (·.parent) (·.parent) h.nodes after) ↔
    ∀ n ∈ h.nodes, n.Portable := by
  have hr : readBinaryHistoryMember now (historySerialize h.nodes) =
      h.nodes.mapM fun n => (n.toPython now).bind (copyNode now) := by
    rw [readBinaryHistoryMember_serialize]
    exact (mapM_bind _ _ _).symm
  rw [hr]
  constructor
  case mp =>
    intro ⟨after, hr, hs⟩
    have hmade : ∀ n ∈ h.nodes, ∃ n' ∈ h.nodes, ∃ node, n'.Made now node ∧ n.Told now node ∧
        (node.parent = none → n.parent = none) := by
      intro n hn
      have ⟨node, hm, ht, hp⟩ := hs.exists_same n hn
      have ⟨n', hn', hc⟩ := exists_of_mem_mapM hr hm
      have ⟨_, hpython, hc⟩ := Option.bind_eq_some_iff.mp hc
      exact ⟨n', hn', node, n'.made_of_copyNode hpython hc, ht, hp⟩
    have hz : ∀ status ∈ h.nodes.map (·.testStatus), status = 0 := by
      refine NcdbHistoryEntry.testStatus_eq_zero ?_
      rw [List.forall_mem_map]
      intro n hn
      have ⟨n', hn', node, hm, ht, _⟩ := hmade n hn
      exact ⟨_, List.mem_map_of_mem hn', ht.testStatus.trans (congrArg some hm.testStatus)⟩
    intro n hn
    have ⟨n', _, node, hm, ht, hp⟩ := hmade n hn
    exact ht.portable hm (hp hm.parent) (hz _ (List.mem_map_of_mem hn))
  case mpr =>
    intro hp
    have htold : ∀ n ∈ h.nodes, ∃ node, (n.toPython now).bind (copyNode now) = some node ∧
        n.Told now node ∧ node.parent = none := fun n hn => (hp n hn).told (h.kinds n hn)
    have ⟨after, ha⟩ := exists_mapM fun n hn => have ⟨node, hc, _⟩ := htold n hn; ⟨node, hc⟩
    refine ⟨after, ha, .of_forall₂ (.refl _) ?_⟩
    refine (List.forall₂_and_left _ _ |>.mpr ⟨fun n hn => hn, mapM_eq_some_iff.mp ha⟩).imp ?_
    intro n node ⟨hn, hc⟩
    have ⟨_, hc', ht, hnone⟩ := htold n hn
    obtain rfl := Option.some.inj (hc.symm.trans hc')
    exact ⟨ht, (hp n hn).parent, hnone⟩

-- A test below another one.
def nestedTests : MemHistory where
  nodes := [⟨none, "a", none, some .test, .ok, HistoryField.default 0⟩,
    ⟨some 0, "b", none, some .test, .ok, HistoryField.default 0⟩]
  kinds := by simp

-- A test that gave a warning. The times and the cost are -1.
def warnedTest : NcdbHistory where
  nodes   := [{
    kind       := 1
    testStatus := 1
    simTime    := 0xBFF0000000000000
    cpuTime    := 0xBFF0000000000000
    cost       := 0xBFF0000000000000
  }]
  formed  := by
    have hf : CString.Formed [] := ⟨nofun, Nat.two_pow_pos 64⟩
    simp only [List.forall_mem_singleton]
    exact ⟨hf, nofun, by simp [NcdbHistoryEntry.strings]⟩
  kinds   := by simp
  parents := by simp [NcdbHistoryEntry.parent]
  small   := by decide
