import Covsight.Ncdb.ScopeTreeCodec
import Covsight.Ncdb.Theorems.ScopeTreeRoundTrip

-- Decoding the bytes of a scope tree gives its records back.

@[simp]
theorem ScopeTypeT.ofValue_value (t : ScopeTypeT) : ofValue t.value = some t := by
  cases t <;> rfl

@[simp]
theorem CoverTypeT.ofValue_value (t : CoverTypeT) : ofValue t.value = some t := by
  cases t <;> rfl

@[simp]
theorem SourceT.ofValue_value (source : SourceT) : ofValue source.value = some source := by
  cases source <;> rfl

namespace ScopeHeader

-- A bit of the presence word is set exactly if its field is there.
theorem presence_bits (a b c d e f : Bool) :
    let word := (if a then presenceFlags else 0) + (if b then presenceSource else 0) +
      (if c then presenceWeight else 0) + (if d then presenceAtLeast else 0) +
      (if e then presenceGoal else 0) + (if f then presenceSourceType else 0)
    (word &&& presenceFlags = 0 ↔ a = false) ∧ (word &&& presenceSource = 0 ↔ b = false) ∧
    (word &&& presenceWeight = 0 ↔ c = false) ∧ (word &&& presenceAtLeast = 0 ↔ d = false) ∧
    (word &&& presenceGoal = 0 ↔ e = false) ∧ (word &&& presenceSourceType = 0 ↔ f = false) := by
  revert a b c d e f
  decide

theorem decodeSource_encodeSource (ref : SourceRef) (rest : List UInt8) :
    decodeSource (encodeSource ref ++ rest) = some (ref, rest) := by
  simp [decodeSource, encodeSource, List.append_assoc, decodeVarint_encodeVarint]

theorem decodeSourceType_encode (source : SourceT) (rest : List UInt8) :
    decodeSourceType (encodeVarint source.value ++ rest) = some (source, rest) := by
  simp [decodeSourceType, decodeVarint_encodeVarint]

theorem decode_encode (h : ScopeHeader) (rest : List UInt8) :
    decode (h.encode ++ rest) = some ({ h with coverType := none }, rest) := by
  have ⟨hf, hs, hw, ha, hg, ht⟩ := presence_bits h.flags.isSome h.source.isSome h.weight.isSome
    h.atLeast.isSome h.goal.isSome h.sourceType.isSome
  simp only [Option.isSome_eq_false_iff, Option.isNone_iff_eq_none] at hf hs hw ha hg ht
  have hv : ∀ (a : Option Nat), ∀ x ∈ a, ∀ rest,
      decodeVarint (encodeVarint x ++ rest) = some (x, rest) := fun _ x _ rest =>
    decodeVarint_encodeVarint x rest
  simp only [decode, encode, List.append_assoc, decodeVarint_encodeVarint, Option.bind_eq_bind,
    Option.bind_some, ScopeTypeT.ofValue_value, presence,
    decodeIf_encodeOption (hv _) hf, decodeIf_encodeOption (hv _) hw, decodeIf_encodeOption (hv _) ha,
    decodeIf_encodeOption (hv _) hg,
    decodeIf_encodeOption (fun x _ => decodeSource_encodeSource x) hs,
    decodeIf_encodeOption (fun x _ => decodeSourceType_encode x) ht]
  rfl

end ScopeHeader

namespace ScopeRecord

mutual

-- A record has a cover type if and only if it has items.
def Formed : ScopeRecord → Prop
  | togglePair _                => True
  | regular header items scopes => (header.coverType = none ↔ items = []) ∧ FormedAll scopes

def FormedAll : List ScopeRecord → Prop
  | []                => True
  | record :: records => record.Formed ∧ FormedAll records

end

theorem FormedAll.of_mem {records : List ScopeRecord} (h : FormedAll records) {r : ScopeRecord}
    (hm : r ∈ records) : r.Formed := by
  induction records
  case nil => cases hm
  case cons record records hi =>
    rw [FormedAll] at h
    cases hm
    case head    => exact h.1
    case tail hm => exact hi h.2 hm

theorem encodeAll_eq_flatMap (records : List ScopeRecord) :
    encodeAll records = records.flatMap encode := by
  induction records
  case nil             => rfl
  case cons r rs hi => rw [encodeAll, hi, List.flatMap_cons]

theorem encode_ne_nil (record : ScopeRecord) : record.encode ≠ [] := by
  cases record <;> simp [encode]

theorem length_encode_le {record : ScopeRecord} {records : List ScopeRecord}
    (h : record ∈ records) : record.encode.length ≤ (encodeAll records).length := by
  rw [encodeAll_eq_flatMap]
  exact (List.sublist_flatten_of_mem (List.mem_map_of_mem h)).length_le

theorem length_le_encodeAll (records : List ScopeRecord) :
    records.length ≤ (encodeAll records).length := by
  induction records
  case nil => exact Nat.le_refl _
  case cons record records hi =>
    have hr := List.length_pos_iff.mpr (encode_ne_nil record)
    rw [encodeAll, List.length_cons, List.length_append]
    omega

theorem decodeCoverType_encode {coverType : Option CoverTypeT} {items : List Nat}
    (h : coverType = none ↔ items = []) (rest : List UInt8) :
    decodeCoverType items.length (encodeOption (encodeVarint ·.value) coverType ++ rest)
      = some (coverType, rest) := by
  rw [decodeCoverType]
  cases coverType
  case none      => simp [h.mp rfl, encodeOption]
  case some type =>
    have hn : items.length ≠ 0 := fun hc => nomatch h.mpr (List.length_eq_zero_iff.mp hc)
    rw [if_neg hn]
    simp [encodeOption, decodeVarint_encodeVarint]

-- The fuel suffices when there is as much as bytes.
theorem decode_encode {fuel : Nat} : ∀ {record : ScopeRecord}, record.Formed →
    record.encode.length ≤ fuel → ∀ rest, decode fuel (record.encode ++ rest) = some (record, rest) := by
  induction fuel
  case zero =>
    intro record _ hl
    exact absurd (List.length_eq_zero_iff.mp (Nat.le_zero.mp hl)) (encode_ne_nil record)
  case succ fuel hi =>
    intro record hf hl rest
    cases record
    case togglePair nameRef =>
      rw [encode, List.cons_append, decode, if_pos rfl, decodeVarint_encodeVarint]
      rfl
    case regular header items scopes =>
      rw [Formed] at hf
      rw [encode, List.length_cons] at hl
      have hs : ∀ s ∈ scopes, ∀ rest, decode fuel (s.encode ++ rest) = some (s, rest) := by
        intro s hm
        refine hi (hf.2.of_mem hm) ?_
        have hle := length_encode_le hm
        simp only [List.length_append] at hl
        omega
      have hsub := decodeMany_flatMap hs rest
      have hitems := @decodeMany_flatMap _ decodeVarint encodeVarint items (fun x _ => decodeVarint_encodeVarint x)
        (scopes.flatMap encode ++ rest)
      rw [encode, List.cons_append, decode, if_neg (by decide)]
      simp only [encodeItems, List.append_assoc, ScopeHeader.decode_encode, Option.bind_eq_bind,
        Option.bind_some, decodeVarint_encodeVarint, decodeCoverType_encode hf.1, hitems,
        encodeAll_eq_flatMap, hsub, Option.pure_def]

end ScopeRecord

namespace ScopeTreeWriter

mutual

theorem formed_writeScope : (s : Scope) → {w w' : ScopeTreeWriter} → {record : ScopeRecord} →
    w.writeScope s = some (record, w') → record.Formed
  | .mk d is ss, w, w', record, h => by
    rw [writeScope] at h
    split at h
    case isTrue =>
      cases h
      trivial
    case isFalse =>
      simp only [Option.bind_eq_bind, Option.bind_eq_some_iff, Prod.exists, Option.pure_def,
        Option.some.injEq, Prod.mk.injEq] at h
      have ⟨header, w₁, hh, records, w₂, hs, hr, _⟩ := h
      have ⟨_, _, _, _, _, _, hh, _⟩ := ScopeTreeReader.writeHeader_ok hh
      rw [← hr, ScopeRecord.Formed, hh]
      refine ⟨?_, formed_writeScopes ss hs⟩
      cases is <;> simp [writeItems]

theorem formed_writeScopes : (ss : List Scope) → {w w' : ScopeTreeWriter} →
    {records : List ScopeRecord} → w.writeScopes ss = some (records, w') →
    ScopeRecord.FormedAll records
  | [], w, w', records, h => by
    cases h
    trivial
  | s :: ss, w, w', records, h => by
    simp only [writeScopes, Option.bind_eq_bind, Option.bind_eq_some_iff, Prod.exists,
      Option.pure_def, Option.some.injEq, Prod.mk.injEq] at h
    have ⟨_, _, h₁, _, _, h₂, hr, _⟩ := h
    rw [← hr]
    exact ⟨formed_writeScope s h₁, formed_writeScopes ss h₂⟩

end

end ScopeTreeWriter

-- The bytes of a tree are decoded to its records.
theorem ScopeRecord.decodeAll_encodeAll {records : List ScopeRecord} (h : FormedAll records) :
    decodeAll (decode (encodeAll records).length) (encodeAll records).length (encodeAll records)
      = some records := by
  have hl := length_le_encodeAll records
  have hd := decodeAll_flatMap (fun r hm => decode_encode (h.of_mem hm) (length_encode_le hm))
    (fun r _ => encode_ne_nil r) hl
  rwa [← encodeAll_eq_flatMap] at hd

namespace Scope

mutual

-- What a record keeps of a scope: of a toggle pair its name and two counts.
def stored : Scope → Scope
  | mk d is ss =>
    if (mk d is ss).isTogglePair then
      ScopeTreeReader.togglePair d.name (ScopeTreeWriter.countNamed is toggleBin0To1)
        (ScopeTreeWriter.countNamed is toggleBin1To0)
    else
      mk d.stored (storedItems is) (storedAll ss)

def storedAll : List Scope → List Scope
  | []      => []
  | s :: ss => s.stored :: storedAll ss

end

-- A number that is stored unless it has its default value has to be non-negative.
def Storable (default v : Int) : Prop :=
  v = default ∨ 0 ≤ v

mutual

-- What a record can express: the items of a toggle pair are toggle bins, the numbers of other scopes
-- are not negative, and the two sub-scopes of an FSM scope have the location, weight and flags that
-- it gave them.
def Representable : Scope → Prop
  | mk d is ss =>
    (if (mk d is ss).isTogglePair then
      ∀ ci ∈ is, ci.data.type = .toggleBin
    else
      Storable 1 d.weight ∧ Storable (-1) d.goal ∧
        ∀ ci ∈ is.head?, Storable (defaultAtLeast ci.data.type) ci.data.atLeast) ∧
    (d.type = .fsm → ∀ s ∈ ss, s.type = .fsmStates ∨ s.type = .fsmTrans →
      s.data.srcinfo = d.srcinfo ∧ s.data.weight = d.weight ∧ s.data.flags = d.flags) ∧
    RepresentableAll ss

def RepresentableAll : List Scope → Prop
  | []      => True
  | s :: ss => s.Representable ∧ RepresentableAll ss

end

theorem RepresentableAll.of_mem {ss : List Scope} (h : RepresentableAll ss) {s : Scope} (hm : s ∈ ss) :
    s.Representable := by
  induction ss
  case nil => cases hm
  case cons s' ss hi =>
    rw [RepresentableAll] at h
    cases hm
    case head    => exact h.1
    case tail hm => exact hi h.2 hm

-- Below an FSM scope nothing changes what it keeps.
theorem restored_data {d p : ScopeData} (h : p.type = .fsm → d.type = .fsmStates ∨ d.type = .fsmTrans →
      d.srcinfo = p.srcinfo ∧ d.weight = p.weight ∧ d.flags = p.flags) :
    d.restored (some p) = d.stored := by
  simp only [ScopeData.restored]
  split
  case isFalse   => rfl
  case isTrue hc =>
    obtain ⟨hs, hw, hf⟩ := h hc.1 hc.2
    rw [← hs, ← hw, ← hf]
    rfl

mutual

theorem restored_of_representable : (s : Scope) → s.Representable → s.restored none = s.stored
  | mk d is ss, h => by
    rw [Representable] at h
    have ⟨_, hf, hs⟩ := h
    rw [restored, stored, restoredAll_of_representable ss hs fun s hm ht => hf ht s hm]
    rfl

theorem restoredAll_of_representable : (ss : List Scope) → RepresentableAll ss → {p : ScopeData} →
    (∀ s ∈ ss, p.type = .fsm → s.type = .fsmStates ∨ s.type = .fsmTrans →
      s.data.srcinfo = p.srcinfo ∧ s.data.weight = p.weight ∧ s.data.flags = p.flags) →
    restoredAll (some p) ss = storedAll ss
  | [], _, _, _ => rfl
  | .mk d is ss :: rest, h, p, hf => by
    rw [RepresentableAll] at h
    have hd := restored_data (hf _ (.head _))
    have hs := restored_of_representable (.mk d is ss) h.1
    rw [restoredAll, storedAll, restoredAll_of_representable rest h.2 fun s hm => hf s (.tail _ hm),
      ← hs, restored, restored]
    simp only [Scope.data_mk] at hd
    rw [hd]
    rfl

end

end Scope

namespace ScopeTreeReader

open Scope (stored BuiltAll Storable Representable RepresentableAll)

theorem presentVarint_isSome {default v : Int} (h : Storable default v) :
    ∃ n, presentVarint default v = some n := by
  rw [presentVarint]
  split
  case isTrue     => exact ⟨_, rfl⟩
  case isFalse hd => rw [if_neg (by cases h <;> omega)]; exact ⟨_, rfl⟩

mutual

-- What a record can express is written.
theorem writeScope_isSome : (s : Scope) → s.Representable → (w : ScopeTreeWriter) →
    ∃ record w', w.writeScope s = some (record, w')
  | .mk d is ss, h, w => by
    rw [Representable] at h
    rw [ScopeTreeWriter.writeScope]
    by_cases hp : (Scope.mk d is ss).isTogglePair
    case pos => exact ⟨_, _, if_pos hp⟩
    case neg =>
      rw [if_neg hp] at h ⊢
      have ⟨⟨hw, hg, ha⟩, _, hs⟩ := h
      have ⟨weight, hw⟩ := presentVarint_isSome hw
      have ⟨goal, hg⟩ := presentVarint_isSome hg
      have ⟨atLeast, ha⟩ : ∃ atLeast, ScopeTreeWriter.atLeastOverride is = some atLeast := by
        cases is
        case nil           => exact ⟨_, rfl⟩
        case cons item is => exact presentVarint_isSome (ha item rfl)
      have ⟨header, w₁, hh⟩ : ∃ header w₁, w.writeHeader (.mk d is ss) = some (header, w₁) := by
        simp [ScopeTreeWriter.writeHeader, hw, hg, ha]
      have ⟨records, w₂, hr⟩ := writeScopes_isSome ss hs (w₁.writeItems is).snd
      simp [hh, hr]

theorem writeScopes_isSome : (ss : List Scope) → RepresentableAll ss → (w : ScopeTreeWriter) →
    ∃ records w', w.writeScopes ss = some (records, w')
  | [],      _, w => ⟨_, _, rfl⟩
  | s :: ss, h, w => by
    rw [RepresentableAll] at h
    have ⟨record, w₁, h₁⟩ := writeScope_isSome s h.1 w
    have ⟨records, w₂, h₂⟩ := writeScopes_isSome ss h.2 w₁
    simp [ScopeTreeWriter.writeScopes, h₁, h₂]

end

-- A design with an FSM scope, a covergroup and a signal, its bins created in the reverse order.
def toggleItem (name : String) (count : Nat) : CoverIndex where
  name := name
  data := { type := .toggleBin, flags := 1, data := count }

def fsmScope : Scope :=
  .mk { type := .fsm, name := "fsm", weight := 2, goal := 90 } [] [
    .mk { type := .fsmStates, name := "states", weight := 2 } [] [],
    .mk { type := .fsmTrans, name := "transitions", weight := 2, source := .sv } [] []
  ]

def signalScope : Scope :=
  .mk { type := .branch, name := "signal" } [toggleItem toggleBin1To0 3, toggleItem toggleBin0To1 4] []

def builtScopes : List Scope :=
  [.mk { type := .block, name := "top", flags := 8, srcinfo := ⟨some "top.sv", 3, 7⟩ } [] [
    fsmScope, .mk { type := .covergroup, name := "cg" } [] [], signalScope
  ]]

-- A signal with a weight, a block with two kinds of items and one whose location has no line.
def unlikeScopes : List Scope := [
  .mk { type := .branch, name := "signal", weight := 5 }
    [toggleItem toggleBin0To1 3, toggleItem toggleBin1To0 4] [],
  .mk { type := .block, name := "block" } [
    { name := "stmt", data := { type := .stmtBin, flags := 1 } },
    { name := "branch", data := { type := .branchBin, flags := 1 } }
  ] [],
  .mk { type := .block, name := "unplaced", srcinfo := ⟨some "top.sv", -1, 0⟩ } [] []
]

end ScopeTreeReader
