import Covsight.Lib.EncodedReads
import Covsight.Lib.Rearrangement
import Covsight.NcdbC.MemberDecoders
import Covsight.NcdbC.Theorems.ScopeTreeCodec
import Mathlib.Algebra.BigOperators.Group.List.Basic
import Mathlib.Data.List.TakeWhile

-- The C library reads the history that it wrote.

open Decoder

-- The bytes of a string are none of them zero, and there are fewer than the address space has.
structure CString.Formed (s : CString) : Prop where
  no_zero : 0 ∉ s
  small   : s.length < 2 ^ 64

theorem cString_of_formed {s : CString} (h : s.Formed) : cString s = s := by
  rw [cString, List.takeWhile_eq_self_iff]
  intro b hb
  exact decide_eq_true fun hz => h.no_zero (hz ▸ hb)

theorem CString.Formed.getD {s : Option CString} (h : ∀ t ∈ s, t.Formed) : (s.getD []).Formed := by
  cases s
  case none => exact ⟨nofun, Nat.two_pow_pos 64⟩
  case some s => exact h s rfl

theorem reads_readLp {s : Option CString} (h : ∀ t ∈ s, t.Formed) :
    readLpStr.Reads (writeLp s) (s.getD []) := by
  have hf := CString.Formed.getD h
  have hr := (reads_copy (s.getD []) hf.small).map cString
  rwa [cString_of_formed hf] at hr

theorem reads_readU64le (n : UInt64) : readU64le.Reads (encodeLe 8 n.toNat) n := by
  have hr := reads_littleEndian (encodeLe 8 n.toNat)
  rwa [length_encodeLe, foldr_encodeLe n.toNat_lt, UInt64.ofNat_toNat] at hr

namespace NcdbHistoryEntry

-- A node that the library can have.
structure Formed (n : NcdbHistoryEntry) : Prop where
  logicalName  : n.logicalName.Formed
  physicalName : ∀ s ∈ n.physicalName, s.Formed
  strings      : ∀ s ∈ n.strings, ∀ t ∈ s, t.Formed

theorem parentPlus1_sub (n : NcdbHistoryEntry) :
    (if n.parentPlus1 = 0 then -1 else n.parentPlus1 - 1) = n.parentIdx := by
  rw [parentPlus1]
  grind

theorem reads_readHistoryNode {p : NcdbPlatform} (hp : ∀ i, p.stores i = true) {n : NcdbHistoryEntry}
    (h : n.Formed) (i : Nat) : (readHistoryNode p i).Reads n.write n.reread := by
  have hs {s : Option CString} (hs : s ∈ n.strings) : readLpDup.Reads (writeLp s) (s.getD []) :=
    reads_readLp (h.strings s hs)
  have hlogical : readLpDup.Reads (writeLp n.logicalName) n.logicalName :=
    reads_readLp (s := some n.logicalName) fun s hs => Option.some.inj hs ▸ h.logicalName
  have hphysical : readLpDup.Reads (writeLp n.physicalName) (n.physicalName.getD []) :=
    reads_readLp h.physicalName
  have hstatus := reads_varint n.testStatus.toUInt64
  have hflag : (if n.compulsory = 0 then 0 else 1 : UInt8).toUInt32 = if n.compulsory = 0 then 0 else 1 :=
    apply_ite UInt8.toUInt32 ..
  rw [UInt32.toNat_toUInt64] at hstatus
  rw [strings] at hs
  rw [readHistoryNode, write, strings]
  simp only [List.flatMap_cons, List.flatMap_nil]
  refine (reads_byte _).bind <| (reads_varint _).bind <| hstatus.bind <| (reads_byteIf (hp i) _).bind <|
    (reads_readU64le _).bind <| (reads_readU64le _).bind <| (reads_readU64le _).bind <|
    hlogical.bind <| hphysical.bind <| (hs (by simp)).bind <| (hs (by simp)).bind <|
    (hs (by simp)).bind <| (hs (by simp)).bind <| (hs (by simp)).bind <| (hs (by simp)).bind <|
    (hs (by simp)).bind <| (hs (by simp)).bind <| (hs (by simp)).bind <| (hs (by simp)).bind <|
    (hs (by simp)).bind <| (hs (by simp)).bind <| (hs (by simp)).bind ?_
  rw [parentPlus1_sub, UInt32.toUInt32_toUInt64, hflag]
  exact reads_pure n.reread

end NcdbHistoryEntry

-- What the C library wrote it reads, with every string there and every flag one or zero.
theorem reads_historyDeserialize {p : NcdbPlatform} (hp : ∀ i, p.stores i = true)
    (json : List UInt8 → Option (List NcdbHistoryEntry)) {nodes : List NcdbHistoryEntry}
    (h : ∀ n ∈ nodes, n.Formed) (hl : nodes.length < 2 ^ 64) :
    (historyDeserialize p json).Reads (historySerialize nodes) (nodes.map (·.reread)) := by
  have hn := reads_varint (UInt64.ofNat nodes.length)
  rw [UInt64.toNat_ofNat_of_lt' hl] at hn
  have hrecords : (records (UInt64.ofNat nodes.length) [] fun i nodes => do
      return nodes ++ [← readHistoryNode p i]).Reads (nodes.flatMap (·.write))
        (nodes.foldl (fun nodes n => nodes ++ [n.reread]) []) :=
    reads_records hl
      (fun n hm i nodes => (NcdbHistoryEntry.reads_readHistoryNode hp (h n hm) i).map (nodes ++ [·])) []
  have hfold : nodes.foldl (fun nodes n => nodes ++ [n.reread]) [] = nodes.map (·.reread) := by
    rw [List.foldl_append_eq_append (f := fun n : NcdbHistoryEntry => [n.reread]), List.nil_append]
    exact List.map_eq_flatMap.symm
  rw [hfold] at hrecords
  rw [historyDeserialize, historySerialize, ← List.append_assoc]
  refine (reads_opening ncdbHistMagic [ncdbHistVersion]).bind ?_
  exact hn.bind hrecords

namespace NcdbHistoryEntry

def parent (n : NcdbHistoryEntry) : Option Nat :=
  if n.parentIdx = -1 then none else some n.parentIdx.toNat

-- Every field is the same but the parent.
def Same (n n' : NcdbHistoryEntry) : Prop :=
  { n' with parentIdx := n.parentIdx } = n

-- No string is missing, and the flag is one or zero.
structure Whole (n : NcdbHistoryEntry) : Prop where
  compulsory   : n.compulsory = 0 ∨ n.compulsory = 1
  physicalName : n.physicalName ≠ none
  strings      : none ∉ n.strings

theorem whole_of_same {n n' : NcdbHistoryEntry} (h : n.Same n'.reread) : n.Whole := by
  have h : { n'.reread with parentIdx := n.parentIdx } = n := h
  have hc : n'.reread.compulsory = 0 ∨ n'.reread.compulsory = 1 := by
    simp only [reread]
    split
    case isTrue  => exact .inl rfl
    case isFalse => exact .inr rfl
  rw [← h]
  exact ⟨hc, nofun, by simp [strings, reread]⟩

theorem Whole.same {n : NcdbHistoryEntry} (h : n.Whole) (hk : n.kind = 1 ∨ n.kind = 2) :
    n.reread = n := by
  have getD {s : Option CString} (hs : s ≠ none) : some (s.getD []) = s := by
    cases s
    case none   => exact absurd rfl hs
    case some s => rfl
  have hs {s : Option CString} (hm : s ∈ n.strings) : some (s.getD []) = s :=
    getD fun hn => h.strings (hn ▸ hm)
  have hkind : n.kind.toUInt8.toUInt32 = n.kind := by
    rcases hk with hk | hk <;> rw [hk] <;> rfl
  have hflag : (if n.compulsory = 0 then 0 else 1 : UInt32) = n.compulsory := by
    rcases h.compulsory with hc | hc <;> rw [hc] <;> rfl
  rw [NcdbHistoryEntry.strings] at hs
  rw [reread, hkind, hflag, getD h.physicalName]
  simp only [List.mem_cons, true_or, or_true, hs]

end NcdbHistoryEntry

-- A history of tests and merges in memory, each parent one of them.
structure NcdbHistory where
  nodes   : List NcdbHistoryEntry
  formed  : ∀ n ∈ nodes, n.Formed
  kinds   : ∀ n ∈ nodes, n.kind = 1 ∨ n.kind = 2
  parents : ∀ n ∈ nodes, ∀ i ∈ n.parent, i < nodes.length
  small   : (historySerialize nodes).length < 2 ^ 63

namespace NcdbHistory

def member (h : NcdbHistory) : ByteBuffer :=
  ⟨historySerialize h.nodes, h.small⟩

theorem length_lt (h : NcdbHistory) : h.nodes.length < 2 ^ 64 := by
  have hl : h.nodes.length ≤ (h.nodes.flatMap (·.write)).length := by
    rw [List.length_flatMap, ← List.length_map (f := fun n => n.write.length)]
    refine List.length_le_sum_of_one_le _ fun l hl => ?_
    have ⟨n, _, he⟩ := List.mem_map.mp hl
    rw [← he]
    exact Nat.le_add_left ..
  have hs := h.small
  simp only [historySerialize, List.length_append] at hs
  omega

theorem historyRead_member (json : List UInt8 → Option (List NcdbHistoryEntry)) (h : NcdbHistory) :
    historyRead json h.member = some (h.nodes.map (·.reread)) := by
  have hr := reads_historyDeserialize (p := ⟨fun _ => true, fun _ => true⟩) (fun _ => rfl) json h.formed
    h.length_lt
  have ⟨c, hd, _⟩ := hr ⟨h.member, fun _ => true, true⟩ {} (fun _ => rfl)
    ⟨Nat.zero_le _, List.prefix_rfl⟩
  rw [historyRead, hd]

-- The history comes back, each node with its fields and below its parent, if no string is missing.
theorem restored_iff (json : List UInt8 → Option (List NcdbHistoryEntry)) (h : NcdbHistory) :
    (∃ after, historyRead json h.member = some after ∧
      Rearranged NcdbHistoryEntry.Same (·.parent) (·.parent) h.nodes after) ↔
    ∀ n ∈ h.nodes, n.Whole := by
  rw [historyRead_member]
  constructor
  case mp =>
    intro ⟨after, hr, hs⟩ n hn
    obtain rfl := Option.some.inj hr
    have ⟨_, hm, hsame, _⟩ := hs.exists_same n hn
    have ⟨n', _, he⟩ := List.mem_map.mp hm
    exact NcdbHistoryEntry.whole_of_same (he ▸ hsame)
  case mpr =>
    intro hw
    refine ⟨_, rfl, .of_map (fun n hn => ?_) (fun _ => rfl) h.parents⟩
    rw [(hw n hn).same (h.kinds n hn)]
    rfl

end NcdbHistory
