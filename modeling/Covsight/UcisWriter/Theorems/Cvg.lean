import Covsight.UcisWriter.Tables
import Mathlib.Data.List.Find
import Mathlib.Data.List.Forall2
import Mathlib.Data.List.Infix
import Mathlib.Data.List.TakeWhile

-- The table of bins of an instance against what was written in it.

open Probing

namespace UwCvptab

variable {t : UwCvptab} {cvp : UInt32} {index : UInt32} {name : List UInt8} {kept : List UwCvpslot}

-- The table knows the first slot of every hash.
structure Holds (t : UwCvptab) (kept : List UwCvpslot) : Prop where
  used  : t.used = (entries t.slots).length
  good  : t.slots = [] ∨ 64 ≤ t.slots.length ∧ Good UwCvpslot.home t.slots
  known : ∀ s, s ∈ entries t.slots ↔ kept.find? (·.hash = s.hash) = some s

theorem holds_empty : Holds {} [] where
  used  := rfl
  good  := .inl rfl
  known := by simp [entries]

theorem find_hash {h : UInt64} {s : UwCvpslot} (hf : kept.find? (·.hash = h) = some s) : s.hash = h := by
  simpa using List.find?_some hf

theorem lookup_eq (h : t.Holds kept) (hg : Good UwCvpslot.home t.slots) (hash : UInt64) :
    lookup t.slots (fun s => s.hash = hash) hash.toNat = kept.find? (·.hash = hash) := by
  cases hl : lookup t.slots (fun s => s.hash = hash) hash.toNat with
  | some s =>
    have ⟨hm, he⟩ := lookup_some hg hl
    have he : s.hash = hash := by simpa using he
    exact he ▸ ((h.known s).mp hm).symm
  | none =>
    have hn := lookup_none hg (fun e he => by rw [UwCvpslot.home, show e.hash = hash by simpa using he]) hl
    cases hf : kept.find? (·.hash = hash) with
    | none   => rfl
    | some s =>
      have hm := (h.known s).mpr (find_hash hf ▸ hf)
      exact absurd (hn s hm) (by simp [find_hash hf])

-- There is room for one more.
theorem grown (h : t.Holds kept) : ∃ t' : UwCvptab,
    (if t.used * 4 ≥ t.slots.length * 3 then t.grow else t) = t' ∧ t'.Holds kept ∧
    Good UwCvpslot.home t'.slots ∧ 64 ≤ t'.slots.length ∧ (entries t'.slots).length + 1 < t'.slots.length ∧
    t'.cvpCount = t.cvpCount ∧ t'.binCount = t.binCount := by
  have hused := h.used
  by_cases hfull : t.used * 4 ≥ t.slots.length * 3
  case neg =>
    refine ⟨t, if_neg hfull, h, ?_⟩
    rcases h.good with hs | ⟨hl, hg⟩
    case inl => simp [hs] at hfull
    case inr => exact ⟨hg, hl, by omega, rfl, rfl⟩
  case pos =>
    refine ⟨t.grow, if_pos hfull, ?_⟩
    obtain ⟨size, hsize, hl, hroom⟩ : ∃ size, (if t.slots.length ≠ 0 then t.slots.length * 2 else 64) = size ∧
        64 ≤ size ∧ (entries t.slots).length + 1 < size := by
      rcases h.good with hs | ⟨hl, hg⟩
      case inl => exact ⟨64, by simp [hs], Nat.le_refl _, by simp [hs, entries]⟩
      case inr =>
        have hroom := hg.room
        exact ⟨t.slots.length * 2, if_pos (by omega), by omega, by omega⟩
    obtain ⟨hg, hlen, hp⟩ := @good_rehash _ t.slots UwCvpslot.home size (by omega)
    have hs : t.grow.slots = rehash UwCvpslot.home t.slots size := by rw [grow, hsize]
    rw [hs, hlen, hp.length_eq]
    refine ⟨⟨?_, .inr ⟨?_, ?_⟩, fun s => ?_⟩, hg, hl, hroom, rfl, rfl⟩
    · rw [hs, hp.length_eq]; exact hused
    · rw [hs, hlen]; exact hl
    · rw [hs]; exact hg
    · rw [hs, hp.mem_iff]; exact h.known s

theorem put_spec (h : t.Holds kept) (cvp : UInt32) (name : List UInt8) (index : UInt32) :
    (t.put cvp name index).Holds (kept ++ [⟨uwCvpHash cvp name, index⟩]) ∧
    (t.put cvp name index).cvpCount = t.cvpCount ∧ (t.put cvp name index).binCount = t.binCount := by
  have ⟨t', ht, h, hg, hl, hroom, hc, hb⟩ := grown h
  rw [put]
  simp only [ht]
  have hlook := lookup_eq h hg (uwCvpHash cvp name)
  cases hf : kept.find? (·.hash = uwCvpHash cvp name) with
  | some s =>
    rw [hlook, hf]
    refine ⟨⟨h.used, h.good, fun s' => ?_⟩, hc, hb⟩
    rw [h.known, List.find?_append]
    cases hk : kept.find? (·.hash = s'.hash) with
    | some _ => rw [Option.some_or]
    | none   =>
      have hne : uwCvpHash cvp name ≠ s'.hash := by
        intro he
        rw [he, hk] at hf
        cases hf
      simp [hne]
  | none =>
    rw [hlook, hf]
    have ⟨hg', hp⟩ := @good_set _ t'.slots (fun s => s.hash = uwCvpHash cvp name) UwCvpslot.home
      (uwCvpHash cvp name).toNat ⟨uwCvpHash cvp name, index⟩ hg hroom rfl (hlook.trans hf)
    dsimp only
    refine ⟨⟨?_, .inr ⟨?_, hg'⟩, fun s => ?_⟩, hc, hb⟩
    case refine_1 => rw [hp.length_eq, List.length_cons, ← h.used]
    case refine_2 => rwa [List.length_set]
    case refine_3 =>
      rw [hp.mem_iff, List.mem_cons, h.known, List.find?_append]
      by_cases he : uwCvpHash cvp name = s.hash
      case pos =>
        rw [← he, hf, Option.none_or]
        simp only [List.find?_cons, decide_true, Option.some.injEq]
        exact ⟨fun hs => (hs.resolve_right nofun).symm, fun hs => .inl hs.symm⟩
      case neg =>
        have hs : s ≠ ⟨uwCvpHash cvp name, index⟩ := fun hs => he (hs ▸ rfl)
        rw [or_iff_right hs]
        cases kept.find? (·.hash = s.hash) <;> simp [he]

theorem get_eq (h : t.Holds kept) (cvp : UInt32) (name : List UInt8) : t.get cvp name =
    if name.length ≥ 128 then none else (kept.find? (·.hash = uwCvpHash cvp name)).map (·.index) := by
  rw [get]
  rcases h.good with hs | ⟨hl, hg⟩
  case inl =>
    rw [if_pos (by rw [hs, List.length_nil])]
    cases hf : kept.find? (·.hash = uwCvpHash cvp name) with
    | none   => simp
    | some s =>
      have hm := (h.known s).mpr (find_hash hf ▸ hf)
      rw [hs] at hm
      exact absurd hm (by simp [entries])
  case inr => rw [if_neg (by omega)]; simp only [lookup_eq h hg]

end UwCvptab

-- What is kept, told by coverpoints and bins.
inductive CvgKey
  | coverpoint (name : List UInt8)
  | bin (cvp : Nat) (name : List UInt8)
  deriving DecidableEq

def CvgKey.hash : CvgKey → UInt64
  | coverpoint name => uwCvpHash uwCvpNamespace name
  | bin cvp name    => uwCvpHash (.ofNat cvp) name

structure Coverpoint where
  name : List UInt8
  bins : List (List UInt8)
  deriving DecidableEq

-- The coverpoints that were written. The last one may still be open.
structure CvgWritten where
  closed  : List Coverpoint   := []
  current : Option Coverpoint := none

namespace CvgWritten

def coverpoints (w : CvgWritten) : List Coverpoint :=
  w.closed ++ w.current.toList

def next (w : CvgWritten) : UwCall → CvgWritten
  | .coverpoint name => ⟨w.coverpoints, some ⟨name, []⟩⟩
  | .cross _         => ⟨w.coverpoints, none⟩
  | .bin name        => ⟨w.closed, w.current.map fun c => { c with bins := c.bins ++ [name] }⟩
  | .elEnd           => ⟨w.coverpoints, none⟩

end CvgWritten

def written (calls : List UwCall) : List Coverpoint :=
  (calls.foldl CvgWritten.next {}).coverpoints

-- The keys from the k-th coverpoint on, each with its ordinal
def keysFrom : (k : Nat) → List Coverpoint → List (CvgKey × Nat)
  | _, []      => []
  | k, c :: cs => (.coverpoint c.name, k) :: c.bins.zipIdx.map (fun b => (.bin k b.fst, b.snd)) ++ keysFrom (k + 1) cs

def slotOf (key : CvgKey × Nat) : UwCvpslot :=
  ⟨key.fst.hash, .ofNat key.snd⟩

variable {cs : List Coverpoint} {c : Coverpoint} {k i : Nat} {name : List UInt8}

theorem keysFrom_append (cs' : List Coverpoint) : keysFrom k (cs ++ cs') = keysFrom k cs ++ keysFrom (k + cs.length) cs' := by
  induction cs generalizing k with
  | nil          => rfl
  | cons c cs hi =>
    rw [List.cons_append, keysFrom, hi, keysFrom, List.append_assoc, List.length_cons, Nat.add_right_comm, Nat.add_assoc]

theorem keysFrom_concat_bin : keysFrom k [{ c with bins := c.bins ++ [name] }] =
    keysFrom k [c] ++ [(.bin k name, c.bins.length)] := by
  simp [keysFrom, List.zipIdx_append]

theorem find_coverpoint (hm : name ∈ cs.map (·.name)) :
    (keysFrom k cs).find? (·.fst = .coverpoint name) = some (.coverpoint name, k + (cs.map (·.name)).idxOf name) := by
  induction cs generalizing k with
  | nil          => cases hm
  | cons c cs hi =>
    rw [keysFrom, List.cons_append, List.find?_cons, List.map_cons]
    by_cases hn : c.name = name
    case pos => simp [hn]
    case neg =>
      have hm : name ∈ cs.map (·.name) := (List.mem_cons.mp hm).resolve_left (Ne.symm hn)
      have hb : (c.bins.zipIdx.map fun b => (CvgKey.bin k b.fst, b.snd)).find? (·.fst = .coverpoint name) = none := by
        simp
      simp only [CvgKey.coverpoint.injEq, hn, decide_false]
      rw [List.find?_append, hb, Option.none_or, hi hm, List.idxOf_cons_ne _ hn]
      congr 2
      omega

theorem find_zipIdx {names : List (List UInt8)} {j : Nat} (hm : name ∈ names) :
    ((names.zipIdx j).map fun b => (CvgKey.bin k b.fst, b.snd)).find? (·.fst = .bin k name) =
      some (.bin k name, j + names.idxOf name) := by
  induction names generalizing j with
  | nil          => cases hm
  | cons b bs hi =>
    rw [List.zipIdx_cons, List.map_cons, List.find?_cons]
    by_cases hb : b = name
    case pos => simp [hb]
    case neg =>
      simp only [CvgKey.bin.injEq, true_and, hb, decide_false]
      rw [hi ((List.mem_cons.mp hm).resolve_left (Ne.symm hb)), List.idxOf_cons_ne _ hb]
      congr 2
      omega

theorem find_bin (hc : cs[i]? = some c) (hm : name ∈ c.bins) :
    (keysFrom k cs).find? (·.fst = .bin (k + i) name) = some (.bin (k + i) name, c.bins.idxOf name) := by
  induction cs generalizing k i with
  | nil           => simp at hc
  | cons c' cs hi =>
    rw [keysFrom, List.cons_append, List.find?_cons]
    simp only [reduceCtorEq, decide_false]
    rw [List.find?_append]
    cases i with
    | zero   =>
      cases hc
      rw [Nat.add_zero, find_zipIdx hm, Option.some_or, Nat.zero_add]
    | succ i =>
      have hb : (c'.bins.zipIdx.map fun b => (CvgKey.bin k b.fst, b.snd)).find? (·.fst = .bin (k + (i + 1)) name) =
          none := by simp
      rw [hb, Option.none_or, ← Nat.add_assoc, Nat.add_right_comm]
      exact hi hc

-- The keys of the coverpoints are told apart by their hashes.
def NoCollision (cs : List Coverpoint) : Prop :=
  ∀ a ∈ keysFrom 0 cs, ∀ b ∈ keysFrom 0 cs, a.fst.hash = b.fst.hash → a.fst = b.fst

theorem find_slot (h : NoCollision cs) {key : CvgKey} (hf : (keysFrom 0 cs).find? (·.fst = key) = some (key, i)) :
    ((keysFrom 0 cs).map slotOf).find? (·.hash = key.hash) = some ⟨key.hash, .ofNat i⟩ := by
  have hm := List.mem_of_find?_eq_some hf
  have hp : (keysFrom 0 cs).find? (fun p => (slotOf p).hash = key.hash) = some (key, i) := by
    rw [← hf]
    refine List.find?_congr fun p hp => ?_
    exact decide_eq_decide.mpr ⟨fun he => h p hp _ hm he, fun he => congrArg CvgKey.hash he⟩
  rw [List.find?_map]
  exact congrArg (Option.map slotOf) hp

namespace UwCgInstance

variable {db db' : UwCgInstance} {w : CvgWritten} {crossed : List (List UInt8)} {calls : List UwCall}

-- The instance keeps what was written.
structure Sim (db : UwCgInstance) (w : CvgWritten) : Prop where
  holds : db.cvpbins.Holds ((keysFrom 0 w.coverpoints).map slotOf)
  count : db.cvpbins.cvpCount = .ofNat w.coverpoints.length
  isOpen : db.top = .coverpoint ↔ w.current.isSome
  bins  : ∀ c, w.current = some c → db.cvpbins.binCount = .ofNat c.bins.length

theorem sim_empty : Sim {} {} where
  holds  := UwCvptab.holds_empty
  count  := rfl
  isOpen := by simp
  bins   := nofun

theorem Sim.coverpoint (h : Sim db w) (hc : db.uwOpenCoverpoint name = .ok db') :
    Sim db' (w.next (.coverpoint name)) := by
  rw [uwOpenCoverpoint] at hc
  split at hc
  case isTrue => cases hc
  case isFalse =>
    cases hc
    have ⟨hp, hcount, _⟩ := UwCvptab.put_spec h.holds uwCvpNamespace name db.cvpbins.cvpCount
    have hk : (keysFrom 0 (w.next (.coverpoint name)).coverpoints).map slotOf =
        (keysFrom 0 w.coverpoints).map slotOf ++ [⟨uwCvpHash uwCvpNamespace name, db.cvpbins.cvpCount⟩] := by
      rw [CvgWritten.next, CvgWritten.coverpoints, keysFrom_append, List.map_append, h.count, Nat.zero_add]
      rfl
    refine ⟨hk ▸ ⟨hp.used, hp.good, hp.known⟩, ?_, iff_of_true rfl rfl, ?_⟩
    case refine_1 =>
      have hl : (w.next (.coverpoint name)).coverpoints.length = w.coverpoints.length + 1 := List.length_append
      rw [hl, UInt32.ofNat_add, ← h.count]
      exact congrArg (· + 1) hcount
    case refine_2 =>
      intro c hc
      cases hc
      rfl

theorem Sim.bin (h : Sim db w) (ht : db.top = .coverpoint) :
    Sim (db.uwEmitCoverpointBin name) (w.next (.bin name)) := by
  have ⟨c, hc⟩ := Option.isSome_iff_exists.mp <| h.isOpen.mp ht
  have ⟨hp, hcount, hbins⟩ := UwCvptab.put_spec h.holds (db.cvpbins.cvpCount - 1) name db.cvpbins.binCount
  have hl : w.coverpoints.length = w.closed.length + 1 := by rw [CvgWritten.coverpoints, hc]; simp
  have hord : db.cvpbins.cvpCount - 1 = .ofNat w.closed.length := by
    rw [h.count, hl, UInt32.ofNat_add]
    exact UInt32.add_sub_cancel _ _
  have hk : (keysFrom 0 (w.next (.bin name)).coverpoints).map slotOf = (keysFrom 0 w.coverpoints).map slotOf ++
      [⟨uwCvpHash (db.cvpbins.cvpCount - 1) name, db.cvpbins.binCount⟩] := by
    rw [CvgWritten.next, CvgWritten.coverpoints, CvgWritten.coverpoints, hc, Option.map_some, Option.toList_some,
      Option.toList_some, keysFrom_append, keysFrom_append, keysFrom_concat_bin, hord, h.bins c hc, Nat.zero_add,
      ← List.append_assoc, List.map_append]
    rfl
  refine ⟨hk ▸ ⟨hp.used, hp.good, hp.known⟩, ?_, ?_, ?_⟩
  case refine_1 =>
    have hn : (w.next (.bin name)).coverpoints.length = w.coverpoints.length := by
      rw [hl, CvgWritten.next, CvgWritten.coverpoints, hc]
      simp
    rw [hn, ← h.count]
    exact hcount
  case refine_2 =>
    rw [CvgWritten.next, hc]
    exact iff_of_true ht rfl
  case refine_3 =>
    intro c' hc'
    rw [CvgWritten.next, hc] at hc'
    cases hc'
    rw [List.length_append, UInt32.ofNat_add, ← h.bins c hc]
    exact congrArg (· + 1) hbins

-- A coverpoint is closed and the table stays.
theorem Sim.close (h : Sim db w) (ht : db'.cvpbins = db.cvpbins) (hn : db'.top ≠ .coverpoint) :
    Sim db' ⟨w.coverpoints, none⟩ where
  holds  := by rw [ht, CvgWritten.coverpoints, Option.toList_none, List.append_nil]; exact h.holds
  count  := by rw [ht, CvgWritten.coverpoints, Option.toList_none, List.append_nil]; exact h.count
  isOpen := iff_of_false hn nofun
  bins   := nofun

-- Naming coverpoints changes nothing but the names.
theorem addCvps_ok (h : crossed.foldlM uwCrossAddCvp db = .ok db') : db'.cvpbins = db.cvpbins ∧ db'.top = db.top := by
  induction crossed generalizing db with
  | nil                => cases h; exact ⟨rfl, rfl⟩
  | cons name crossed hi =>
    rw [List.foldlM_cons] at h
    cases hs : db.uwCrossAddCvp name with
    | error _ => rw [hs] at h; cases h
    | ok db'' =>
      rw [hs] at h
      have ⟨ht, hto⟩ := hi h
      rw [uwCrossAddCvp] at hs
      split at hs
      case isTrue => cases hs; exact ⟨ht, hto⟩
      case isFalse =>
        split at hs
        case h_1 => cases hs
        case h_2 => cases hs; exact ⟨ht, hto⟩

theorem Sim.call (h : Sim db w) {call : UwCall} (hc : db.call call = .ok db') : Sim db' (w.next call) := by
  cases call with
  | coverpoint name => exact h.coverpoint hc
  | cross crossed   =>
    obtain ⟨ht, hto⟩ := addCvps_ok hc
    exact h.close ht (by simp [hto, uwOpenCross])
  | bin name =>
    rw [UwCgInstance.call, uwEmitCvgBin] at hc
    have hclosed (hn : db.top ≠ .coverpoint) : w.next (.bin name) = w := by
      have hw : w.current = none := by
        cases hw : w.current with
        | none   => rfl
        | some _ => exact absurd (h.isOpen.mpr (by rw [hw]; rfl)) hn
      rw [CvgWritten.next, hw, Option.map_none, ← hw]
    cases ht : db.top with
    | coverpoint    => rw [ht] at hc; cases hc; exact h.bin ht
    | cross         => rw [ht] at hc; cases hc; rw [hclosed (by simp [ht])]; exact h
    | coverinstance => rw [ht] at hc; cases hc
  | elEnd => cases hc; exact h.close rfl (by simp [uwElEnd])

theorem Sim.run (h : Sim db w) (hr : db.run calls = .ok db') : Sim db' (calls.foldl CvgWritten.next w) := by
  induction calls generalizing db w with
  | nil            => cases hr; exact h
  | cons call calls hi =>
    rw [UwCgInstance.run, List.foldlM_cons] at hr
    cases hc : db.call call with
    | error _ => rw [hc] at hr; cases hr
    | ok db'' =>
      rw [hc] at hr
      exact hi (h.call hc) hr

-- The ordinals that the names mean: those of the first coverpoint and of its first bin

def position (cs : List Coverpoint) (name : List UInt8) : Nat :=
  (cs.map (·.name)).idxOf name

def ordinal (cs : List Coverpoint) (name bin : List UInt8) : Nat :=
  (cs[position cs name]?.map fun c => c.bins.idxOf bin).getD 0

-- The components of a name, each without a comma and a bin of its coverpoint
def Components (cs : List Coverpoint) (crossed components : List (List UInt8)) : Prop :=
  List.Forall₂ (fun name bin => comma ∉ bin ∧ ∃ c, cs[position cs name]? = some c ∧ bin ∈ c.bins) crossed components

variable {cs : List Coverpoint} {components : List (List UInt8)} {name bin : List UInt8} {i fuel : Nat}

theorem get_position (h : Sim db w) (hd : NoCollision w.coverpoints) (hm : name ∈ w.coverpoints.map (·.name)) :
    db.cvpbins.get uwCvpNamespace name =
      if name.length ≥ 128 then none else some (.ofNat (position w.coverpoints name)) := by
  have hk : (keysFrom 0 w.coverpoints).find? (·.fst = .coverpoint name) =
      some (.coverpoint name, position w.coverpoints name) :=
    (@find_coverpoint _ 0 _ hm).trans <| by rw [Nat.zero_add, position]
  have hf := find_slot hd hk
  rw [UwCvptab.get_eq h.holds]
  exact if_congr Iff.rfl rfl <| congrArg (Option.map (·.index)) hf

theorem get_ordinal (h : Sim db w) (hd : NoCollision w.coverpoints) {c : Coverpoint}
    (hc : w.coverpoints[i]? = some c) (hm : bin ∈ c.bins) : db.cvpbins.get (.ofNat i) bin =
      if bin.length ≥ 128 then none else some (.ofNat (c.bins.idxOf bin)) := by
  have hk : (keysFrom 0 w.coverpoints).find? (·.fst = .bin i bin) = some (.bin i bin, c.bins.idxOf bin) :=
    Nat.zero_add i ▸ @find_bin _ _ 0 _ _ hc hm
  have hf := find_slot hd hk
  rw [UwCvptab.get_eq h.holds]
  exact if_congr Iff.rfl rfl <| congrArg (Option.map (·.index)) hf

theorem addCvp_eq (h : Sim db w) (hd : NoCollision w.coverpoints) (hm : name ∈ w.coverpoints.map (·.name))
    (hl : db.crossCvp.length < uwMaxCrossed) : db.uwCrossAddCvp name =
      if name.length ≥ 128 then .error .order
      else .ok { db with crossCvp := db.crossCvp ++ [.ofNat (position w.coverpoints name)] } := by
  rw [uwCrossAddCvp, if_neg (Nat.not_le.mpr hl), get_position h hd hm]
  by_cases hn : name.length ≥ 128
  case pos => rw [if_pos hn, if_pos hn]; rfl
  case neg => rw [if_neg hn, if_neg hn]; rfl

theorem addCvps_eq (h : Sim db w) (hd : NoCollision w.coverpoints)
    (hm : ∀ name ∈ crossed, name ∈ w.coverpoints.map (·.name)) (hl : db.crossCvp.length + crossed.length ≤ uwMaxCrossed) :
    crossed.foldlM uwCrossAddCvp db = if ∃ name ∈ crossed, name.length ≥ 128 then .error .order
      else .ok { db with crossCvp := db.crossCvp ++ crossed.map fun name => .ofNat (position w.coverpoints name) } := by
  induction crossed generalizing db with
  | nil                => simp; rfl
  | cons name crossed hi =>
    rw [List.length_cons] at hl
    rw [List.foldlM_cons, addCvp_eq h hd (hm name (.head _)) (by omega)]
    by_cases hn : name.length ≥ 128
    case pos => rw [if_pos hn, if_pos ⟨name, .head _, hn⟩]; rfl
    case neg =>
      rw [if_neg hn]
      have hs := @hi { db with crossCvp := db.crossCvp ++ [.ofNat (position w.coverpoints name)] }
        ⟨h.holds, h.count, h.isOpen, h.bins⟩ (fun _ hm' => hm _ (.tail _ hm'))
        (by simp only [List.length_append, List.length_singleton]; omega)
      refine hs.trans <| if_congr (by simp [hn]) rfl ?_
      rw [List.append_assoc]
      rfl

-- Bins of a cross leave the instance as it is.
theorem run_bins (ht : db.top = .cross) (before : List (List UInt8)) : db.run (before.map .bin) = .ok db := by
  induction before with
  | nil                 => rfl
  | cons name before hi =>
    rw [List.map_cons, UwCgInstance.run, List.foldlM_cons, UwCgInstance.call, uwEmitCvgBin, ht]
    exact hi

theorem split_last (h : comma ∉ bin) : bin.takeWhile (· ≠ comma) = bin ∧ bin.dropWhile (· ≠ comma) = [] := by
  have ha : ∀ b ∈ bin, decide (b ≠ comma) = true := fun b hb => decide_eq_true fun he => h (he ▸ hb)
  exact ⟨List.takeWhile_eq_self_iff.mpr ha, List.dropWhile_eq_nil_iff.mpr ha⟩

theorem split_comma (h : comma ∉ bin) (rest : List UInt8) :
    (bin ++ comma :: rest).takeWhile (· ≠ comma) = bin ∧
    (bin ++ comma :: rest).dropWhile (· ≠ comma) = comma :: rest := by
  have ha : ∀ b ∈ bin, decide (b ≠ comma) = true := fun b hb => decide_eq_true fun he => h (he ▸ hb)
  rw [List.takeWhile_append_of_pos ha, List.dropWhile_append_of_pos ha]
  exact ⟨by simp, by simp⟩

-- The index that is written for a bin
def indexOf (cs : List Coverpoint) (p : List UInt8 × List UInt8) : Int :=
  if p.snd.length ≥ 128 then -1 else Int.ofNat (ordinal cs p.fst p.snd % 2 ^ 32)

theorem crossIndex_eq (h : Sim db w) (hd : NoCollision w.coverpoints)
    (hi : db.crossCvp[i]? = some (.ofNat (position w.coverpoints name)))
    (hb : ∃ c, w.coverpoints[position w.coverpoints name]? = some c ∧ bin ∈ c.bins) :
    db.crossIndex i bin = indexOf w.coverpoints (name, bin) := by
  have ⟨c, hc, hm⟩ := hb
  have hl := (List.getElem?_eq_some_iff.mp hi).fst
  have ho : ordinal w.coverpoints name bin = c.bins.idxOf bin := by rw [ordinal, hc]; rfl
  rw [crossIndex, if_pos hl, List.getD_eq_getElem?_getD, hi, Option.getD_some, get_ordinal h hd hc hm, indexOf, ho]
  by_cases hn : bin.length ≥ 128
  case pos => rw [if_pos hn, if_pos hn]
  case neg => rw [if_neg hn, if_neg hn]; rfl

theorem indicesFrom_join (h : Sim db w) (hd : NoCollision w.coverpoints)
    (hc : Components w.coverpoints crossed components) (hne : crossed ≠ []) (hf : crossed.length ≤ fuel)
    (hi : ∀ j name, crossed[j]? = some name → db.crossCvp[i + j]? = some (.ofNat (position w.coverpoints name))) :
    db.indicesFrom fuel i (List.intercalate [comma] components) =
      (crossed.zip components).map (indexOf w.coverpoints) := by
  induction hc generalizing i fuel with
  | nil => exact absurd rfl hne
  | @cons name bin crossed components hb hc hr =>
    obtain ⟨fuel, rfl⟩ := Nat.exists_eq_add_one.mpr <| Nat.lt_of_lt_of_le (Nat.succ_pos _) hf
    have hx : db.crossIndex i bin = indexOf w.coverpoints (name, bin) := crossIndex_eq h hd (hi 0 name rfl) hb.right
    cases hc with
    | nil =>
      have ⟨ht, hdr⟩ := split_last hb.left
      rw [List.intercalate_singleton, indicesFrom, ht, hdr, hx]
      rfl
    | @cons name' bin' crossed components hb' hc =>
      have ⟨ht, hdr⟩ := split_comma hb.left (List.intercalate [comma] (bin' :: components))
      rw [List.intercalate_cons_cons, List.append_assoc, List.singleton_append, indicesFrom, ht, hdr, hx]
      refine congrArg (_ :: ·) <| hr nofun (Nat.le_of_succ_le_succ hf) fun j n hj => ?_
      rw [Nat.add_right_comm]
      exact hi (j + 1) n hj

-- A cross of at most sixteen coverpoints that are there
structure Crossed (calls : List UwCall) (crossed : List (List UInt8)) : Prop where
  ok       : ∃ db, run {} calls = .ok db
  most     : crossed.length ≤ uwMaxCrossed
  there    : ∀ name ∈ crossed, name ∈ (written calls).map (·.name)
  distinct : NoCollision (written calls)

-- The cross is taken, and a bin of it is written with the ordinals of its components, whichever bins
-- came before it.
structure CrossRight (calls : List UwCall) (crossed before components : List (List UInt8)) : Prop where
  accepted : ∃ db, run {} (calls ++ [.cross crossed]) = .ok db
  indexed  : Components (written calls) crossed components → ∃ db ixs db',
    run {} (calls ++ .cross crossed :: before.map .bin) = .ok db ∧
    db.uwEmitCvgBin (List.intercalate [comma] components) = .ok (ixs, db') ∧
    (crossed.zip components).map (fun p => Int.ofNat (ordinal (written calls) p.fst p.snd)) <+: ixs ∧
    (crossed ≠ [] → ixs.length = crossed.length)

theorem run_append (calls calls' : List UwCall) (h : db.run calls = .ok db') :
    db.run (calls ++ calls') = db'.run calls' := by
  rw [UwCgInstance.run, List.foldlM_append]
  exact (congrArg (· >>= _) h).trans rfl

theorem indexOf_eq_iff {p : List UInt8 × List UInt8} :
    indexOf cs p = Int.ofNat (ordinal cs p.fst p.snd) ↔ p.snd.length < 128 ∧ ordinal cs p.fst p.snd < 2 ^ 32 := by
  rw [indexOf]
  split
  case isTrue h  => exact iff_of_false nofun fun hc => absurd hc.left (Nat.not_lt.mpr h)
  case isFalse h => rw [and_iff_right (Nat.not_le.mp h), Int.ofNat.injEq, Nat.mod_eq_iff_lt (by decide)]

-- The bins of a cross have the right indices if and only if no name is too long for the buffer (and no
-- ordinal too large for its slot).
theorem crossRight_iff (h : Crossed calls crossed) (before components : List (List UInt8)) :
    CrossRight calls crossed before components ↔ (∀ name ∈ crossed, name.length < 128) ∧
    (Components (written calls) crossed components → ∀ p ∈ crossed.zip components,
      p.snd.length < 128 ∧ ordinal (written calls) p.fst p.snd < 2 ^ 32) := by
  have ⟨db, hdb⟩ := h.ok
  have hsim : Sim db.uwOpenCross ⟨written calls, none⟩ := (sim_empty.run hdb).close rfl nofun
  have hw : (⟨written calls, none⟩ : CvgWritten).coverpoints = written calls := List.append_nil _
  have hd : NoCollision (⟨written calls, none⟩ : CvgWritten).coverpoints := hw.symm ▸ h.distinct
  have hcross : db.uwCross crossed = _ := addCvps_eq hsim hd (hw.symm ▸ h.there) (by
    rw [uwOpenCross, List.length_nil, Nat.zero_add]; exact h.most)
  rw [hw] at hcross
  have hrun (calls' : List UwCall) : run {} (calls ++ .cross crossed :: calls') = db.uwCross crossed >>= (·.run calls') := by
    rw [run_append _ _ hdb, UwCgInstance.run, List.foldlM_cons]
    rfl
  by_cases hlong : ∃ name ∈ crossed, name.length ≥ 128
  case pos =>
    rw [if_pos hlong] at hcross
    refine iff_of_false (fun hr => ?_) fun hc => ?_
    case refine_1 =>
      have ⟨db', hdb'⟩ := hr.accepted
      rw [hrun, hcross] at hdb'
      cases hdb'
    case refine_2 =>
      have ⟨name, hm, hl⟩ := hlong
      exact absurd (hc.left name hm) (Nat.not_lt.mpr hl)
  case neg =>
    rw [if_neg hlong] at hcross
    have hshort : ∀ name ∈ crossed, name.length < 128 := by simpa using hlong
    rw [and_iff_right hshort]
    let db' : UwCgInstance := { db.uwOpenCross with
      crossCvp := crossed.map fun name => .ofNat (position (written calls) name) }
    have hcross : db.uwCross crossed = .ok db' := hcross
    have hsim' : Sim db' ⟨written calls, none⟩ := ⟨hsim.holds, hsim.count, hsim.isOpen, hsim.bins⟩
    have hrun' : run {} (calls ++ .cross crossed :: before.map .bin) = .ok db' := by
      rw [hrun, hcross]
      exact run_bins rfl before
    have hemit (name : List UInt8) : db'.uwEmitCvgBin name = .ok (db'.uwEmitCrossIndices name, db') := rfl
    have hix (hc : Components (written calls) crossed components) (hne : crossed ≠ []) :
        db'.uwEmitCrossIndices (List.intercalate [comma] components) =
          (crossed.zip components).map (indexOf (written calls)) := by
      have hi : ∀ j name, crossed[j]? = some name →
          db'.crossCvp[0 + j]? = some (.ofNat (position (⟨written calls, none⟩ : CvgWritten).coverpoints name)) := by
        intro j name hj
        rw [Nat.zero_add, List.getElem?_map, hj, hw]
        rfl
      have hj := indicesFrom_join hsim' hd (hw.symm ▸ hc) hne h.most hi
      rw [hw] at hj
      exact hj
    constructor
    case mp =>
      intro hr hc p hp
      have hne : crossed ≠ [] := by
        rintro rfl
        cases hp
      have ⟨_, ixs, _, hdb'', he, hpre, hlen⟩ := hr.indexed hc
      rw [hrun', Except.ok.injEq] at hdb''
      subst hdb''
      rw [hemit, hix hc hne, Except.ok.injEq, Prod.mk.injEq] at he
      rw [← he.left] at hpre
      have heq := hpre.eq_of_length (by simp)
      exact indexOf_eq_iff.mp (List.map_inj_left.mp heq p hp).symm
    case mpr =>
      intro hr
      refine ⟨⟨db', by rw [hrun, hcross]; rfl⟩, fun hc => ⟨db', _, db', hrun', hemit _, ?_, fun hne => ?_⟩⟩
      case refine_1 =>
        by_cases hne : crossed = []
        case pos => rw [hne, List.zip_nil_left]; exact List.nil_prefix
        case neg =>
          rw [hix hc hne]
          exact (List.map_congr_left fun p hp => (indexOf_eq_iff.mpr (hr hc p hp)).symm) ▸ List.prefix_rfl
      case refine_2 =>
        rw [hix hc hne, List.length_map, List.length_zip, ← hc.length_eq, Nat.min_self]

def letters (n : Nat) : List UInt8 :=
  List.replicate n 'a'.toUInt8

-- A name that fills the buffer but for its end is found.
theorem short_names_right : CrossRight [.coverpoint (letters 127), .bin (letters 127)] [letters 127] [] [letters 127] := by
  have hc : Crossed [.coverpoint (letters 127), .bin (letters 127)] [letters 127] :=
    ⟨⟨_, rfl⟩, by decide, by decide +kernel, by unfold NoCollision; decide +kernel⟩
  exact (crossRight_iff hc [] [letters 127]).mpr ⟨by decide +kernel, fun _ => by decide +kernel⟩

-- One byte more and the coverpoint was never written.
theorem long_name_rejected : Crossed [.coverpoint (letters 128)] [letters 128] ∧
    ¬CrossRight [.coverpoint (letters 128)] [letters 128] [] [] := by
  refine ⟨⟨⟨_, rfl⟩, by decide, by decide +kernel, by unfold NoCollision; decide +kernel⟩, fun h => ?_⟩
  have ⟨db, hdb⟩ := h.accepted
  have hr : (run {} ([.coverpoint (letters 128)] ++ [.cross [letters 128]])).isOk = false := by decide +kernel
  rw [hdb] at hr
  cases hr

end UwCgInstance
