import Mathlib.Data.List.Nodup
import Mathlib.Tactic.Common
import Covsight.Lib.Varint
import Mathlib.Data.Nat.Bitwise
import Mathlib.Data.List.Forall2

-- A list that is made of blocks, one after the other, each with a key of its own.

variable {α β κ : Type*}

-- The position at which a block starts.
def blockBase (xss : List (List α)) (n : Nat) : Nat :=
  ((xss.take n).map List.length).sum

section Positions

variable {xss : List (List α)}

theorem getElem?_flatten_blockBase {n j : Nat} {xs : List α} (hn : xss[n]? = some xs) (hj : j < xs.length) :
    xss.flatten[blockBase xss n + j]? = xs[j]? := by
  induction xss generalizing n
  case nil => cases hn
  case cons ys xss hi =>
    rw [List.flatten_cons]
    cases n
    case zero =>
      cases hn
      rw [blockBase, List.take_zero, List.map_nil, List.sum_nil, Nat.zero_add, List.getElem?_append_left hj]
    case succ n =>
      rw [blockBase, List.take_succ_cons, List.map_cons, List.sum_cons, Nat.add_assoc,
        List.getElem?_append_right (Nat.le_add_right ..), Nat.add_sub_cancel_left]
      exact hi hn

theorem exists_blockBase {i : Nat} (hi : i < xss.flatten.length) :
    ∃ n xs j, xss[n]? = some xs ∧ j < xs.length ∧ i = blockBase xss n + j := by
  induction xss generalizing i
  case nil => cases hi
  case cons ys xss ih =>
    by_cases hl : i < ys.length
    case pos => exact ⟨0, ys, i, rfl, hl, by simp [blockBase]⟩
    case neg =>
      rw [List.flatten_cons, List.length_append] at hi
      have ⟨n, xs, j, hn, hj, he⟩ := ih (i := i - ys.length) (by omega)
      refine ⟨n + 1, xs, j, hn, hj, ?_⟩
      rw [blockBase, List.take_succ_cons, List.map_cons, List.sum_cons, Nat.add_assoc]
      rw [blockBase] at he
      omega

-- Lists with blocks of the same lengths are equal block by block.
theorem flatten_inj {xss' : List (List α)} (hl : xss.map List.length = xss'.map List.length) :
    xss.flatten = xss'.flatten ↔ xss = xss' := by
  refine ⟨fun h => ?_, fun h => h ▸ rfl⟩
  induction xss generalizing xss'
  case nil =>
    cases xss'
    case nil  => rfl
    case cons => cases hl
  case cons xs xss hi =>
    cases xss'
    case nil => cases hl
    case cons xs' xss' =>
      simp only [List.map_cons, List.cons.injEq] at hl
      rw [List.flatten_cons, List.flatten_cons] at h
      have ⟨hx, hr⟩ := List.append_inj h hl.1
      rw [hx, hi hl.2 hr]

end Positions

-- The elements of each key, taken key by key, are the list.
theorem flatMap_filter_of_blocks [DecidableEq κ] {key : α → κ} {f : β → κ} {n : β → Nat} {bs : List β}
    (hn : (bs.map f).Nodup) {xs : List α}
    (h : xs.map key = bs.flatMap fun b => List.replicate (n b) (f b)) :
    bs.flatMap (fun b => xs.filter (key · = f b)) = xs := by
  induction bs generalizing xs
  case nil => exact (List.map_eq_nil_iff.mp h).symm
  case cons b bs hi =>
    have ⟨hb, hn⟩ := List.nodup_cons.mp hn
    rw [List.flatMap_cons] at h
    have ⟨ys, zs, hxs, hys, hzs⟩ := List.map_eq_append_iff.mp h
    have hy : ∀ y ∈ ys, key y = f b := fun y hy =>
      List.eq_of_mem_replicate (hys ▸ List.mem_map_of_mem hy)
    have hz : ∀ z ∈ zs, key z ∈ bs.map f := by
      intro z hz
      have hk : key z ∈ bs.flatMap fun b => List.replicate (n b) (f b) :=
        hzs ▸ List.mem_map_of_mem hz
      have ⟨b', hb', hk⟩ := List.mem_flatMap.mp hk
      exact List.mem_map.mpr ⟨b', hb', (List.eq_of_mem_replicate hk).symm⟩
    have hfirst : xs.filter (key · = f b) = ys := by
      have hyf : ys.filter (key · = f b) = ys :=
        List.filter_eq_self.mpr fun y hm => decide_eq_true (hy y hm)
      have hzf : zs.filter (key · = f b) = [] :=
        List.filter_eq_nil_iff.mpr fun z hm he => hb (of_decide_eq_true he ▸ hz z hm)
      rw [hxs, List.filter_append, hyf, hzf, List.append_nil]
    have hrest : ∀ b' ∈ bs, xs.filter (key · = f b') = zs.filter (key · = f b') := by
      intro b' hb'
      have hyf : ys.filter (key · = f b') = [] := by
        refine List.filter_eq_nil_iff.mpr fun y hm he => hb ?_
        exact (hy y hm).symm.trans (of_decide_eq_true he) ▸ List.mem_map_of_mem hb'
      rw [hxs, List.filter_append, hyf, List.nil_append]
    rw [List.flatMap_cons, hfirst, List.flatMap_congr hrest, hi hn hzs, hxs]

-- Lists of positions as the gaps between them, and as the bits of a row of bytes.

def gapsFrom (previous : Nat) : List Nat → List Nat
  | []                    => []
  | position :: positions => (position - previous) :: gapsFrom position positions

def positionsFrom (previous : Nat) : List Nat → List Nat
  | []          => []
  | gap :: gaps => (previous + gap) :: positionsFrom (previous + gap) gaps

theorem length_gapsFrom (previous : Nat) (positions : List Nat) :
    (gapsFrom previous positions).length = positions.length := by
  induction positions generalizing previous
  case nil                       => rfl
  case cons position positions hi => rw [gapsFrom, List.length_cons, List.length_cons, hi]

-- Positions that ascend are told by their gaps.
theorem positionsFrom_gapsFrom {previous : Nat} {positions : List Nat}
    (h : (previous :: positions).Pairwise (· ≤ ·)) :
    positionsFrom previous (gapsFrom previous positions) = positions := by
  induction positions generalizing previous
  case nil => rfl
  case cons position positions hi =>
    have ⟨hp, ha⟩ := List.pairwise_cons.mp h
    have hle : previous + (position - previous) = position :=
      Nat.add_sub_of_le (hp position (.head _))
    rw [gapsFrom, positionsFrom, hle, hi ha]

def encodePositions (positions : List Nat) : List UInt8 :=
  (gapsFrom 0 positions).flatMap encodeVarint

def decodePositions (count : Nat) (bytes : List UInt8) : Option (List Nat × List UInt8) :=
  (decodeMany decodeVarint count bytes).map fun (gaps, bytes) => (positionsFrom 0 gaps, bytes)

theorem decodePositions_encodePositions {positions : List Nat} (h : positions.Pairwise (· ≤ ·))
    (rest : List UInt8) :
    decodePositions positions.length (encodePositions positions ++ rest) = some (positions, rest) := by
  have hd := decodeMany_flatMap
    (fun gap (_ : gap ∈ gapsFrom 0 positions) => decodeVarint_encodeVarint gap) rest
  rw [length_gapsFrom] at hd
  have hp : (0 :: positions).Pairwise (· ≤ ·) := List.pairwise_cons.mpr ⟨fun _ _ => Nat.zero_le _, h⟩
  rw [decodePositions, encodePositions, hd, Option.map_some]
  simp only [positionsFrom_gapsFrom hp]

-- Eight positions a byte.

def setBit (bitmap : List UInt8) (position : Nat) : List UInt8 :=
  bitmap.modify (position / 8) (· ||| 1 <<< UInt8.ofNat (position % 8))

def hasBit (bitmap : List UInt8) (position : Nat) : Bool :=
  bitmap.getD (position / 8) 0 &&& 1 <<< UInt8.ofNat (position % 8) ≠ 0

theorem toNat_one_shiftLeft {k : Nat} (h : k < 8) : ((1 : UInt8) <<< UInt8.ofNat k).toNat = 2 ^ k := by
  have hd : ∀ k : Fin 8, ((1 : UInt8) <<< UInt8.ofNat k.val).toNat = 2 ^ k.val := by decide
  exact hd ⟨k, h⟩

theorem and_shiftLeft_ne_zero {b : UInt8} {k : Nat} (h : k < 8) :
    b &&& 1 <<< UInt8.ofNat k ≠ 0 ↔ b.toNat.testBit k := by
  rw [ne_eq, ← UInt8.toNat_inj, UInt8.toNat_and, toNat_one_shiftLeft h, Nat.and_two_pow]
  cases b.toNat.testBit k <;> simp

theorem hasBit_eq (bitmap : List UInt8) (position : Nat) :
    hasBit bitmap position = (bitmap.getD (position / 8) 0).toNat.testBit (position % 8) := by
  have h := and_shiftLeft_ne_zero (b := bitmap.getD (position / 8) 0) (Nat.mod_lt position (by decide))
  rw [hasBit, Bool.eq_iff_iff, decide_eq_true_iff]
  exact h

theorem hasBit_setBit {bitmap : List UInt8} {position : Nat} (h : position / 8 < bitmap.length)
    (i : Nat) : hasBit (setBit bitmap position) i = (decide (i = position) || hasBit bitmap i) := by
  rw [hasBit_eq, hasBit_eq, setBit, List.getD_eq_getElem?_getD, List.getD_eq_getElem?_getD,
    List.getElem?_modify]
  by_cases hb : position / 8 = i / 8
  case pos =>
    have hi : i = position ↔ position % 8 = i % 8 := by omega
    simp only [← hb, if_true, List.getElem?_eq_getElem h, Option.map_eq_map, Option.map_some,
      Option.getD_some, UInt8.toNat_or, Nat.testBit_or, hi,
      toNat_one_shiftLeft (Nat.mod_lt position (by decide)), Nat.testBit_two_pow]
    exact Bool.or_comm ..
  case neg =>
    have hi : i ≠ position := fun hi => hb (hi ▸ rfl)
    simp [hb, hi]

theorem length_setBit (bitmap : List UInt8) (position : Nat) :
    (setBit bitmap position).length = bitmap.length :=
  List.length_modify ..

theorem length_foldl_setBit (positions : List Nat) (bitmap : List UInt8) :
    (positions.foldl setBit bitmap).length = bitmap.length := by
  induction positions generalizing bitmap
  case nil                       => rfl
  case cons position positions hi => rw [List.foldl_cons, hi, length_setBit]

theorem hasBit_foldl_setBit {positions : List Nat} {bitmap : List UInt8}
    (h : ∀ position ∈ positions, position / 8 < bitmap.length) (i : Nat) :
    hasBit (positions.foldl setBit bitmap) i = (decide (i ∈ positions) || hasBit bitmap i) := by
  induction positions generalizing bitmap
  case nil => simp
  case cons position positions hi =>
    rw [List.forall_mem_cons] at h
    rw [List.foldl_cons, hi (by simpa only [length_setBit] using h.right), hasBit_setBit h.left]
    simp only [List.mem_cons, Bool.decide_or]
    rw [← Bool.or_assoc, Bool.or_comm (decide (i ∈ positions))]

theorem hasBit_replicate_zero (width i : Nat) : hasBit (List.replicate width 0) i = false := by
  have hz : (List.replicate width (0 : UInt8)).getD (i / 8) 0 = 0 := by
    rw [List.getD_eq_getElem?_getD, List.getElem?_replicate]
    split <;> rfl
  rw [hasBit_eq, hz]
  exact Nat.zero_testBit _

-- Reading a sequence of blocks of which an index passes over some. Each index entry belongs to one
-- block and reads it completely, if it reads it at all.

namespace Pruning

variable {ε β α : Type*} {keep : ε → Bool} {read : ε → List α} {block : β → List α}
variable {es : List ε} {bs : List β}

theorem length_le (keep : ε → Bool) (h : List.Forall₂ (fun e b => read e = block b) es bs) :
    ((es.filter keep).flatMap read).length ≤ (bs.flatMap block).length := by
  induction h
  case nil => exact Nat.le_refl _
  case cons e b es bs hr _ hi =>
    rw [List.filter_cons, List.flatMap_cons, List.length_append]
    split
    case isFalse => omega
    case isTrue =>
      rw [List.flatMap_cons, List.length_append, hr]
      omega

-- Only empty blocks may be passed over.
theorem eq_of_kept (h : List.Forall₂ (fun e b => read e = block b) es bs)
    (hk : List.Forall₂ (fun e b => keep e = false → block b = []) es bs) :
    (es.filter keep).flatMap read = bs.flatMap block := by
  induction h
  case nil => rfl
  case cons e b es bs hr _ hi =>
    have ⟨hb, hk⟩ := List.forall₂_cons.mp hk
    rw [List.filter_cons, List.flatMap_cons, ← hi hk]
    split
    case isTrue => rw [List.flatMap_cons, hr]
    case isFalse hn =>
      rw [hb (by simpa using hn), List.nil_append]

theorem kept_of_length_eq (h : List.Forall₂ (fun e b => read e = block b) es bs)
    (hl : ((es.filter keep).flatMap read).length = (bs.flatMap block).length) :
    List.Forall₂ (fun e b => keep e = false → block b = []) es bs := by
  induction h
  case nil => exact .nil
  case cons e b es bs hr ht hi =>
    have hle := length_le keep ht
    rw [List.filter_cons, List.flatMap_cons, List.length_append] at hl
    split at hl
    case isTrue hk =>
      rw [List.flatMap_cons, List.length_append, hr] at hl
      exact .cons (fun hn => absurd hk (by simp [hn])) <| hi (by omega)
    case isFalse =>
      refine .cons (fun _ => ?_) <| hi (by omega)
      exact List.length_eq_zero_iff.mp (by omega)

end Pruning
