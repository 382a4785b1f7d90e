import Covsight.UcisXml.Theorems.Key
import Covsight.UcisXml.Util
import Mathlib.Data.List.Perm.Subperm

-- The table of strings and its arena with the numbers of 32 bits that they have, and with memory that may be refused.
-- An access outside of an array has no result, and nor has a search that comes round to where it began.

open Probing

-- An arena that was given its first byte.
structure StrArena32 extends StrArena where
  cap : Nat  := 16
  oom : Bool := false

def StrArena32.add (realloc : Nat → Bool) (arena : StrArena32) (t : List UInt8) : Option (Str × StrArena32) :=
  if t.length = 0 then
    some ({}, arena)
  else
    match Vec.reserve realloc arena.cap ((arena.buf.length + t.length % 2 ^ 32) % 2 ^ 32) with
    | none     => some ({}, { arena with oom := true })
    | some cap =>
      if cap < arena.buf.length + t.length then
        none
      else
        some (⟨arena.buf.length, t.length % 2 ^ 32⟩, { arena with buf := arena.buf ++ t, cap := cap })

namespace StrMap

-- The value of an empty slot. To store it empties the slot.
def kAbsent : Nat :=
  2 ^ 32 - 1

def stored (s : Slot) : Option Slot :=
  if s.value = kAbsent then none else some s

def mask (len : Nat) : Nat :=
  (len + (2 ^ 32 - 1)) % 2 ^ 32

-- The slot where the search from a slot on ends.
def walk (slots : List (Option Slot)) (hits : Slot → Bool) : (fuel i : Nat) → Option Nat
  | 0,        _ => none
  | fuel + 1, i => do
    match ← slots[i]? with
    | none   => some i
    | some s => if hits s then some i else walk slots hits fuel ((i + 1) % 2 ^ 32 &&& mask slots.length)

def walkFrom (slots : List (Option Slot)) (hits : Slot → Bool) (hash : UInt64) : Option Nat :=
  walk slots hits slots.length (home hash &&& mask slots.length)

def putBack (next : List (Option Slot)) : Option Slot → Option (List (Option Slot))
  | none   => some next
  | some s => do
    let j ← walkFrom next (fun _ => false) s.hash
    some (next.set j (some s))

-- Whether there was memory for it, and the table that is as large as it has to be then.
def grow32 (realloc : Nat → Bool) (m : StrMap) : Option (Bool × StrMap) :=
  if m.slots.length ≠ 0 ∧ m.count * 2 % 2 ^ 32 < m.slots.length then
    some (true, m)
  else
    let want := if m.slots.length ≠ 0 then m.slots.length * 2 % 2 ^ 32 else 64
    match Vec.reserve realloc 0 want with
    | none   => some (false, m)
    | some _ => do
      let slots ← m.slots.foldlM putBack (List.replicate want none)
      some (true, { m with slots := slots })

def getOrAdd32 (realloc : Nat → Bool) (m : StrMap) (arena : StrArena32) (t : List UInt8) (value : Nat) :
    Option (Nat × Bool × StrArena32 × StrMap) := do
  let (grown, m) ← m.grow32 realloc
  if ¬grown then
    some (kAbsent, false, arena, m)
  else
    let h := hashText t
    let i ← walkFrom m.slots (hits arena.toStrArena t) h
    match ← m.slots[i]? with
    | some s => some (s.value, false, arena, m)
    | none   =>
      let (key, arena') ← arena.add realloc t
      let m := { slots := m.slots.set i (stored ⟨h, key, value⟩), count := (m.count + 1) % 2 ^ 32 }
      some (value, true, arena', m)

def find (m : StrMap) (arena : StrArena32) (t : List UInt8) : Option Nat :=
  if m.slots.length = 0 then
    some kAbsent
  else do
    let i ← walkFrom m.slots (hits arena.toStrArena t) (hashText t)
    match ← m.slots[i]? with
    | some s => some s.value
    | none   => some kAbsent

end StrMap

namespace StrMap

variable {slots : List (Option Slot)} {hits : Slot → Bool} {hash : Nat} {k : Nat}

theorem mask_eq (hk : k ≤ 31) : mask (2 ^ k) = 2 ^ k - 1 := by
  have hp := Nat.two_pow_pos k
  have hl : 2 ^ k ≤ 2 ^ 31 := Nat.pow_le_pow_right (by decide) hk
  rw [mask]
  omega

-- A mask takes the remainder.
theorem and_mask (hk : k ≤ 31) (i : Nat) : i &&& mask (2 ^ k) = i % 2 ^ k := by
  rw [mask_eq hk, Nat.and_two_pow_sub_one_eq_mod]

theorem walk_eq (hl : slots.length = 2 ^ k) (hk : k ≤ 31) {d n fuel : Nat} (hn : n < fuel)
    (hs : ∀ j < n, ∃ e, nth slots hash (d + j) = some e ∧ hits e = false)
    (hstop : ∀ e, nth slots hash (d + n) = some e → hits e) :
    walk slots hits fuel ((hash + d) % slots.length) = some ((hash + (d + n)) % slots.length) := by
  have hpos : 0 < slots.length := hl ▸ Nat.two_pow_pos k
  induction n generalizing d fuel
  all_goals
    obtain ⟨fuel, rfl⟩ := Nat.exists_eq_add_one.mpr (Nat.zero_lt_of_lt hn)
    have hlt : (hash + d) % slots.length < slots.length := Nat.mod_lt _ hpos
    have hget : slots[(hash + d) % slots.length]? = some (nth slots hash d) := by
      rw [nth, List.getD_eq_getElem?_getD, List.getElem?_eq_getElem hlt, Option.getD_some]
    rw [walk, hget]
  case zero =>
    cases he : nth slots hash d
    case none   => rfl
    case some e => exact if_pos (hstop e he)
  case succ n hi =>
    obtain ⟨e, he, hm⟩ := hs 0 (Nat.succ_pos n)
    have he : nth slots hash d = some e := he
    have hd : d + (n + 1) = d + 1 + n := by omega
    have hnext : ((hash + d) % slots.length + 1) % 2 ^ 32 &&& mask slots.length = (hash + (d + 1)) % slots.length := by
      have hdvd : 2 ^ k ∣ 2 ^ 32 := pow_dvd_pow 2 (by omega)
      rw [hl, and_mask hk, Nat.mod_mod_of_dvd _ hdvd, Nat.mod_add_mod, Nat.add_assoc]
    simp only [he, bind, Option.bind_some, hm, Bool.false_eq_true, if_false, hnext, hd]
    refine hi (Nat.lt_of_succ_lt_succ hn) (fun j hj => ?_) (hd ▸ hstop)
    have hj := hs (j + 1) (Nat.succ_lt_succ hj)
    rwa [← Nat.add_assoc, Nat.add_right_comm] at hj

-- In a table with room the search is that of the table with numbers of any size.
theorem walkFrom_eq (hl : slots.length = 2 ^ k) (hk : k ≤ 31) (hr : (entries slots).length < slots.length)
    (hits : Slot → Bool) (hash : UInt64) :
    walkFrom slots hits hash = some (search slots hits (home hash)) := by
  have ⟨d, hs, hd, hbefore⟩ := search_spec hr hits (home hash)
  have ⟨d₀, hd₀, hn₀⟩ := exists_nth_none hr (home hash)
  have hlt : d < slots.length := by
    by_contra h
    have ⟨e, he, _⟩ := hbefore d₀ (by omega)
    cases hn₀.symm.trans he
  have hw := @walk_eq slots hits (home hash) k hl hk 0 d slots.length hlt (by simpa using hbefore) (by simpa using hd)
  rw [Nat.add_zero, Nat.zero_add] at hw
  rw [walkFrom, hl, and_mask hk, ← hl, hw, hs]

theorem search_lt (hr : (entries slots).length < slots.length) (hits : Slot → Bool) (hash : Nat) :
    search slots hits hash < slots.length := by
  have ⟨d, hs, _, _⟩ := search_spec hr hits hash
  rw [hs]
  exact Nat.mod_lt _ (Nat.zero_lt_of_lt hr)

theorem foldlM_putBack {next : List (Option Slot)} (hl : next.length = 2 ^ k) (hk : k ≤ 31)
    (hg : Good Slot.home next) (hr : (entries next).length + (entries slots).length < next.length) :
    slots.foldlM putBack next = some ((entries slots).foldl (insert Slot.home) next) := by
  induction slots generalizing next
  case nil => rfl
  case cons s slots hi =>
    cases s
    case none   => exact hi hl hg hr
    case some s =>
      have hc : entries (some s :: slots) = s :: entries slots := rfl
      rw [hc, List.length_cons] at hr
      have ⟨hg', hp⟩ := good_insert hg (by omega) s
      have hput : putBack next (some s) = some (insert Slot.home next s) := by
        rw [putBack, walkFrom_eq hl hk hg.room]
        rfl
      rw [List.foldlM_cons, hput, hc, List.foldl_cons]
      exact hi (length_insert.trans hl) hg' (by rw [hp.length_eq, length_insert, List.length_cons]; omega)

end StrMap

-- A number for each text, so that no two texts of bytes have one in common.
def textCode (t : List UInt8) : Nat :=
  Nat.ofDigits 257 (t.map fun b => b.toNat + 1)

theorem lt_of_mem_digits {t : List UInt8} : ∀ d ∈ t.map fun b => b.toNat + 1, d < 257 := by
  refine List.forall_mem_map.mpr fun b _ => ?_
  have hb := b.toNat_lt
  omega

theorem textCode_inj {s t : List UInt8} (h : textCode s = textCode t) : s = t := by
  have hd (t : List UInt8) : Nat.digits 257 (textCode t) = t.map fun b => b.toNat + 1 := by
    refine Nat.digits_ofDigits 257 (by decide) _ lt_of_mem_digits fun hne => ?_
    have hm := List.getLast_mem hne
    have ⟨b, _, hb⟩ := List.mem_map.mp hm
    rw [← hb]
    exact Nat.succ_ne_zero _
  have he : (s.map fun b => b.toNat + 1) = t.map fun b => b.toNat + 1 := by rw [← hd, ← hd, h]
  refine List.map_injective_iff.mpr (fun a b hab => ?_) he
  exact UInt8.toNat_inj.mp (Nat.succ.inj hab)

-- How many texts there are, for what they come to: of texts of at most three bytes there are not so many.
theorem four_mul_length_le {ts : List (List UInt8)} (h : ts.Nodup) :
    4 * ts.length ≤ 4 * 257 ^ 3 + (ts.map List.length).sum := by
  have hshort : (ts.filter fun t => t.length < 4).length ≤ 257 ^ 3 := by
    have hn : ((ts.filter fun t => t.length < 4).map textCode).Nodup :=
      (h.filter _).map fun _ _ => textCode_inj
    have hs : (ts.filter fun t => t.length < 4).map textCode ⊆ List.range (257 ^ 3) := by
      intro n hm
      have ⟨t, ht, he⟩ := List.mem_map.mp hm
      have hl := of_decide_eq_true (List.mem_filter.mp ht).right
      have hb := Nat.ofDigits_lt_base_pow_length (by decide) (@lt_of_mem_digits t)
      rw [List.length_map] at hb
      have hp : 257 ^ t.length ≤ 257 ^ 3 := Nat.pow_le_pow_right (by decide) (Nat.le_of_lt_succ hl)
      exact List.mem_range.mpr (he ▸ Nat.lt_of_lt_of_le hb hp)
    have hl := (List.subperm_of_subset hn hs).length_le
    rwa [List.length_map, List.length_range] at hl
  have hlong : 4 * ts.length ≤ 4 * (ts.filter fun t => t.length < 4).length + (ts.map List.length).sum := by
    clear h hshort
    induction ts
    case nil => exact Nat.le_refl _
    case cons t ts hi =>
      rw [List.length_cons, List.map_cons, List.sum_cons, List.filter_cons]
      split
      case isTrue  => rw [List.length_cons]; omega
      case isFalse hl =>
        have hl : ¬t.length < 4 := fun h => hl (decide_eq_true h)
        omega
  omega

theorem StrArena.length_add_eq (arena : StrArena) (t : List UInt8) :
    (arena.add t).snd.buf.length = arena.buf.length + t.length := by
  rw [add]
  split
  case isTrue h  => rw [h, List.length_nil, Nat.add_zero]
  case isFalse h => exact List.length_append

namespace StrArena32

structure Roomy (arena : StrArena32) : Prop where
  cap : Vec.Capacity arena.cap
  len : arena.buf.length ≤ arena.cap

theorem Roomy.le {arena : StrArena32} (h : arena.Roomy) : arena.buf.length ≤ 2 ^ 31 :=
  h.len.trans h.cap.le

-- Either memory was refused, or the text is where it is put in an arena without a bound.
theorem add_spec {arena : StrArena32} (h : arena.Roomy) {t : List UInt8} (ht : t.length < 2 ^ 31)
    (realloc : Nat → Bool) :
    ∃ key arena', arena.add realloc t = some (key, arena') ∧
      (arena'.oom = true ∨ key = (arena.toStrArena.add t).fst ∧ arena'.toStrArena = (arena.toStrArena.add t).snd ∧
        arena'.Roomy ∧ arena'.oom = arena.oom) := by
  have hle := h.le
  rw [add]
  split
  case isTrue hn =>
    cases List.eq_nil_of_length_eq_zero hn
    exact ⟨_, _, rfl, .inr ⟨rfl, rfl, h, rfl⟩⟩
  case isFalse hn =>
    have hne : t ≠ [] := fun hn' => hn (hn' ▸ rfl)
    have hw : (arena.buf.length + t.length % 2 ^ 32) % 2 ^ 32 = arena.buf.length + t.length := by omega
    rw [hw]
    split
    case h_1 => exact ⟨_, _, rfl, .inl rfl⟩
    case h_2 c hc =>
      have ⟨hl, hd⟩ := Vec.reserve_spec hc h.cap
      rw [if_neg (Nat.not_lt.mpr hl), Nat.mod_eq_of_lt (by omega)]
      refine ⟨_, _, rfl, .inr ⟨?_, ?_, ⟨hd, ?_⟩, rfl⟩⟩
      · rw [StrArena.add, if_neg hne]
      · rw [StrArena.add, if_neg hne]
      · rw [List.length_append]
        exact hl

end StrArena32

namespace StrMap

variable {m : StrMap} {arena : StrArena32} {pairs : List (List UInt8 × Nat)} {t : List UInt8} {value : Nat}
  {realloc : Nat → Bool}

-- A table in an arena, of which the sizes stay within 32 bits since each key takes its bytes of the arena.
structure Fits (m : StrMap) (arena : StrArena32) (pairs : List (List UInt8 × Nat)) : Prop where
  holds : m.Holds arena.toStrArena pairs
  roomy : arena.Roomy
  size  : m.slots.length = 0 ∨ ∃ k, k ≤ 31 ∧ m.slots.length = 2 ^ k
  spent : (pairs.map fun p => p.fst.length).sum ≤ arena.buf.length

namespace Fits

theorem empty : Fits {} {} [] where
  holds := .empty
  roomy := ⟨.inr (pow_dvd_pow 2 (by decide : 4 ≤ 31)), by decide⟩
  size  := .inl rfl
  spent := Nat.zero_le _

theorem count_lt (h : m.Fits arena pairs) : m.count < 2 ^ 30 := by
  have hc : m.count = pairs.length := by rw [h.holds.sized.count, ← h.holds.perm.length_eq, List.length_map]
  have hk := four_mul_length_le h.holds.keys
  have hs := h.spent
  have hr := h.roomy.le
  rw [List.length_map, List.map_map] at hk
  have he : (List.length ∘ Prod.fst : List UInt8 × Nat → Nat) = fun p => p.fst.length := rfl
  rw [he] at hk
  omega

-- More slots are asked for than there are entries.
theorem want_eq (h : m.Fits arena pairs) (hfull : ¬(m.slots.length ≠ 0 ∧ m.count * 2 < m.slots.length)) :
    ∃ k ≤ 31, (if m.slots.length ≠ 0 then m.slots.length * 2 else 64) = 2 ^ k ∧ (entries m.slots).length < 2 ^ k := by
  have hc := h.count_lt
  have hcount := h.holds.sized.count
  rcases h.size with hz | ⟨k, hk, hl⟩
  case inl =>
    have he : entries m.slots = [] := by rw [List.eq_nil_of_length_eq_zero hz]; rfl
    rw [if_neg (not_not.mpr hz), he]
    exact ⟨6, by decide, rfl, by decide⟩
  case inr =>
    have hpos : m.slots.length ≠ 0 := hl ▸ Nat.ne_of_gt (Nat.two_pow_pos k)
    have hle : 2 ^ k < 2 ^ 31 := by omega
    have hk : k < 31 := (Nat.pow_lt_pow_iff_right (by decide)).mp hle
    have hroom : (entries m.slots).length < m.slots.length := by
      rcases h.holds.sized.good with hn | ⟨_, hg⟩
      case inl => exact absurd (congrArg List.length hn) hpos
      case inr => exact hg.room
    rw [if_pos hpos, hl, ← Nat.pow_succ]
    refine ⟨k + 1, hk, rfl, ?_⟩
    rw [Nat.pow_succ]
    omega

-- The table that is large enough is the one with numbers of any size.
theorem grow32 (h : m.Fits arena pairs) (realloc : Nat → Bool) :
    m.grow32 realloc = some (false, m) ∨ m.grow32 realloc = some (true, m.grow) ∧
      ∃ k ≤ 31, m.grow.slots.length = 2 ^ k := by
  have hc := h.count_lt
  have hw : m.count * 2 % 2 ^ 32 = m.count * 2 := Nat.mod_eq_of_lt (by omega)
  rw [StrMap.grow32, StrMap.grow, hw]
  split
  case isTrue hfull => exact .inr ⟨rfl, h.size.resolve_left hfull.left⟩
  case isFalse hfull =>
    obtain ⟨k, hk, hwant, hroom⟩ := h.want_eq hfull
    have hlt : 2 ^ k ≤ 2 ^ 31 := Nat.pow_le_pow_right (by decide) hk
    have hmod : (if m.slots.length ≠ 0 then m.slots.length * 2 % 2 ^ 32 else 64) = 2 ^ k := by
      rw [← hwant]
      split at hwant
      case isTrue  => rw [if_pos ‹_›, if_pos ‹_›, Nat.mod_eq_of_lt (by omega)]
      case isFalse => rw [if_neg ‹_›, if_neg ‹_›]
    have hg : Good Slot.home (List.replicate (2 ^ k) none) := good_replicate (Nat.two_pow_pos k)
    have hput := @foldlM_putBack m.slots k _ List.length_replicate hk hg (by
      rw [entries_replicate, List.length_replicate, List.length_nil, Nat.zero_add]
      exact hroom)
    dsimp only
    rw [hmod, hwant]
    split
    case h_1 => exact .inl rfl
    case h_2 =>
      refine .inr ⟨?_, k, hk, (good_rehash hroom).right.left⟩
      rw [hput]
      rfl

end Fits

-- What happens to a text: the table or the arena is refused memory, or the table is the one with numbers of any size.
theorem getOrAdd32_spec (h : m.Fits arena pairs) (ht : t.length < 2 ^ 31) (hv : value < kAbsent)
    (realloc : Nat → Bool) :
    m.getOrAdd32 realloc arena t value = some (kAbsent, false, arena, m) ∨
    ∃ v inserted arena' m', m.getOrAdd32 realloc arena t value = some (v, inserted, arena', m') ∧
      (arena'.oom = true ∨ arena'.oom = arena.oom ∧ arena'.Roomy ∧
        m.getOrAdd arena.toStrArena t value = (v, inserted, arena'.toStrArena, m') ∧
        arena'.buf.length = arena.buf.length + (if inserted then t.length else 0) ∧
        ∃ k ≤ 31, m'.slots.length = 2 ^ k) := by
  obtain ⟨hg, _, _, _, hcount⟩ := grow_spec h.holds.sized
  rcases h.grow32 realloc with he | ⟨he, k, hk, hl⟩
  case inl =>
    rw [getOrAdd32, he]
    exact .inl rfl
  case inr =>
    refine .inr ?_
    have hwalk := walkFrom_eq hl hk hg.room (hits arena.toStrArena t) (hashText t)
    have hlt := search_lt hg.room (hits arena.toStrArena t) (home (hashText t))
    have hget : m.grow.slots[search m.grow.slots (hits arena.toStrArena t) (home (hashText t))]? =
        some (lookup m.grow.slots (hits arena.toStrArena t) (home (hashText t))) := by
      rw [lookup, List.getD_eq_getElem?_getD, List.getElem?_eq_getElem hlt, Option.getD_some]
    rw [getOrAdd32, he]
    simp only [bind, Option.bind_some, hwalk, hget, not_true_eq_false, if_false]
    cases hlook : lookup m.grow.slots (hits arena.toStrArena t) (home (hashText t))
    case some s =>
      refine ⟨_, _, _, _, rfl, .inr ⟨rfl, h.roomy, ?_, rfl, k, hk, hl⟩⟩
      simp only [getOrAdd, hlook]
    case none =>
      obtain ⟨key, arena', hadd, hr⟩ := StrArena32.add_spec h.roomy ht realloc
      rw [hadd]
      refine ⟨_, _, _, _, rfl, hr.imp_right ?_⟩
      rintro ⟨hkey, ha, hroomy, hoom⟩
      refine ⟨hoom, hroomy, ?_, ?_, k, hk, ?_⟩
      · have hc := h.count_lt
        have hst : stored ⟨hashText t, key, value⟩ = some ⟨hashText t, key, value⟩ := if_neg (Nat.ne_of_lt hv)
        have hmod : (m.grow.count + 1) % 2 ^ 32 = m.grow.count + 1 := Nat.mod_eq_of_lt (by omega)
        simp only [getOrAdd, hlook, hmod, ha, ← hkey, hst]
      · rw [ha, if_pos rfl, StrArena.length_add_eq]
      · exact List.length_set.trans hl

-- The table as a finite map from texts.

inductive Op
  | getOrAdd (t : List UInt8) (value : Nat)
  | find (t : List UInt8)
  | add (t : List UInt8)

def Op.Allowed : Op → Prop
  | getOrAdd t value => t.length < 2 ^ 31 ∧ value < kAbsent
  | find _           => True
  | add t            => t.length < 2 ^ 31

-- The answers are those of a finite map, up to where the arena was first refused memory. A table that was refused
-- memory says so and stays as it is. Other users put texts into the same arena.
def Agrees (realloc : Nat → Bool) : StrMap → StrArena32 → (List UInt8 → Option Nat) → (ops : List Op) → Prop
  | _, _,     _, []                        => True
  | m, arena, f, .getOrAdd t value :: ops => ∃ v inserted arena' m',
    m.getOrAdd32 realloc arena t value = some (v, inserted, arena', m') ∧
      (arena'.oom = true ∨
        (v, inserted) = (kAbsent, false) ∧ m' = m ∧ Agrees realloc m' arena' f ops ∨
        (∃ w, f t = some w ∧ (v, inserted) = (w, false) ∧ Agrees realloc m' arena' f ops) ∨
        f t = none ∧ (v, inserted) = (value, true) ∧ Agrees realloc m' arena' (Function.update f t (some value)) ops)
  | m, arena, f, .find t :: ops            =>
    m.find arena t = some ((f t).getD kAbsent) ∧ Agrees realloc m arena f ops
  | m, arena, f, .add t :: ops             => ∃ key arena', arena.add realloc t = some (key, arena') ∧
    (arena'.oom = true ∨ Agrees realloc m arena' f ops)

-- What a search finds is the value of the text.
theorem find_spec (h : m.Fits arena pairs) (t : List UInt8) :
    (∃ v, (t, v) ∈ pairs ∧ m.find arena t = some v) ∨ t ∉ pairs.map Prod.fst ∧ m.find arena t = some kAbsent := by
  rw [find]
  rcases h.size with hz | ⟨k, hk, hl⟩
  case inl =>
    rw [if_pos hz]
    have hp := h.holds.perm
    rw [List.eq_nil_of_length_eq_zero hz] at hp
    have hn : pairs = [] := hp.symm.eq_nil
    exact .inr ⟨hn ▸ nofun, rfl⟩
  case inr =>
    have hpos : m.slots.length ≠ 0 := hl ▸ Nat.ne_of_gt (Nat.two_pow_pos k)
    have hg : Good Slot.home m.slots := by
      rcases h.holds.sized.good with hn | ⟨_, hg⟩
      case inl => exact absurd (congrArg List.length hn) hpos
      case inr => exact hg
    have hhome : ∀ s, hits arena.toStrArena t s → s.home = home (hashText t) := by
      intro s hs
      rw [Slot.home, (of_decide_eq_true hs).left]
    have hlt := search_lt hg.room (hits arena.toStrArena t) (home (hashText t))
    have hget : m.slots[search m.slots (hits arena.toStrArena t) (home (hashText t))]? =
        some (lookup m.slots (hits arena.toStrArena t) (home (hashText t))) := by
      rw [lookup, List.getD_eq_getElem?_getD, List.getElem?_eq_getElem hlt, Option.getD_some]
    rw [if_neg hpos, walkFrom_eq hl hk hg.room]
    simp only [bind, Option.bind_some, hget]
    cases hlook : lookup m.slots (hits arena.toStrArena t) (home (hashText t))
    case some s =>
      obtain ⟨hs, hhit⟩ := lookup_some hg hlook
      exact .inl ⟨s.value, h.holds.mem_iff.mpr ⟨s, hs, (of_decide_eq_true hhit).right, rfl⟩, rfl⟩
    case none =>
      have hmiss := lookup_none hg hhome hlook
      refine .inr ⟨fun hm => ?_, rfl⟩
      obtain ⟨⟨t', v⟩, hv, ht⟩ := List.mem_map.mp hm
      obtain ⟨s, hs, htext, _⟩ := h.holds.mem_iff.mp hv
      have hs' := hmiss s hs
      rw [hits, h.holds.hash s hs, htext, ← ht] at hs'
      exact absurd hs' (by simp)

-- Texts that others put into the arena come behind those of the table.
theorem Holds.of_add {arena : StrArena} (h : m.Holds arena pairs) (t : List UInt8) :
    m.Holds (arena.add t).snd pairs := by
  have hold : ∀ s ∈ entries m.slots, (arena.add t).snd.get s.key = arena.get s.key :=
    fun s hs => StrArena.get_add_of_le (h.within s hs)
  refine ⟨h.sized, fun s hs => by rw [hold s hs, h.hash s hs], fun s hs => (h.within s hs).trans StrArena.length_add,
    h.keys, .trans (.of_eq (List.map_congr_left fun s hs => ?_)) h.perm⟩
  rw [hold s hs]

theorem agrees {f : List UInt8 → Option Nat} (h : m.Fits arena pairs) (hf : ∀ t v, f t = some v ↔ (t, v) ∈ pairs)
    {ops : List Op} (ho : ∀ op ∈ ops, op.Allowed) : Agrees realloc m arena f ops := by
  induction ops generalizing m arena f pairs
  case nil => trivial
  case cons op ops hi =>
    have ⟨hop, hops⟩ := List.forall_mem_cons.mp ho
    have hnone {t : List UInt8} (hn : t ∉ pairs.map Prod.fst) : f t = none := by
      refine Option.eq_none_iff_forall_ne_some.mpr fun v hv => hn ?_
      exact List.mem_map_of_mem ((hf t v).mp hv)
    cases op
    case getOrAdd t value =>
      rcases getOrAdd32_spec h hop.left hop.right realloc with he | ⟨v, inserted, arena', m', he, hr⟩
      case inl => exact ⟨_, _, _, _, he, .inr (.inl ⟨rfl, rfl, hi h hf hops⟩)⟩
      case inr =>
        refine ⟨_, _, _, _, he, hr.imp_right fun ⟨_, hroomy, hm, hlen, hsize⟩ => .inr ?_⟩
        rcases h.holds.getOrAdd t value with ⟨w, m₀, hp, heq, hh⟩ | ⟨hn, a₀, m₀, heq, hh⟩
        case inl =>
          have heq := hm.symm.trans heq
          simp only [Prod.mk.injEq] at heq
          obtain ⟨rfl, rfl, ha, rfl⟩ := heq
          have hs := h.spent
          rw [if_neg (by decide), Nat.add_zero] at hlen
          exact .inl ⟨v, (hf t v).mpr hp, rfl, hi ⟨ha ▸ hh, hroomy, .inr hsize, hlen ▸ hs⟩ hf hops⟩
        case inr =>
          have heq := hm.symm.trans heq
          simp only [Prod.mk.injEq] at heq
          obtain ⟨rfl, rfl, rfl, rfl⟩ := heq
          have hs := h.spent
          rw [if_pos (by trivial)] at hlen
          refine .inr ⟨hnone hn, rfl, hi ⟨hh, hroomy, .inr hsize, ?_⟩ (fun t' w => ?_) hops⟩
          · rw [List.map_cons, List.sum_cons]
            dsimp only
            omega
          · rw [Function.update_apply, List.mem_cons, Prod.mk.injEq, ← hf t' w]
            split
            case isTrue ht =>
              rw [ht, hnone hn, Option.some_inj, eq_comm (a := v)]
              simp
            case isFalse ht => simp [ht]
    case find t =>
      refine ⟨?_, hi h hf hops⟩
      rcases find_spec h t with ⟨v, hp, he⟩ | ⟨hn, he⟩
      case inl => rw [he, (hf t v).mpr hp, Option.getD_some]
      case inr => rw [he, hnone hn, Option.getD_none]
    case add t =>
      have ⟨key, arena', he, hr⟩ := StrArena32.add_spec h.roomy hop realloc
      refine ⟨key, arena', he, hr.imp_right fun ⟨_, ha, hroomy, _⟩ => hi ⟨?_, hroomy, h.size, ?_⟩ hf hops⟩
      · rw [ha]
        exact h.holds.of_add t
      · rw [ha]
        exact h.spent.trans StrArena.length_add

end StrMap

theorem StrMap.grow32_empty {realloc : Nat → Bool} (h : realloc 64) :
    StrMap.grow32 realloc {} = some (true, { slots := List.replicate 64 none }) := by
  have hr : Vec.reserve realloc 0 64 = some 64 := by simp [Vec.reserve, Vec.doubled, h]
  simp [StrMap.grow32, hr]

theorem StrMap.getOrAdd32_vacant {realloc : Nat → Bool} {m m' : StrMap} {arena arena' : StrArena32} {t : List UInt8}
    {i : Nat} {key : Str} (hg : m.grow32 realloc = some (true, m')) (ha : arena.add realloc t = some (key, arena'))
    (hi : walkFrom m'.slots (StrMap.hits arena.toStrArena t) (hashText t) = some i) (hn : m'.slots[i]? = some none)
    (value : Nat) :
    m.getOrAdd32 realloc arena t value = some (value, true, arena', {
      slots := m'.slots.set i (stored ⟨hashText t, key, value⟩)
      count := (m'.count + 1) % 2 ^ 32
    }) := by
  simp [getOrAdd32, hg, hi, hn, ha]
