import Covsight.Lib.Interning
import Covsight.UcisXml.Key
import Mathlib.Data.List.Nodup
import Mathlib.Data.Nat.Digits.Lemmas

-- The keys of the elements of one container.

open Xml Probing

namespace StrArena

variable {arena : StrArena} {t : List UInt8} {s : Str}

theorem get_add : (arena.add t).snd.get (arena.add t).fst = t := by
  rw [add]
  split
  case isTrue h  => simp [h, get]
  case isFalse h => simp [get]

theorem get_add_of_le (h : s.off + s.len ≤ arena.buf.length) : (arena.add t).snd.get s = arena.get s := by
  rw [add]
  split
  case isTrue  => rfl
  case isFalse =>
    rw [get, get, List.drop_append_of_le_length (Nat.le_of_add_right_le h), List.take_append_of_le_length]
    rw [List.length_drop]
    omega

theorem length_add : arena.buf.length ≤ (arena.add t).snd.buf.length := by
  rw [add]
  split <;> simp

theorem within_add : (arena.add t).fst.off + (arena.add t).fst.len ≤ (arena.add t).snd.buf.length := by
  rw [add]
  split <;> simp

end StrArena

namespace StrMap

variable {m : StrMap} {arena : StrArena} {t : List UInt8}

-- The table is empty, or large and not full.
structure Sized (m : StrMap) : Prop where
  count : m.count = (entries m.slots).length
  good  : m.slots = [] ∨ 64 ≤ m.slots.length ∧ Good Slot.home m.slots

theorem grow_spec (h : m.Sized) : Good Slot.home m.grow.slots ∧ 64 ≤ m.grow.slots.length ∧
    (entries m.grow.slots).length + 1 < m.grow.slots.length ∧
    (entries m.grow.slots).Perm (entries m.slots) ∧ m.grow.count = m.count := by
  have hc := h.count
  rw [grow]
  rcases h.good with hs | ⟨hl, hg⟩
  case inl =>
    have hlen : m.slots.length = 0 := by rw [hs, List.length_nil]
    have hroom : (entries m.slots).length < 64 := by rw [hs]; decide
    have ⟨hg, hl, hp⟩ := @good_rehash _ m.slots Slot.home _ hroom
    rw [if_neg fun h => h.left hlen]
    simp only [hlen, ne_eq, not_true_eq_false, if_false]
    have he : (entries m.slots).length = 0 := by rw [hs]; rfl
    exact ⟨hg, by rw [hl], by rw [hp.length_eq, hl, he]; decide, hp, trivial⟩
  case inr =>
    have hroom := hg.room
    by_cases hfull : m.count * 2 < m.slots.length
    case pos =>
      rw [if_pos ⟨by omega, hfull⟩]
      exact ⟨hg, hl, by omega, .refl _, rfl⟩
    case neg =>
      rw [if_neg fun h => hfull h.right]
      have hne : m.slots.length ≠ 0 := by omega
      simp only [hne, ne_eq, not_false_eq_true, if_true]
      have hroom' : (entries m.slots).length < m.slots.length * 2 := by omega
      have ⟨hg, hl', hp⟩ := @good_rehash _ m.slots Slot.home _ hroom'
      exact ⟨hg, by omega, by rw [hp.length_eq, hl']; omega, hp, trivial⟩

-- A table holds a value for each of some texts.
structure Holds (m : StrMap) (arena : StrArena) (pairs : List (List UInt8 × Nat)) : Prop where
  sized  : m.Sized
  hash   : ∀ s ∈ entries m.slots, s.hash = hashText (arena.get s.key)
  within : ∀ s ∈ entries m.slots, s.key.off + s.key.len ≤ arena.buf.length
  keys   : (pairs.map Prod.fst).Nodup
  perm   : ((entries m.slots).map fun s => (arena.get s.key, s.value)).Perm pairs

namespace Holds

variable {pairs : List (List UInt8 × Nat)} {value : Nat}

theorem empty : Holds {} {} [] where
  sized  := ⟨rfl, .inl rfl⟩
  hash   := nofun
  within := nofun
  keys   := .nil
  perm   := .nil

theorem mem_iff (h : m.Holds arena pairs) :
    (t, value) ∈ pairs ↔ ∃ s ∈ entries m.slots, arena.get s.key = t ∧ s.value = value := by
  rw [← h.perm.mem_iff, List.mem_map]
  simp only [Prod.mk.injEq]

-- A text that is there keeps its value, and another one is added with its own.
theorem getOrAdd (h : m.Holds arena pairs) (t : List UInt8) (value : Nat) :
    (∃ v m', (t, v) ∈ pairs ∧ m.getOrAdd arena t value = (v, false, arena, m') ∧ m'.Holds arena pairs) ∨
    (t ∉ pairs.map Prod.fst ∧ ∃ arena' m', m.getOrAdd arena t value = (value, true, arena', m') ∧
      m'.Holds arena' ((t, value) :: pairs)) := by
  have ⟨hg, hl, hroom, hp, hcount⟩ := grow_spec h.sized
  have hhome : ∀ s, hits arena t s → s.home = home (hashText t) := by
    intro s hs
    have hs := of_decide_eq_true hs
    rw [Slot.home, hs.left]
  cases hlook : lookup m.grow.slots (hits arena t) (home (hashText t)) with
  | some s =>
    have ⟨hs, hhit⟩ := lookup_some hg hlook
    have ⟨_, htext⟩ := of_decide_eq_true hhit
    refine .inl ⟨s.value, m.grow, h.mem_iff.mpr ⟨s, hp.mem_iff.mp hs, htext, rfl⟩, ?_, ?_⟩
    · simp only [StrMap.getOrAdd, hlook]
    · exact {
        sized  := ⟨by rw [hcount, h.sized.count, hp.length_eq], .inr ⟨hl, hg⟩⟩
        hash   := fun s hs => h.hash s (hp.mem_iff.mp hs)
        within := fun s hs => h.within s (hp.mem_iff.mp hs)
        keys   := h.keys
        perm   := (hp.map _).trans h.perm
      }
  | none   =>
    have hmiss := lookup_none hg hhome hlook
    have hnew : t ∉ pairs.map Prod.fst := by
      intro hm
      have ⟨⟨t', v⟩, hv, ht⟩ := List.mem_map.mp hm
      have ⟨s, hs, htext, _⟩ := h.mem_iff.mp hv
      have hs' := hmiss s (hp.mem_iff.mpr hs)
      rw [hits, h.hash s hs, htext, ← ht] at hs'
      exact absurd hs' (by simp)
    have ⟨hg', hp'⟩ := @good_set _ m.grow.slots (hits arena t) Slot.home (home (hashText t))
      ⟨hashText t, (arena.add t).fst, value⟩ hg hroom rfl hlook
    have hp'' := hp'.trans (hp.cons _)
    have hget := @StrArena.get_add arena t
    have hold : ∀ s ∈ entries m.slots, (arena.add t).snd.get s.key = arena.get s.key :=
      fun s hs => StrArena.get_add_of_le (h.within s hs)
    have ho : m.getOrAdd arena t value = (value, true, (arena.add t).snd, {
        slots := m.grow.slots.set (search m.grow.slots (hits arena t) (home (hashText t)))
          (some ⟨hashText t, (arena.add t).fst, value⟩)
        count := m.grow.count + 1 }) := by
      simp only [StrMap.getOrAdd, hlook]
    refine .inr ⟨hnew, _, _, ho, ?_, ?_, ?_, ?_, ?_⟩
    case refine_1 =>
      refine ⟨?_, .inr ⟨by rw [List.length_set]; exact hl, hg'⟩⟩
      simp only
      rw [hcount, h.sized.count, hp''.length_eq, List.length_cons]
    case refine_2 =>
      simp only [hp''.mem_iff, List.forall_mem_cons]
      exact ⟨by rw [hget], fun s hs => by rw [hold s hs, h.hash s hs]⟩
    case refine_3 =>
      simp only [hp''.mem_iff, List.forall_mem_cons]
      exact ⟨StrArena.within_add, fun s hs => (h.within s hs).trans StrArena.length_add⟩
    case refine_4 => exact List.nodup_cons.mpr ⟨hnew, h.keys⟩
    case refine_5 =>
      refine (hp''.map _).trans ?_
      rw [List.map_cons, hget]
      refine .cons _ <| .trans (.of_eq <| List.map_congr_left fun s hs => ?_) h.perm
      rw [hold s hs]

end Holds

end StrMap

namespace KeyGen

variable {k : KeyGen} {names : List (List UInt8)} {name : List UInt8} {st : Status}

-- What is known of the names that came so far.
structure Tracks (k : KeyGen) (names : List (List UInt8)) : Prop where
  sized  : k.counts.Sized
  hash   : ∀ s ∈ entries k.counts.slots, s.hash = hashText (k.arena.get s.key)
  within : ∀ s ∈ entries k.counts.slots, s.key.off + s.key.len ≤ k.arena.buf.length
  texts  : ((entries k.counts.slots).map (k.arena.get ·.key)).Nodup
  values : ((entries k.counts.slots).map (·.value)).Nodup
  bumps  : ∀ s ∈ entries k.counts.slots, k.bumps[s.value]? = some (names.count (k.arena.get s.key))
  mem    : ∀ t, t ∈ names ↔ ∃ s ∈ entries k.counts.slots, k.arena.get s.key = t

theorem tracks_empty : Tracks {} [] where
  sized  := ⟨rfl, .inl rfl⟩
  hash   := nofun
  within := nofun
  texts  := .nil
  values := .nil
  bumps  := nofun
  mem    := by simp [entries]

section Pairs

variable {m : StrMap} {arena : StrArena} {bumps : List Nat} {pairs : List (List UInt8 × Nat)}

-- The names that came, each with the place of its count.
theorem Tracks.holds (h : k.Tracks names) :
    k.counts.Holds k.arena ((entries k.counts.slots).map fun s => (k.arena.get s.key, s.value)) where
  sized  := h.sized
  hash   := h.hash
  within := h.within
  keys   := by simpa [Function.comp_def] using h.texts
  perm   := .refl _

theorem Tracks.of_holds (h : m.Holds arena pairs) (hv : (pairs.map Prod.snd).Nodup)
    (hb : ∀ p ∈ pairs, bumps[p.snd]? = some (names.count p.fst)) (hm : ∀ t, t ∈ names ↔ t ∈ pairs.map Prod.fst) :
    Tracks { arena, counts := m, bumps } names where
  sized  := h.sized
  hash   := h.hash
  within := h.within
  texts  := by simpa [Function.comp_def] using (h.perm.map Prod.fst).nodup_iff.mpr h.keys
  values := by simpa [Function.comp_def] using (h.perm.map Prod.snd).nodup_iff.mpr hv
  bumps  := fun s hs => hb _ <| h.mem_iff.mpr ⟨s, hs, rfl, rfl⟩
  mem    := by
    intro t
    rw [hm, List.mem_map]
    constructor
    case mp =>
      rintro ⟨⟨_, v⟩, hp, rfl⟩
      have ⟨s, hs, ht, _⟩ := h.mem_iff.mp hp
      exact ⟨s, hs, ht⟩
    case mpr =>
      rintro ⟨s, hs, ht⟩
      exact ⟨_, h.mem_iff.mpr ⟨s, hs, rfl, rfl⟩, ht⟩

end Pairs

theorem occurrence_spec (h : k.Tracks names) : (k.occurrence name st).fst = names.count name + 1 ∧
    (k.occurrence name st).snd.fst.Tracks (name :: names) := by
  have hh := h.holds
  have hv := h.values
  have hb : ∀ p ∈ (entries k.counts.slots).map fun s => (k.arena.get s.key, s.value),
      k.bumps[p.snd]? = some (names.count p.fst) := List.forall_mem_map.mpr h.bumps
  have hm : ∀ t, t ∈ names ↔ t ∈ ((entries k.counts.slots).map fun s => (k.arena.get s.key, s.value)).map Prod.fst := by
    intro t
    simp [h.mem t, eq_comm]
  rw [show (entries k.counts.slots).map (·.value)
    = ((entries k.counts.slots).map fun s => (k.arena.get s.key, s.value)).map Prod.snd by simp] at hv
  generalize (entries k.counts.slots).map (fun s => (k.arena.get s.key, s.value)) = pairs at hh hv hb hm
  cases hh.getOrAdd name k.bumps.length with
  | inl hold =>
    have ⟨v, m', hp, ho, hh'⟩ := hold
    have hcount := hb _ hp
    have hbd : k.bumps.getD v 0 = names.count name := by simp [List.getD_eq_getElem?_getD, hcount]
    simp only [occurrence, ho, hbd, Bool.false_eq_true, if_false, true_and]
    apply Tracks.of_holds hh' hv
    · intro p hp'
      by_cases he : p = (name, v)
      case pos =>
        have ⟨hlt, _⟩ := List.getElem?_eq_some_iff.mp hcount
        rw [he, List.getElem?_set_self hlt, List.count_cons_self]
      case neg =>
        have hne : v ≠ p.snd := fun hv' => he <| List.inj_on_of_nodup_map hv hp' hp hv'.symm
        have hnt : name ≠ p.fst := fun ht => he <| List.inj_on_of_nodup_map hh.keys hp' hp ht.symm
        rw [List.getElem?_set_ne hne, hb p hp', List.count_cons_of_ne hnt]
    · intro t
      rw [List.mem_cons, hm]
      exact or_iff_right_of_imp fun ht => ht ▸ List.mem_map_of_mem hp
  | inr hnew =>
    have ⟨hn, arena', m', ho, hh'⟩ := hnew
    have hname : names.count name = 0 := List.count_eq_zero.mpr fun hm' => hn <| (hm name).mp hm'
    have hlt : ∀ p ∈ pairs, p.snd < k.bumps.length := fun p hp => (List.getElem?_eq_some_iff.mp (hb p hp)).1
    simp only [occurrence, ho, if_true, hname, true_and]
    apply Tracks.of_holds hh'
    · refine List.nodup_cons.mpr ⟨fun hm' => ?_, hv⟩
      have ⟨p, hp, he⟩ := List.mem_map.mp hm'
      exact absurd (he ▸ hlt p hp) (Nat.lt_irrefl _)
    · simp only [List.forall_mem_cons]
      refine ⟨by rw [List.count_cons_self, hname, List.getElem?_concat_length], fun p hp => ?_⟩
      have hne : name ≠ p.fst := fun he => hn <| he ▸ List.mem_map_of_mem hp
      rw [List.getElem?_append_left (hlt p hp), hb p hp, List.count_cons_of_ne hne]
    · intro t
      rw [List.mem_cons, List.map_cons, List.mem_cons, hm]

-- The text of a key by the name and by how often it came.
def keyText (name : List UInt8) (n : Nat) : List UInt8 :=
  (writeEscaped name {}).out ++ if n > 1 then '#'.toUInt8 :: writeUInt n else []

theorem count_eq (name : List UInt8) (names : List (List UInt8)) :
    @List.count _ instBEqOfDecidableEq name names = names.count name := by
  congr 1
  exact lawful_beq_subsingleton ..

theorem writeKeys_eq (h : k.Tracks names) (st : Status) (more : List (List UInt8)) :
    k.writeKeys st more = (numbered id names more).map fun (name, n) => keyText name (n + 1) := by
  induction more generalizing k names st with
  | nil               => rfl
  | cons name more hi =>
    have ⟨hn, ht⟩ := @occurrence_spec k names name st h
    rw [writeKeys, numbered, List.map_cons]
    simp only [writeKey, hn]
    rw [hi ht, writeEscaped, out_escapeWith _ _ _ {}, id_eq, count_eq, keyText, writeEscaped]

-- Numbers after the hash sign

theorem append_cons_inj {α : Type} {x y u v : List α} {c : α} (hu : c ∉ u) (hv : c ∉ v)
    (h : x ++ c :: u = y ++ c :: v) : x = y ∧ u = v := by
  rcases List.append_eq_append_iff.mp h with ⟨z, rfl, hz⟩ | ⟨z, rfl, hz⟩
  all_goals
    cases z with
    | nil      => exact ⟨by simp, by simpa [eq_comm] using hz⟩
    | cons a z =>
      have hz := (List.cons.inj hz).right
      simp [hz] at hu hv

theorem mem_writeUInt {n : Nat} : ∀ b ∈ writeUInt n, b ≠ '#'.toUInt8 := by
  rw [writeUInt]
  split
  case isTrue  => exact List.forall_mem_singleton.mpr (by decide)
  case isFalse =>
    intro b hb
    have ⟨d, hd, he⟩ := List.mem_map.mp hb
    have hlt := Nat.digits_lt_base (by decide) (List.mem_reverse.mp hd)
    have h : ∀ d < 10, UInt8.ofNat (0x30 + d) ≠ '#'.toUInt8 := by decide
    exact he ▸ h d hlt

theorem writeUInt_inj {n m : Nat} (hn : n ≠ 0) (hm : m ≠ 0) (h : writeUInt n = writeUInt m) : n = m := by
  have hback (n : Nat) (hn : n ≠ 0) : (writeUInt n).reverse.map (·.toNat - 0x30) = Nat.digits 10 n := by
    rw [writeUInt, if_neg hn, ← List.map_reverse, List.reverse_reverse, List.map_map]
    refine (List.map_congr_left fun d hd => ?_).trans (List.map_id _)
    have hlt := Nat.digits_lt_base (by decide) hd
    have h : ∀ d < 10, (UInt8.ofNat (0x30 + d)).toNat - 0x30 = d := by decide
    exact h d hlt
  exact Nat.digits_inj_iff.mp <| (hback n hn).symm.trans <| h ▸ hback m hm

-- Text that was escaped tells names apart, also from another name with a number that is given to it.
def KeysApart (names : List (List UInt8)) : Prop :=
  ∀ x ∈ names, ∀ y ∈ names, x ≠ y → (writeEscaped x {}).out ≠ (writeEscaped y {}).out ∧
    ∀ n, 1 < n → n ≤ names.count y →
      (writeEscaped x {}).out ≠ (writeEscaped y {}).out ++ '#'.toUInt8 :: writeUInt n

structure KeysUnique (names : List (List UInt8)) : Prop where
  distinct : (writeKeys {} {} names).Nodup
  order    : ∀ names', names'.Perm names → (writeKeys {} {} names').Perm (writeKeys {} {} names)

theorem mem_numbered_nil {names : List (List UInt8)} {name : List UInt8} {n : Nat} :
    (name, n) ∈ numbered id [] names ↔ n < names.count name := by
  rw [mem_numbered, List.map_id, count_eq, count_eq, List.count_nil]
  omega

theorem keys_perm {names names' : List (List UInt8)} (h : names'.Perm names) :
    (writeKeys {} {} names').Perm (writeKeys {} {} names) := by
  rw [writeKeys_eq tracks_empty, writeKeys_eq tracks_empty]
  refine List.Perm.map _ ?_
  refine (List.perm_ext_iff_of_nodup (nodup_numbered ..) (nodup_numbered ..)).mpr fun (name, n) => ?_
  rw [mem_numbered_nil, mem_numbered_nil, h.count_eq]

theorem keyText_one (name : List UInt8) : keyText name 1 = (writeEscaped name {}).out := by
  simp [keyText]

theorem keyText_of_lt {n : Nat} (h : 1 < n) (name : List UInt8) :
    keyText name n = (writeEscaped name {}).out ++ '#'.toUInt8 :: writeUInt n := by
  rw [keyText, if_pos h]

theorem keyText_inj {x y : List UInt8} {n m : Nat} (hn : 1 < n) (hm : 1 < m)
    (h : keyText x n = keyText y m) : (writeEscaped x {}).out = (writeEscaped y {}).out ∧ n = m := by
  rw [keyText_of_lt hn, keyText_of_lt hm] at h
  have hmem (n : Nat) : '#'.toUInt8 ∉ writeUInt n := fun hb => mem_writeUInt _ hb rfl
  have ⟨ht, hu⟩ := append_cons_inj (hmem n) (hmem m) h
  exact ⟨ht, writeUInt_inj (by omega) (by omega) hu⟩

theorem keysUnique_iff (names : List (List UInt8)) : KeysUnique names ↔ KeysApart names := by
  have hinj : (writeKeys {} {} names).Nodup ↔ ∀ x n, n < names.count x → ∀ y m, m < names.count y →
      keyText x (n + 1) = keyText y (m + 1) → x = y ∧ n = m := by
    rw [writeKeys_eq tracks_empty, List.nodup_map_iff_inj_on (nodup_numbered ..)]
    simp only [Prod.forall, mem_numbered_nil, Prod.mk.injEq]
  constructor
  case mp =>
    intro h x hx y hy hne
    have hinj := hinj.mp h.distinct
    have hx := List.count_pos_iff.mpr hx
    refine ⟨fun he => hne ?_, fun n hn hle he => hne ?_⟩
    case refine_1 =>
      refine (hinj x 0 hx y 0 (List.count_pos_iff.mpr hy) ?_).left
      rw [keyText_one, keyText_one, he]
    case refine_2 =>
      refine (hinj x 0 hx y (n - 1) (by omega) ?_).left
      rw [keyText_one, Nat.sub_add_cancel (Nat.le_of_lt hn), keyText_of_lt hn, he]
  case mpr =>
    intro h
    refine ⟨hinj.mpr fun x n hn y m hm he => ?_, fun names' hp => keys_perm hp⟩
    have hx : x ∈ names := List.count_pos_iff.mp (Nat.zero_lt_of_lt hn)
    have hy : y ∈ names := List.count_pos_iff.mp (Nat.zero_lt_of_lt hm)
    have hself (n : Nat) (hn : 0 < n) : keyText x 1 ≠ keyText x (n + 1) := by
      rw [keyText_one, keyText_of_lt (Nat.succ_lt_succ hn)]
      simp
    by_cases hxy : x = y
    case pos =>
      subst hxy
      refine ⟨rfl, ?_⟩
      rcases Nat.eq_zero_or_pos n with rfl | hn₀ <;> rcases Nat.eq_zero_or_pos m with rfl | hm₀
      case inl.inl => rfl
      case inl.inr => exact absurd he (hself m hm₀)
      case inr.inl => exact absurd he.symm (hself n hn₀)
      case inr.inr => exact Nat.succ_inj.mp (keyText_inj (Nat.succ_lt_succ hn₀) (Nat.succ_lt_succ hm₀) he).right
    case neg =>
      have ⟨ht, hnum⟩ := h x hx y hy hxy
      have ⟨_, hnum'⟩ := h y hy x hx (Ne.symm hxy)
      rcases Nat.eq_zero_or_pos n with rfl | hn₀ <;> rcases Nat.eq_zero_or_pos m with rfl | hm₀
      case inl.inl => exact absurd (by rwa [keyText_one, keyText_one] at he) ht
      case inl.inr =>
        rw [keyText_one, keyText_of_lt (Nat.succ_lt_succ hm₀)] at he
        exact absurd he <| hnum _ (Nat.succ_lt_succ hm₀) hm
      case inr.inl =>
        rw [keyText_one, keyText_of_lt (Nat.succ_lt_succ hn₀)] at he
        exact absurd he.symm <| hnum' _ (Nat.succ_lt_succ hn₀) hn
      case inr.inr => exact absurd (keyText_inj (Nat.succ_lt_succ hn₀) (Nat.succ_lt_succ hm₀) he).left ht

-- A name that looks like the key of another one.
theorem second_key_twice : writeKeys {} {} [ascii ['a'], ascii ['a'], ascii ['a', '#', '2']] =
    [ascii ['a'], ascii ['a', '#', '2'], ascii ['a', '#', '2']] ∧
    ¬KeysUnique [ascii ['a'], ascii ['a'], ascii ['a', '#', '2']] := by
  have hk : writeKeys {} {} [ascii ['a'], ascii ['a'], ascii ['a', '#', '2']] =
      [ascii ['a'], ascii ['a', '#', '2'], ascii ['a', '#', '2']] := by decide +kernel
  refine ⟨hk, fun h => ?_⟩
  have hd := h.distinct
  rw [hk] at hd
  exact absurd hd (by decide)

end KeyGen
