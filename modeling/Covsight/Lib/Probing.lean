import Mathlib.Data.List.Perm.Basic
import Mathlib.Data.Nat.Find
import Mathlib.Tactic.Common
import Mathlib.Data.List.Basic

-- Open addressing: slots that are looked at one after the other, from the one a hash tells on and around
-- the end. The number of slots is a power of two where a mask is used instead of the remainder.

namespace Probing

variable {ε : Type*}

-- The slot where a search ends: the first one that is empty or hit.
def probe (slots : List (Option ε)) (hits : ε → Bool) : (fuel i : Nat) → Nat
  | 0,        i => i
  | fuel + 1, i =>
    match slots.getD i none with
    | none   => i
    | some e => if hits e then i else probe slots hits fuel ((i + 1) % slots.length)

def search (slots : List (Option ε)) (hits : ε → Bool) (hash : Nat) : Nat :=
  probe slots hits slots.length (hash % slots.length)

def lookup (slots : List (Option ε)) (hits : ε → Bool) (hash : Nat) : Option ε :=
  slots.getD (search slots hits hash) none

def entries (slots : List (Option ε)) : List ε :=
  slots.filterMap id

def insert (home : ε → Nat) (slots : List (Option ε)) (e : ε) : List (Option ε) :=
  slots.set (search slots (fun _ => false) (home e)) (some e)

-- The entries put into more slots, in the order of the old ones.
def rehash (home : ε → Nat) (slots : List (Option ε)) (size : Nat) : List (Option ε) :=
  (entries slots).foldl (insert home) (List.replicate size none)

-- What a search meets from a hash on.
def nth (slots : List (Option ε)) (hash d : Nat) : Option ε :=
  slots.getD ((hash + d) % slots.length) none

-- No entry is behind an empty slot.
def Reachable (home : ε → Nat) (slots : List (Option ε)) : Prop :=
  ∀ p e, slots[p]? = some (some e) →
    ∃ d, (home e + d) % slots.length = p ∧ ∀ d' < d, (nth slots (home e) d').isSome

structure Good (home : ε → Nat) (slots : List (Option ε)) : Prop where
  reachable : Reachable home slots
  room      : (entries slots).length < slots.length

variable {slots : List (Option ε)} {hits : ε → Bool} {home : ε → Nat} {hash : Nat} {e : ε}

theorem mem_entries : e ∈ entries slots ↔ ∃ p : Nat, slots[p]? = some (some e) := by
  rw [entries, List.mem_filterMap]
  simp [List.mem_iff_getElem?]

theorem exists_none (h : (entries slots).length < slots.length) : ∃ p < slots.length, slots.getD p none = none := by
  by_contra hn
  push Not at hn
  have hs : ∀ s ∈ slots, (id s).isSome := fun s hs =>
    have ⟨p, hp, he⟩ := List.mem_iff_getElem.mp hs
    by simpa [List.getD_eq_getElem?_getD, hp, he, Option.ne_none_iff_isSome] using hn p hp
  exact absurd (List.filterMap_length_eq_length.mpr hs) (Nat.ne_of_lt h)

-- A search ends.

theorem probe_eq {d n fuel : Nat} (hn : n < fuel)
    (hs : ∀ j < n, ∃ e, nth slots hash (d + j) = some e ∧ hits e = false)
    (hstop : ∀ e, nth slots hash (d + n) = some e → hits e) :
    probe slots hits fuel ((hash + d) % slots.length) = (hash + (d + n)) % slots.length := by
  induction n generalizing d fuel with
  | zero      =>
    obtain ⟨fuel, rfl⟩ := Nat.exists_eq_add_one.mpr hn
    rw [probe]
    cases he : slots.getD ((hash + d) % slots.length) none with
    | none   => rfl
    | some e => exact if_pos (hstop e he)
  | succ n hi =>
    obtain ⟨fuel, rfl⟩ := Nat.exists_eq_add_one.mpr <| Nat.lt_of_le_of_lt (Nat.zero_le _) hn
    have ⟨e, he, hm⟩ := hs 0 (Nat.succ_pos n)
    have he : slots.getD ((hash + d) % slots.length) none = some e := he
    have hd : d + (n + 1) = d + 1 + n := by omega
    rw [probe, he]
    simp only [hm, Bool.false_eq_true, if_false]
    rw [Nat.mod_add_mod, Nat.add_assoc hash, hd]
    refine hi (Nat.lt_of_succ_lt_succ hn) (fun j hj => ?_) (hd ▸ hstop)
    have hj := hs (j + 1) (Nat.succ_lt_succ hj)
    rwa [← Nat.add_assoc, Nat.add_right_comm] at hj

theorem exists_nth_none (h : (entries slots).length < slots.length) (hash : Nat) :
    ∃ d < slots.length, nth slots hash d = none := by
  have ⟨p, hp, hn⟩ := exists_none h
  have hm := Nat.mod_lt hash (Nat.lt_of_le_of_lt (Nat.zero_le _) h)
  refine ⟨(p + (slots.length - hash % slots.length)) % slots.length, Nat.mod_lt _ (Nat.zero_lt_of_lt hp), ?_⟩
  rw [nth, Nat.add_mod_mod, ← Nat.mod_add_mod, Nat.add_left_comm, Nat.add_sub_cancel' (Nat.le_of_lt hm), Nat.add_mod_right,
    Nat.mod_eq_of_lt hp, hn]

-- The search ends at the first slot that is empty or hit.
theorem search_spec (h : (entries slots).length < slots.length) (hits : ε → Bool) (hash : Nat) :
    ∃ d, search slots hits hash = (hash + d) % slots.length ∧
    (∀ e, nth slots hash d = some e → hits e) ∧
    ∀ d' < d, ∃ e, nth slots hash d' = some e ∧ hits e = false := by
  classical
  have hex : ∃ d, ∀ e, nth slots hash d = some e → hits e :=
    have ⟨d, _, hd⟩ := exists_nth_none h hash
    ⟨d, fun e he => absurd (hd.symm.trans he) nofun⟩
  have ⟨d₀, hd₀, hn₀⟩ := exists_nth_none h hash
  have hle : Nat.find hex ≤ d₀ := Nat.find_min' hex fun e he => absurd (hn₀.symm.trans he) nofun
  have hbefore : ∀ d' < Nat.find hex, ∃ e, nth slots hash d' = some e ∧ hits e = false := by
    intro d' hd'
    have hn := Nat.find_min hex hd'
    push Not at hn
    simpa using hn
  refine ⟨Nat.find hex, ?_, Nat.find_spec hex, hbefore⟩
  have hp := @probe_eq _ slots hits hash 0 (Nat.find hex) slots.length (by omega)
    (by simpa using hbefore) (by simpa using Nat.find_spec hex)
  simpa [search] using hp

theorem lookup_some (h : Good home slots) (hl : lookup slots hits hash = some e) : e ∈ entries slots ∧ hits e := by
  have ⟨d, hs, hd, _⟩ := search_spec h.room hits hash
  rw [lookup, hs] at hl
  refine ⟨mem_entries.mpr ⟨(hash + d) % slots.length, ?_⟩, hd e hl⟩
  rw [List.getD_eq_getElem?_getD] at hl
  cases hg : slots[(hash + d) % slots.length]? with
  | none   => simp [hg] at hl
  | some s =>
    rw [hg, Option.getD_some] at hl
    rw [hl]

-- What is not found is not there.
theorem lookup_none (h : Good home slots) (hh : ∀ e, hits e → home e = hash)
    (hl : lookup slots hits hash = none) : ∀ e ∈ entries slots, hits e = false := by
  intro e he
  by_contra hc
  have hc : hits e := by simpa using hc
  have ⟨p, hp⟩ := mem_entries.mp he
  have ⟨dₑ, hdₑ, hbefore⟩ := h.reachable p e hp
  have ⟨d, hs, hd, hpassed⟩ := search_spec h.room hits hash
  rw [hh e hc] at hdₑ hbefore
  have hnₑ : nth slots hash dₑ = some e := by rw [nth, hdₑ, List.getD_eq_getElem?_getD, hp, Option.getD_some]
  have hn : nth slots hash d = none := by rwa [lookup, hs] at hl
  rcases Nat.lt_trichotomy dₑ d with hlt | heq | hgt
  case inl =>
    have ⟨e', he', hm⟩ := hpassed dₑ hlt
    rw [hnₑ] at he'
    cases he'
    rw [hc] at hm
    exact absurd hm nofun
  case inr.inl =>
    rw [heq, hn] at hnₑ
    exact absurd hnₑ nofun
  case inr.inr =>
    have hf := hbefore d hgt
    rw [hn] at hf
    exact absurd hf nofun

-- Into the empty slot where the search ended

theorem entries_set {p : Nat} (hp : slots[p]? = some none) (e : ε) :
    (entries (slots.set p (some e))).Perm (e :: entries slots) := by
  have ⟨hlt, hn⟩ := List.getElem?_eq_some_iff.mp hp
  have hs : slots = slots.take p ++ none :: slots.drop (p + 1) := by
    rw [← hn, ← List.drop_eq_getElem_cons hlt, List.take_append_drop]
  have he : entries slots = entries (slots.take p) ++ entries (slots.drop (p + 1)) := by
    nth_rewrite 1 [hs]
    rw [entries, List.filterMap_append, List.filterMap_cons_none rfl, entries, entries]
  have hc : (some e :: slots.drop (p + 1)).filterMap id = e :: entries (slots.drop (p + 1)) := rfl
  rw [he, List.set_eq_take_append_cons_drop, if_pos hlt, entries, List.filterMap_append, hc]
  exact List.perm_middle

theorem nth_set_isSome {p d : Nat} (h : (nth slots hash d).isSome) :
    (nth (slots.set p (some e)) hash d).isSome := by
  rw [nth, List.getD_eq_getElem?_getD] at h ⊢
  rw [List.length_set, List.getElem?_set]
  split
  case isFalse => exact h
  case isTrue heq =>
    split
    case isTrue  => rfl
    case isFalse hn =>
      rw [← heq, List.getElem?_eq_none (Nat.le_of_not_lt hn)] at h
      exact absurd h nofun

theorem good_set (h : Good home slots) (hroom : (entries slots).length + 1 < slots.length)
    (hh : home e = hash) (hl : lookup slots hits hash = none) :
    Good home (slots.set (search slots hits hash) (some e)) ∧
    (entries (slots.set (search slots hits hash) (some e))).Perm (e :: entries slots) := by
  subst hh
  have ⟨d, hs, _, hbefore⟩ := search_spec h.room hits (home e)
  have hlt : (home e + d) % slots.length < slots.length := Nat.mod_lt _ (Nat.zero_lt_of_lt h.room)
  have hn : slots[(home e + d) % slots.length]? = some none := by
    rw [lookup, hs, List.getD_eq_getElem?_getD, List.getElem?_eq_getElem hlt, Option.getD_some] at hl
    rw [List.getElem?_eq_getElem hlt, hl]
  rw [hs]
  have hp := entries_set hn e
  refine ⟨⟨fun p e' he' => ?_, ?_⟩, hp⟩
  case refine_2 =>
    rw [hp.length_eq, List.length_set]
    exact hroom
  case refine_1 =>
    rw [List.getElem?_set] at he'
    rw [List.length_set]
    split at he'
    case isTrue heq =>
      cases he'
      refine ⟨d, heq, fun d' hd' => nth_set_isSome ?_⟩
      have ⟨_, hsome, _⟩ := hbefore d' hd'
      rw [hsome]
      rfl
    case isFalse =>
      have ⟨dₑ, hdₑ, hfilled⟩ := h.reachable p e' he'
      exact ⟨dₑ, hdₑ, fun d' hd' => nth_set_isSome (hfilled d' hd')⟩

theorem good_insert (h : Good home slots) (hroom : (entries slots).length + 1 < slots.length) (e : ε) :
    Good home (insert home slots e) ∧ (entries (insert home slots e)).Perm (e :: entries slots) := by
  refine good_set h hroom rfl ?_
  cases hl : lookup slots (fun _ => false) (home e) with
  | none   => rfl
  | some e => exact absurd (lookup_some h hl).right nofun

theorem entries_replicate (n : Nat) : entries (List.replicate n (none : Option ε)) = [] :=
  List.filterMap_eq_nil_iff.mpr fun _ h => List.eq_of_mem_replicate h

theorem good_replicate {n : Nat} (hn : 0 < n) : Good home (List.replicate n none) where
  reachable p e he := by
    rw [List.getElem?_replicate] at he
    split at he <;> simp at he
  room := by
    rw [entries_replicate, List.length_replicate]
    exact hn

theorem length_insert : (insert home slots e).length = slots.length :=
  List.length_set

theorem good_foldl_insert {es : List ε} (h : Good home slots)
    (hroom : (entries slots).length + es.length < slots.length) :
    Good home (es.foldl (insert home) slots) ∧ (es.foldl (insert home) slots).length = slots.length ∧
    (entries (es.foldl (insert home) slots)).Perm (es ++ entries slots) := by
  induction es generalizing slots with
  | nil          => exact ⟨h, rfl, .refl _⟩
  | cons e es hi =>
    rw [List.length_cons] at hroom
    have ⟨hg, hp⟩ := good_insert h (by omega) e
    have ⟨hg, hl, hp'⟩ := hi hg (by rw [hp.length_eq, length_insert, List.length_cons]; omega)
    refine ⟨hg, hl.trans length_insert, hp'.trans ?_⟩
    exact (hp.append_left es).trans List.perm_middle

theorem good_rehash {size : Nat} (h : (entries slots).length < size) :
    Good home (rehash home slots size) ∧ (rehash home slots size).length = size ∧
    (entries (rehash home slots size)).Perm (entries slots) := by
  have hg : Good home (List.replicate size none) := good_replicate (Nat.zero_lt_of_lt h)
  have hroom : (entries (List.replicate size (none : Option ε))).length + (entries slots).length <
      (List.replicate size (none : Option ε)).length := by
    rw [entries_replicate, List.length_replicate, List.length_nil, Nat.zero_add]
    exact h
  have ⟨hg, hl, hp⟩ := good_foldl_insert hg hroom
  rw [entries_replicate, List.append_nil] at hp
  exact ⟨hg, hl.trans List.length_replicate, hp⟩

end Probing

-- A hash table with chains. A new entry comes first in its chain.

namespace Chaining

variable {ε : Type*}

def put (home : ε → Nat) (buckets : List (List ε)) (e : ε) : List (List ε) :=
  buckets.modify (home e % buckets.length) (e :: ·)

def build (home : ε → Nat) (size : Nat) (es : List ε) : List (List ε) :=
  es.foldl (put home) (List.replicate size [])

def find (buckets : List (List ε)) (hits : ε → Bool) (hash : Nat) : Option ε :=
  (buckets.getD (hash % buckets.length) []).find? hits

-- The chains hold the entries of a list, each where its hash tells.
structure Holds (home : ε → Nat) (buckets : List (List ε)) (es : List ε) : Prop where
  size : 0 < buckets.length
  home : ∀ e ∈ es, e ∈ buckets.getD (home e % buckets.length) []
  only : ∀ b, ∀ e ∈ buckets.getD b [], e ∈ es

variable {buckets : List (List ε)} {hits : ε → Bool} {home : ε → Nat} {hash : Nat} {e : ε} {es : List ε}

theorem length_put : (put home buckets e).length = buckets.length :=
  List.length_modify ..

theorem getD_put (b : Nat) : (put home buckets e).getD b [] =
    if b = home e % buckets.length ∧ b < buckets.length then e :: buckets.getD b [] else buckets.getD b [] := by
  rw [put, List.getD_eq_getElem?_getD, List.getD_eq_getElem?_getD, List.getElem?_modify]
  by_cases hb : b < buckets.length
  case pos =>
    rw [List.getElem?_eq_getElem hb]
    by_cases he : home e % buckets.length = b
    case pos => simp [he, hb]
    case neg => simp [he, Ne.symm he]
  case neg => simp [hb]

theorem holds_put (h : Holds home buckets es) (e : ε) : Holds home (put home buckets e) (e :: es) where
  size := Nat.lt_of_lt_of_eq h.size length_put.symm
  home := by
    intro e' he'
    rw [length_put, getD_put]
    rcases List.mem_cons.mp he' with rfl | he'
    case inl =>
      rw [if_pos ⟨rfl, Nat.mod_lt _ h.size⟩]
      exact .head _
    case inr =>
      have hm := h.home e' he'
      split
      case isTrue  => exact .tail _ hm
      case isFalse => exact hm
  only := by
    intro b e' he'
    rw [getD_put] at he'
    split at he'
    case isTrue  =>
      rcases List.mem_cons.mp he' with rfl | he'
      case inl => exact .head _
      case inr => exact .tail _ <| h.only b e' he'
    case isFalse => exact .tail _ <| h.only b e' he'

theorem Holds.congr {es' : List ε} (h : Holds home buckets es) (he : ∀ e, e ∈ es' ↔ e ∈ es) :
    Holds home buckets es' where
  size       := h.size
  home e hm  := h.home e <| (he e).mp hm
  only b e hm := (he e).mpr <| h.only b e hm

theorem holds_replicate {size : Nat} (hs : 0 < size) : Holds home (List.replicate size []) [] where
  size := List.length_replicate ▸ hs
  home := nofun
  only b e he := by
    rw [List.getD_eq_getElem?_getD, List.getElem?_replicate] at he
    split at he <;> simp at he

theorem holds_foldl_put {es' : List ε} (h : Holds home buckets es) :
    Holds home (es'.foldl (put home) buckets) (es'.reverse ++ es) := by
  induction es' generalizing buckets es with
  | nil           => exact h
  | cons e es' hi =>
    rw [List.foldl_cons, List.reverse_cons, List.append_assoc]
    exact hi (holds_put h e)

theorem holds_build {size : Nat} (hs : 0 < size) (es : List ε) : Holds home (build home size es) es :=
  (holds_foldl_put (holds_replicate hs)).congr fun e => by simp

theorem find_some (h : Holds home buckets es) (hf : find buckets hits hash = some e) : e ∈ es ∧ hits e :=
  ⟨h.only _ e (List.mem_of_find?_eq_some hf), List.find?_some hf⟩

theorem find_none (h : Holds home buckets es) (hh : ∀ e, hits e → home e = hash)
    (hf : find buckets hits hash = none) : ∀ e ∈ es, hits e = false := by
  intro e he
  by_contra hc
  have hc : hits e := by simpa using hc
  have hm := h.home e he
  rw [hh e hc] at hm
  exact absurd hc <| List.find?_eq_none.mp hf e hm

end Chaining
