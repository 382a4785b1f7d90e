import Covsight.Ncdb.MemberMerge
import Covsight.Lib.Rollup
import Covsight.Ncdb.Theorems.Annotations

theorem sortedKeys_perm {α : Type*} (d : Dict Nat α) : (sortedKeys d).Perm d.keys :=
  List.perm_insertionSort ..

theorem sortedKeys_nodup {α : Type*} (d : Dict Nat α) : (sortedKeys d).Nodup :=
  (sortedKeys_perm d).nodup_iff.mpr d.keys_nodup

-- Listing a dictionary by ascending keys changes no lookup.
theorem get?_sortedKeys {α : Type*} (d : Dict Nat α) (k : Nat) :
    (Dict.ofList <| (sortedKeys d).filterMap fun k => (d.get? k).map (k, ·)).get? k = d.get? k := by
  rw [Dict.get?_ofList_keys (sortedKeys_nodup d)]
  split
  case isTrue => rfl
  case isFalse h =>
    rw [eq_comm, Dict.get?_eq_none_iff, Dict.mem_def]
    rwa [(sortedKeys_perm d).mem_iff] at h

-- The flags of some values joined bit by bit.
def joinFlags (flags : List Nat) : Nat :=
  tally (· ||| ·) 0 flags

namespace joinFlags

@[simp]
theorem nil : joinFlags [] = 0 :=
  rfl

@[simp]
theorem cons (f : Nat) (flags : List Nat) : joinFlags (f :: flags) = f ||| joinFlags flags :=
  rfl

theorem foldl (f : Nat) (flags : List Nat) :
    flags.foldl (fun acc v => some (acc.getD 0 ||| v)) (some f) = some (f ||| joinFlags flags) := by
  induction flags generalizing f
  case nil             => simp
  case cons g flags hi => rw [List.foldl_cons, hi]; simp [Nat.or_assoc]

-- A value that holds all bits of others holds the bits of their join.
theorem absorbed_iff {flags : List Nat} {f : Nat} :
    joinFlags flags ||| f = f ↔ ∀ g ∈ flags, g ||| f = f := by
  induction flags
  case nil => simp
  case cons g flags hi =>
    rw [cons, List.forall_mem_cons, ← hi]
    constructor
    · intro h
      constructor
      · rw [← h]
        apply Nat.eq_of_testBit_eq
        intro i
        simp only [Nat.testBit_or]
        cases g.testBit i <;> simp
      · rw [← h]
        apply Nat.eq_of_testBit_eq
        intro i
        simp only [Nat.testBit_or]
        cases (joinFlags flags).testBit i <;> simp
    · intro h
      rw [Nat.or_assoc, h.2, h.1]

theorem idem {flags : List Nat} {f : Nat} (h : ∀ g ∈ flags, g = f) (hn : flags ≠ []) :
    joinFlags flags = f := by
  induction flags
  case nil => contradiction
  case cons g flags hi =>
    have hg : g = f := h g (.head _)
    rw [cons]
    cases flags
    case nil         => simp [hg]
    case cons _ flags => rw [hi (fun g' hg' => h g' (.tail _ hg')) (by simp), hg, Nat.or_self]

end joinFlags

-- The flags that members list for an item.
def listedFlags (payloads : List CoveritemFlags) (n : Nat) : List Nat :=
  payloads.filterMap (·.get? n)

theorem filter_flatMap_entries (payloads : List CoveritemFlags) (n : Nat) :
    ((payloads.flatMap (·.entries)).filter (·.fst = n)).map Prod.snd = listedFlags payloads n := by
  induction payloads
  case nil => rfl
  case cons p payloads hi =>
    rw [List.flatMap_cons, List.filter_append, List.map_append, hi, Dict.filter_entries,
      listedFlags, listedFlags, List.filterMap_cons]
    cases p.get? n <;> rfl

theorem foldl_flags_eq_upserts (payloads : List CoveritemFlags) (d : CoveritemFlags) :
    (payloads.foldl (fun merged flags => flags.entries.foldl (fun merged (index, f) =>
      merged.set index ((merged.get? index).getD 0 ||| f)) merged) d)
      = d.upserts (fun acc f => acc.getD 0 ||| f) (payloads.flatMap (·.entries)) :=
  (Dict.upserts_flatMap (fun (acc : Option Nat) f => acc.getD 0 ||| f) d payloads (·.entries)).symm

theorem get?_mergeCoveritemFlags (payloads : List CoveritemFlags) (n : Nat) :
    ((mergeCoveritemFlags payloads).getD ∅).get? n
      = if listedFlags payloads n = [] then none else some (joinFlags (listedFlags payloads n)) := by
  have hg := Dict.get?_upserts (fun acc f => acc.getD 0 ||| f) (∅ : CoveritemFlags)
    (payloads.flatMap (·.entries)) n
  rw [filter_flatMap_entries, Dict.get?_empty] at hg
  have hs : ((mergeCoveritemFlags payloads).getD ∅).get? n
      = ((∅ : CoveritemFlags).upserts (fun acc f => acc.getD 0 ||| f)
          (payloads.flatMap (·.entries))).get? n := by
    rw [mergeCoveritemFlags]
    simp only [foldl_flags_eq_upserts]
    split
    case isTrue he =>
      rw [Option.getD_none, Dict.get?_empty, eq_comm, Dict.get?_eq_none_iff, Dict.mem_def,
        Dict.keys, List.isEmpty_iff.mp he]
      exact List.not_mem_nil
    case isFalse => rw [Option.getD_some, get?_sortedKeys]
  rw [hs, hg]
  cases listedFlags payloads n
  case nil           => rfl
  case cons f flags => rw [List.foldl_cons, joinFlags.foldl, if_neg (by simp)]; simp

-- Keeping identical members as they are joins their flags as well.
theorem get?_mergeAnnotational_flags (payloads : List CoveritemFlags) (n : Nat) :
    ((mergeAnnotational mergeCoveritemFlags payloads).getD ∅).get? n
      = if listedFlags payloads n = [] then none else some (joinFlags (listedFlags payloads n)) := by
  cases payloads
  case nil => rfl
  case cons first rest =>
    rw [mergeAnnotational]
    split
    case isFalse => exact get?_mergeCoveritemFlags ..
    case isTrue h =>
      have he : ∀ p ∈ first :: rest, p = first := by
        intro p hp
        cases hp
        case head   => rfl
        case tail h' => simpa using List.all_eq_true.mp h p h'
      rw [Option.getD_some]
      cases hg : first.get? n
      case none =>
        have hl : listedFlags (first :: rest) n = [] :=
          List.filterMap_eq_nil_iff.mpr fun p hp => he p hp ▸ hg
        rw [hl, if_pos rfl]
      case some f =>
        have hl : listedFlags (first :: rest) n ≠ [] := by simp [listedFlags, hg]
        rw [if_neg hl, joinFlags.idem _ hl]
        intro g hm
        have ⟨p, hp, hpg⟩ := List.mem_filterMap.mp hm
        rw [he p hp, hg] at hpg
        exact (Option.some.inj hpg).symm

theorem get?_mergeInto (target incoming : Dict String String) (key : String) :
    (mergeInto target incoming).get? key = (target.get? key).or (incoming.get? key) := by
  obtain ⟨es, hn⟩ := incoming
  change (es.foldl (fun target (e : String × String) =>
    if e.fst ∈ target then target else target.set e.fst e.snd) target).get? key
      = (target.get? key).or (Dict.getIn key es)
  induction es generalizing target
  case nil => simp [Dict.getIn]
  case cons e es hi =>
    obtain ⟨hm, hn⟩ := List.nodup_cons.mp hn
    rw [List.foldl_cons, hi _ hn, Dict.getIn]
    by_cases he : e.fst = key
    case neg =>
      rw [if_neg he]
      split
      case isTrue  => rfl
      case isFalse => rw [Dict.get?_set_of_ne he]
    case pos =>
      rw [if_pos he]
      split
      case isTrue ht =>
        obtain ⟨a, ha⟩ := Dict.exists_get?_of_mem (he ▸ ht)
        simp [ha]
      case isFalse ht =>
        have ha : target.get? key = none := Dict.get?_eq_none_iff.mpr (he ▸ ht)
        simp [he, ha]

-- The first value that the history entries under an index give for a key, whatever the kind of
-- their node.
def firstListed (members : List Attrs) (j : Nat) (key : String) : Option String :=
  (members.flatMap (·.history)).findSome? fun e => if e.fst.snd = j then e.snd.get? key else none

theorem foldl_mergeInto (acc : Option (Dict String String)) (ds : List (Dict String String))
    (key : String) :
    (ds.foldl (fun acc d => some (mergeInto (acc.getD ∅) d)) acc).bind (·.get? key)
      = (acc.bind (·.get? key)).or (ds.findSome? (·.get? key)) := by
  induction ds generalizing acc
  case nil => simp
  case cons d ds hi =>
    rw [List.foldl_cons, hi, List.findSome?_cons]
    simp only [Option.bind_some, get?_mergeInto]
    cases acc <;> cases d.get? key <;> simp

theorem findSome?_filter {α β γ : Type*} (p : α → Bool) (f : α → β) (g : β → Option γ)
    (xs : List α) :
    ((xs.filter p).map f).findSome? g = xs.findSome? fun x => if p x then g (f x) else none := by
  induction xs
  case nil => rfl
  case cons x xs hi =>
    cases hp : p x
    case false => simp [hp, hi]
    case true  => simp [hp, hi, List.findSome?_cons]

-- The history part of a merge of different attribute members.
def mergedHistoryAttrs (members : List Attrs) : Dict Nat (Dict String String) :=
  members.foldl (fun d a => mergeEntries d (a.history.map fun e => (e.fst.snd, e.snd))) ∅

theorem get?_mergedHistoryAttrs (members : List Attrs) (j : Nat) (key : String) :
    ((mergedHistoryAttrs members).get? j).bind (·.get? key) = firstListed members j key := by
  have hu : mergedHistoryAttrs members
      = (∅ : Dict Nat (Dict String String)).upserts (fun acc d => mergeInto (acc.getD ∅) d)
        (members.flatMap fun a => a.history.map fun e => (e.fst.snd, e.snd)) :=
    (Dict.upserts_flatMap
      (fun (acc : Option (Dict String String)) d => mergeInto (acc.getD ∅) d) ∅ members _).symm
  rw [hu, Dict.get?_upserts, Dict.get?_empty, foldl_mergeInto, findSome?_filter, firstListed]
  simp only [Option.bind_none, Option.none_or, ← List.map_flatMap, List.findSome?_map]
  simp [Function.comp_def]

-- The history part of a merged member: no kinds, ascending indices.
theorem mergeAttrs_history {members : List Attrs} {a : Attrs} (h : mergeAttrs members = some a) :
    a.history = (((mergedHistoryAttrs members).entries.filter
      fun e => ¬e.snd.entries.isEmpty).insertionSort (·.fst ≤ ·.fst)).map fun e =>
        ((none, e.fst), e.snd) := by
  rw [mergeAttrs] at h
  simp only at h
  split at h <;> cases h
  rfl

theorem mergeAttrs_none {members : List Attrs} (h : mergeAttrs members = none) :
    (mergedHistoryAttrs members).entries = [] := by
  rw [mergeAttrs] at h
  simp only at h
  split at h
  case isTrue he  => exact List.isEmpty_iff.mp he.2.2.1
  case isFalse he => cases h

section Kindless

variable {a : Attrs} {es : List (Nat × Dict String String)}

-- Entries without a kind are about tests.

theorem ofNode_test (ha : a.history = es.map fun e => ((none, e.fst), e.snd))
    (hn : (es.map Prod.fst).Nodup) (j : Nat) (key : String) :
    (a.ofNode .test j).get? key = (Dict.getIn j es).bind (·.get? key) := by
  rw [Attrs.ofNode, ha, List.map_map, Attrs.get?_setAll]
  have hf : ((es.map ((fun e : (Option HistoryNodeKind × Nat) × Dict String String =>
        ((e.fst.fst.getD HistoryNodeKind.test, e.fst.snd), e.snd)) ∘ fun e => ((none, e.fst), e.snd))).filter
          (·.fst = (HistoryNodeKind.test, j))).map Prod.snd
      = (es.filter (·.fst = j)).map Prod.snd := by
    simp [List.filter_map, Function.comp_def]
  have he := Dict.filter_entries ⟨es, hn⟩ j
  rw [hf, he, Dict.get?_empty]
  change ((Dict.getIn j es).toList).foldl _ none = _
  cases Dict.getIn j es <;> simp

theorem ofNode_merge (ha : a.history = es.map fun e => ((none, e.fst), e.snd)) (j : Nat) :
    a.ofNode .merge j = ∅ := by
  rw [Attrs.ofNode, ha, List.map_map, Attrs.setAll]
  clear ha
  induction es
  case nil          => rfl
  case cons e es hi => rw [List.map_cons, List.foldl_cons, if_neg (by simp)]; exact hi

end Kindless

-- Dropping the empty dictionaries and sorting the others changes no attribute.
theorem getIn_sorted_nonempty (d : Dict Nat (Dict String String)) (j : Nat) (key : String) :
    (Dict.getIn j ((d.entries.filter fun e => ¬e.snd.entries.isEmpty).insertionSort
      (·.fst ≤ ·.fst))).bind (·.get? key) = (d.get? j).bind (·.get? key) := by
  have hp := List.perm_insertionSort (fun a b : Nat × Dict String String => a.fst ≤ b.fst)
    (d.entries.filter fun e => ¬e.snd.entries.isEmpty)
  have hn := (hp.map Prod.fst).nodup_iff.mpr <| d.nodup.sublist (List.filter_sublist.map _)
  ext v
  simp only [Option.bind_eq_some_iff, Dict.getIn_eq_some_iff hn, Dict.get?_eq_some_iff, hp.mem_iff,
    List.mem_filter]
  constructor
  · exact fun ⟨d', hd, hv⟩ => ⟨d', hd.1, hv⟩
  · intro ⟨d', hd, hv⟩
    refine ⟨d', ⟨hd, ?_⟩, hv⟩
    have hm := List.mem_map_of_mem (f := Prod.fst) hv
    cases he : d'.entries <;> simp [he] at hm ⊢

theorem sorted_nonempty_nodup (d : Dict Nat (Dict String String)) :
    (((d.entries.filter fun e => ¬e.snd.entries.isEmpty).insertionSort (·.fst ≤ ·.fst)).map
      Prod.fst).Nodup :=
  ((List.perm_insertionSort ..).map Prod.fst).nodup_iff.mpr <|
    d.nodup.sublist (List.filter_sublist.map _)

theorem attrsOfNode_mergeAttrs_test (members : List Attrs) (j : Nat) (key : String) :
    (attrsOfNode (mergeAttrs members) .test j).get? key = firstListed members j key := by
  rw [← get?_mergedHistoryAttrs]
  cases h : mergeAttrs members
  case none =>
    have hg : (mergedHistoryAttrs members).get? j = none := by
      rw [Dict.get?_eq_none_iff, Dict.mem_def, Dict.keys, mergeAttrs_none h]
      exact List.not_mem_nil
    rw [hg]
    rfl
  case some a =>
    exact (ofNode_test (mergeAttrs_history h) (sorted_nonempty_nodup _) j key).trans
      (getIn_sorted_nonempty ..)

-- A merged member never names a merge node.
theorem attrsOfNode_mergeAttrs_merge (members : List Attrs) (j : Nat) :
    attrsOfNode (mergeAttrs members) .merge j = ∅ := by
  cases h : mergeAttrs members
  case none   => rfl
  case some a => exact ofNode_merge (mergeAttrs_history h) j
