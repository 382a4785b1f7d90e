import Mathlib.Data.List.Nodup
import Mathlib.Data.List.Lookmap
import Mathlib.Tactic.Common

-- An insertion-ordered dictionary: keys are distinct, writing to a present key keeps the key's
-- place and writing to a new key appends it.
structure Dict (κ α : Type*) where
  entries : List (κ × α)
  nodup   : (entries.map Prod.fst).Nodup

namespace Dict

variable {κ α β : Type*}

@[ext]
theorem ext {d₁ d₂ : Dict κ α} (h : d₁.entries = d₂.entries) : d₁ = d₂ := by
  cases d₁; cases d₂; simp_all

instance [DecidableEq κ] [DecidableEq α] : DecidableEq (Dict κ α) :=
  fun d₁ d₂ => decidable_of_iff (d₁.entries = d₂.entries) ⟨ext, congrArg _⟩

def empty : Dict κ α where
  entries := []
  nodup   := List.nodup_nil

instance : EmptyCollection (Dict κ α) where
  emptyCollection := empty

instance : Inhabited (Dict κ α) where
  default := ∅

def keys (d : Dict κ α) : List κ :=
  d.entries.map Prod.fst

def values (d : Dict κ α) : List α :=
  d.entries.map Prod.snd

theorem keys_nodup (d : Dict κ α) : d.keys.Nodup :=
  d.nodup

instance : Membership κ (Dict κ α) where
  mem d k := k ∈ d.keys

theorem mem_def {d : Dict κ α} {k : κ} : k ∈ d ↔ k ∈ d.keys :=
  Iff.rfl

@[simp]
theorem not_mem_empty (k : κ) : k ∉ (∅ : Dict κ α) :=
  List.not_mem_nil

@[simp]
theorem keys_empty : (∅ : Dict κ α).keys = [] :=
  rfl

@[simp]
theorem entries_empty : (∅ : Dict κ α).entries = [] :=
  rfl

section Lookup

variable [DecidableEq κ]

instance (d : Dict κ α) (k : κ) : Decidable (k ∈ d) :=
  inferInstanceAs (Decidable (k ∈ d.keys))

def getIn (k : κ) : List (κ × α) → Option α
  | []            => none
  | (k', a) :: es => if k' = k then some a else getIn k es

def get? (d : Dict κ α) (k : κ) : Option α :=
  getIn k d.entries

@[simp]
theorem get?_empty (k : κ) : (∅ : Dict κ α).get? k = none :=
  rfl

theorem getIn_eq_some_mem {k : κ} {a : α} {es : List (κ × α)} (h : getIn k es = some a) :
    (k, a) ∈ es := by
  induction es <;> simp [getIn] at h
  case cons e es hi =>
    split at h
    case isTrue he => simp_all [Prod.ext_iff]
    case isFalse   => exact List.mem_cons_of_mem _ (hi h)

theorem getIn_eq_some_iff {k : κ} {a : α} {es : List (κ × α)} (hn : (es.map Prod.fst).Nodup) :
    getIn k es = some a ↔ (k, a) ∈ es := by
  refine ⟨getIn_eq_some_mem, fun h => ?_⟩
  induction es <;> simp [getIn] at h ⊢
  case cons e es hi =>
    simp only [List.map_cons, List.nodup_cons] at hn
    cases h
    case inl h => simp [← h]
    case inr h =>
      have hm : k ∈ es.map Prod.fst := List.mem_map.mpr ⟨_, h, rfl⟩
      have he : e.1 ≠ k := by intro he; exact hn.1 (he ▸ hm)
      rw [if_neg he, hi hn.2 h]

theorem getIn_eq_none_iff {k : κ} {es : List (κ × α)} :
    getIn k es = none ↔ k ∉ es.map Prod.fst := by
  induction es <;> simp [getIn]
  case cons e es hi =>
    split
    case isTrue h  => simp [h]
    case isFalse h => simp [hi, Ne.symm h]

theorem get?_eq_some_iff {d : Dict κ α} {k : κ} {a : α} :
    d.get? k = some a ↔ (k, a) ∈ d.entries :=
  getIn_eq_some_iff d.nodup

theorem get?_eq_none_iff {d : Dict κ α} {k : κ} : d.get? k = none ↔ k ∉ d :=
  getIn_eq_none_iff

theorem get?_isSome_iff {d : Dict κ α} {k : κ} : (d.get? k).isSome ↔ k ∈ d := by
  rw [Option.isSome_iff_ne_none, ne_eq, get?_eq_none_iff, not_not]

theorem isEmpty_iff {d : Dict κ α} : d.entries.isEmpty ↔ ∀ k, d.get? k = none := by
  constructor
  · intro h k
    rw [get?, List.isEmpty_iff.mp h]
    rfl
  · intro h
    match he : d.entries with
    | []           => rfl
    | (k, a) :: es => simpa [get?, he, getIn] using h k

theorem mem_of_get? {d : Dict κ α} {k : κ} {a : α} (h : d.get? k = some a) : k ∈ d :=
  get?_isSome_iff.mp (by simp [h])

theorem exists_get?_of_mem {d : Dict κ α} {k : κ} (h : k ∈ d) : ∃ a, d.get? k = some a :=
  Option.isSome_iff_exists.mp <| get?_isSome_iff.mpr h

end Lookup

section Set

variable [DecidableEq κ]

def setIn (k : κ) (a : α) : List (κ × α) → List (κ × α)
  | []             => [(k, a)]
  | (k', a') :: es => if k' = k then (k, a) :: es else (k', a') :: setIn k a es

theorem setIn_map_fst (k : κ) (a : α) (es : List (κ × α)) :
    (setIn k a es).map Prod.fst
      = if k ∈ es.map Prod.fst then es.map Prod.fst else es.map Prod.fst ++ [k] := by
  induction es <;> simp only [setIn]
  case nil => simp
  case cons e es hi =>
    by_cases he : e.1 = k
    case pos => simp [he]
    case neg =>
      simp only [he, if_false, List.map_cons, hi, List.mem_cons, Ne.symm he, false_or]
      split <;> simp

def set (d : Dict κ α) (k : κ) (a : α) : Dict κ α where
  entries := setIn k a d.entries
  nodup   := by
    rw [setIn_map_fst]
    split
    case isTrue    => exact d.nodup
    case isFalse h => simpa using d.nodup.concat h

theorem keys_set (d : Dict κ α) (k : κ) (a : α) :
    (d.set k a).keys = if k ∈ d then d.keys else d.keys ++ [k] :=
  setIn_map_fst k a d.entries

theorem keys_set_of_mem {d : Dict κ α} {k : κ} (h : k ∈ d) (a : α) : (d.set k a).keys = d.keys := by
  rw [keys_set, if_pos h]

theorem keys_set_of_not_mem {d : Dict κ α} {k : κ} (h : k ∉ d) (a : α) :
    (d.set k a).keys = d.keys ++ [k] := by
  rw [keys_set, if_neg h]

theorem entries_set_of_not_mem {d : Dict κ α} {k : κ} (h : k ∉ d) (a : α) :
    (d.set k a).entries = d.entries ++ [(k, a)] := by
  have hs : ∀ {es : List (κ × α)}, k ∉ es.map Prod.fst → setIn k a es = es ++ [(k, a)] := by
    intro es he
    induction es
    case nil => rfl
    case cons e es hi =>
      simp only [List.map_cons, List.mem_cons, not_or] at he
      rw [setIn, if_neg (Ne.symm he.1), hi he.2, List.cons_append]
  exact hs h

@[simp]
theorem mem_set_iff {d : Dict κ α} {k k' : κ} {a : α} : k' ∈ d.set k a ↔ k' ∈ d ∨ k' = k := by
  rw [mem_def, keys_set]
  split
  case isTrue h =>
    refine ⟨.inl, fun hk => ?_⟩
    cases hk
    case inl hk => exact hk
    case inr hk => exact hk ▸ h
  case isFalse => simp [mem_def]

theorem getIn_setIn (k k' : κ) (a : α) (es : List (κ × α)) :
    getIn k' (setIn k a es) = if k = k' then some a else getIn k' es := by
  induction es <;> simp only [setIn]
  case nil => simp [getIn]
  case cons e es hi =>
    by_cases he : e.1 = k
    case pos =>
      by_cases hk : k = k' <;> simp [getIn, he, hk]
    case neg =>
      simp only [he, if_false, getIn, hi]
      split
      case isTrue hk  => rw [if_neg (by intro h; exact he (hk.trans h.symm))]
      case isFalse hk => rfl

theorem get?_set (d : Dict κ α) (k k' : κ) (a : α) :
    (d.set k a).get? k' = if k = k' then some a else d.get? k' :=
  getIn_setIn k k' a d.entries

@[simp]
theorem get?_set_self (d : Dict κ α) (k : κ) (a : α) : (d.set k a).get? k = some a := by
  simp [get?_set]

theorem get?_set_of_ne {k k' : κ} (h : k ≠ k') (d : Dict κ α) (a : α) :
    (d.set k a).get? k' = d.get? k' := by
  simp [get?_set, h]

-- Writing the entries of a list one after the other, as `dict.update` does.
def setAll (d : Dict κ α) : List (κ × α) → Dict κ α
  | []           => d
  | (k, a) :: es => (d.set k a).setAll es

def update (d : Dict κ α) (d' : Dict κ α) : Dict κ α :=
  d.setAll d'.entries

def ofList (es : List (κ × α)) : Dict κ α :=
  empty.setAll es

@[simp]
theorem setAll_nil (d : Dict κ α) : d.setAll [] = d :=
  rfl

@[simp]
theorem setAll_cons (d : Dict κ α) (k : κ) (a : α) (es : List (κ × α)) :
    d.setAll ((k, a) :: es) = (d.set k a).setAll es :=
  rfl

theorem setAll_append (d : Dict κ α) (es es' : List (κ × α)) :
    d.setAll (es ++ es') = (d.setAll es).setAll es' := by
  induction es generalizing d
  case nil          => rfl
  case cons e es hi => exact hi (d.set e.1 e.2)

theorem mem_setAll_iff {d : Dict κ α} {es : List (κ × α)} {k : κ} :
    k ∈ d.setAll es ↔ k ∈ d ∨ k ∈ es.map Prod.fst := by
  induction es generalizing d
  case nil          => simp
  case cons e es hi => rw [setAll_cons, hi, mem_set_iff, or_assoc, List.map_cons, List.mem_cons]

theorem get?_setAll_of_not_mem {es : List (κ × α)} {k : κ} (h : k ∉ es.map Prod.fst)
    (d : Dict κ α) : (d.setAll es).get? k = d.get? k := by
  induction es generalizing d
  case nil => rfl
  case cons e es hi =>
    simp only [List.map_cons, List.mem_cons, not_or] at h
    rw [setAll_cons, hi h.2, get?_set_of_ne (Ne.symm h.1)]

theorem get?_setAll_of_nodup {es : List (κ × α)} (hn : (es.map Prod.fst).Nodup) (d : Dict κ α)
    (k : κ) : (d.setAll es).get? k = (getIn k es).or (d.get? k) := by
  induction es generalizing d
  case nil => simp [getIn]
  case cons e es hi =>
    simp only [List.map_cons, List.nodup_cons] at hn
    rw [setAll_cons, hi hn.2, get?_set]
    by_cases he : e.1 = k
    case pos => simp [getIn, he, getIn_eq_none_iff.mpr (he ▸ hn.1)]
    case neg => simp [getIn, he]

-- Writing new keys appends their entries.
theorem entries_setAll {es : List (κ × α)} (hn : (es.map Prod.fst).Nodup) {d : Dict κ α}
    (hd : ∀ k ∈ es.map Prod.fst, k ∉ d) : (d.setAll es).entries = d.entries ++ es := by
  induction es generalizing d
  case nil => rw [setAll_nil, List.append_nil]
  case cons e es hi =>
    have ⟨he, hn⟩ := List.nodup_cons.mp hn
    have hf : ∀ k ∈ es.map Prod.fst, k ∉ d.set e.1 e.2 := by
      intro k hk hm
      cases mem_set_iff.mp hm
      case inl hm => exact hd k (.tail _ hk) hm
      case inr hm => exact he (hm ▸ hk)
    rw [setAll_cons, hi hn hf, entries_set_of_not_mem (hd e.1 (.head _)), List.append_assoc]
    rfl

theorem entries_ofList {es : List (κ × α)} (hn : (es.map Prod.fst).Nodup) :
    (ofList es).entries = es :=
  entries_setAll hn fun k _ => not_mem_empty k

theorem foldl_set (d : Dict κ α) (es : List (κ × α)) : es.foldl (fun d e => d.set e.fst e.snd) d = d.setAll es := by
  induction es generalizing d
  case nil          => rfl
  case cons e es hi => exact hi (d.set e.fst e.snd)

-- Writing the entries of a dictionary to an empty one.
theorem setAll_empty_entries (d : Dict κ α) : (∅ : Dict κ α).setAll d.entries = d :=
  ext (entries_ofList d.nodup)

theorem get?_ofList_of_nodup {es : List (κ × α)} (hn : (es.map Prod.fst).Nodup) {k : κ} {a : α} :
    (ofList es).get? k = some a ↔ (k, a) ∈ es := by
  rw [get?_eq_some_iff, entries_ofList hn]

-- A list without repetitions, by position.
theorem get?_ofList_zipIdx {ks : List κ} (hn : ks.Nodup) {k : κ} {i : Nat} :
    (ofList ks.zipIdx).get? k = some i ↔ ks[i]? = some k := by
  rw [get?_ofList_of_nodup (by rwa [List.zipIdx_map_fst]), List.mem_zipIdx_iff_getElem?]

-- Keys that are written more than once always hold a value that was written for them.
theorem mem_of_get?_ofList {es : List (κ × α)} {k : κ} {a : α} (h : (ofList es).get? k = some a) :
    (k, a) ∈ es := by
  have hs : ∀ d : Dict κ α, (d.setAll es).get? k = some a → (k, a) ∈ es ∨ d.get? k = some a := by
    clear h
    induction es
    case nil => exact fun d h => .inr h
    case cons e es hi =>
      intro d h
      rw [setAll_cons] at h
      cases hi _ h
      case inl hm => exact .inl (.tail _ hm)
      case inr hd =>
        rw [get?_set] at hd
        split at hd
        case isTrue he  => cases hd; exact .inl (he ▸ .head _)
        case isFalse he => exact .inr hd
  exact (hs ∅ h).resolve_right (by simp)

theorem set_set (d : Dict κ α) (k : κ) (a a' : α) : (d.set k a).set k a' = d.set k a' := by
  have hs : ∀ es : List (κ × α), setIn k a' (setIn k a es) = setIn k a' es := by
    intro es
    induction es
    case nil          => simp [setIn]
    case cons e es hi => by_cases he : e.1 = k <;> simp [setIn, he, hi]
  exact ext (hs d.entries)

theorem get?_update (d d' : Dict κ α) (k : κ) :
    (d.update d').get? k = (d'.get? k).or (d.get? k) :=
  get?_setAll_of_nodup d'.nodup d k

@[simp]
theorem mem_update_iff {d d' : Dict κ α} {k : κ} : k ∈ d.update d' ↔ k ∈ d ∨ k ∈ d' :=
  mem_setAll_iff

-- Writing values one after the other, each combined with what its key holds by then.
def upserts (f : Option α → β → α) (d : Dict κ α) (es : List (κ × β)) : Dict κ α :=
  es.foldl (fun d e => d.set e.fst (f (d.get? e.fst) e.snd)) d

theorem upserts_append (f : Option α → β → α) (d : Dict κ α) (es es' : List (κ × β)) :
    d.upserts f (es ++ es') = (d.upserts f es).upserts f es' :=
  List.foldl_append

theorem upserts_flatMap {γ : Type*} (f : Option α → β → α) (d : Dict κ α) (xs : List γ)
    (es : γ → List (κ × β)) :
    d.upserts f (xs.flatMap es) = xs.foldl (fun d x => d.upserts f (es x)) d := by
  induction xs generalizing d
  case nil          => rfl
  case cons x xs hi => rw [List.flatMap_cons, upserts_append, hi, List.foldl_cons]

theorem get?_upserts (f : Option α → β → α) (d : Dict κ α) (es : List (κ × β)) (k : κ) :
    (d.upserts f es).get? k
      = ((es.filter (·.fst = k)).map Prod.snd).foldl (fun acc v => some (f acc v)) (d.get? k) := by
  induction es generalizing d
  case nil => rfl
  case cons e es hi =>
    rw [upserts, List.foldl_cons, ← upserts, hi, get?_set]
    by_cases he : e.fst = k <;> simp [he]

-- Lists that grow at their ends.
theorem getD_upserts_append (es : List (κ × β)) (k : κ) :
    (((∅ : Dict κ (List β)).upserts (fun old b => old.getD [] ++ [b]) es).get? k).getD [] =
      (es.filter (·.fst = k)).map Prod.snd := by
  have hfold (bs : List β) (acc : Option (List β)) :
      (bs.foldl (fun acc b => some (acc.getD [] ++ [b])) acc).getD [] = acc.getD [] ++ bs := by
    induction bs generalizing acc
    case nil          => exact (List.append_nil _).symm
    case cons b bs hi => rw [List.foldl_cons, hi, Option.getD_some, List.append_assoc, List.singleton_append]
  rw [get?_upserts, hfold]
  rfl

theorem mem_upserts_iff {f : Option α → β → α} {d : Dict κ α} {es : List (κ × β)} {k : κ} :
    k ∈ d.upserts f es ↔ k ∈ d ∨ k ∈ es.map Prod.fst := by
  induction es generalizing d
  case nil          => simp [upserts]
  case cons e es hi =>
    rw [upserts, List.foldl_cons, ← upserts, hi, mem_set_iff, or_assoc, List.map_cons,
      List.mem_cons]

-- The entries of a key, of which there is one at most.
theorem filter_entries (d : Dict κ α) (k : κ) :
    (d.entries.filter (·.fst = k)).map Prod.snd = (d.get? k).toList := by
  have ⟨es, hn⟩ := d
  rw [get?]
  induction es
  case nil => rfl
  case cons e es hi =>
    have ⟨hm, hn⟩ := List.nodup_cons.mp hn
    by_cases he : e.fst = k
    case pos =>
      have hf : es.filter (·.fst = k) = [] := by
        refine List.filter_eq_nil_iff.mpr fun e' h' hk => hm ?_
        exact he.trans (of_decide_eq_true hk).symm ▸ List.mem_map_of_mem h'
      rw [List.filter_cons_of_pos (by simpa using he), hf]
      simp [getIn, he]
    case neg =>
      rw [List.filter_cons_of_neg (by simpa using he), getIn, if_neg he]
      exact hi hn

-- What a function has for some keys.
theorem get?_ofList_keys {f : κ → Option α} {ks : List κ} (hn : ks.Nodup) (k : κ) :
    (ofList (ks.filterMap fun k => (f k).map (k, ·))).get? k
      = if k ∈ ks then f k else none := by
  have hs : ((ks.filterMap fun k => (f k).map (k, ·)).map Prod.fst).Sublist ks := by
    clear hn
    induction ks
    case nil => exact .slnil
    case cons k' ks hi =>
      cases hg : f k'
      case none   => rw [List.filterMap_cons, hg]; exact hi.cons k'
      case some a => rw [List.filterMap_cons, hg]; exact hi.cons_cons k'
  have hf : ofList (ks.filterMap fun k => (f k).map (k, ·)) = empty.setAll _ := rfl
  rw [hf, get?_setAll_of_nodup (hn.sublist hs)]
  ext a
  change (getIn k _).or none = _ ↔ _
  rw [Option.or_none, getIn_eq_some_iff (hn.sublist hs)]
  simp only [List.mem_filterMap, Option.map_eq_some_iff, Prod.mk.injEq]
  constructor
  · intro ⟨k', hk, a', hg, hk', ha⟩
    rw [← hk', if_pos hk, hg, ha]
  · intro h
    split at h
    case isTrue hk  => exact ⟨k, hk, a, h, rfl, rfl⟩
    case isFalse hk => cases h

end Set

section Pop

def filterKeys (d : Dict κ α) (p : κ → Bool) : Dict κ α where
  entries := d.entries.filter (p ·.1)
  nodup   := d.nodup.sublist <| (List.filter_sublist).map _

theorem entries_filterKeys (d : Dict κ α) (p : κ → Bool) :
    (d.filterKeys p).entries = d.entries.filter (p ·.1) :=
  rfl

theorem keys_filterKeys (d : Dict κ α) (p : κ → Bool) : (d.filterKeys p).keys = d.keys.filter p := by
  simp [keys, filterKeys, List.filter_map, Function.comp_def]

@[simp]
theorem mem_filterKeys_iff {d : Dict κ α} {p : κ → Bool} {k : κ} :
    k ∈ d.filterKeys p ↔ k ∈ d ∧ p k := by
  simp [mem_def, keys_filterKeys]

variable [DecidableEq κ]

theorem get?_filterKeys (d : Dict κ α) (p : κ → Bool) (k : κ) :
    (d.filterKeys p).get? k = if p k then d.get? k else none := by
  ext a
  rw [get?_eq_some_iff]
  split
  case isTrue h  => simp [filterKeys, h, get?_eq_some_iff]
  case isFalse h => simp [filterKeys, h]

def pop (d : Dict κ α) (k : κ) : Dict κ α :=
  d.filterKeys (· ≠ k)

theorem get?_pop (d : Dict κ α) (k k' : κ) :
    (d.pop k).get? k' = if k' = k then none else d.get? k' := by
  simp only [pop, get?_filterKeys, ne_eq, decide_not]
  by_cases h : k' = k <;> simp [h]

theorem get?_pop_of_ne {k k' : κ} (h : k' ≠ k) (d : Dict κ α) : (d.pop k).get? k' = d.get? k' := by
  simp [get?_pop, h]

@[simp]
theorem mem_pop_iff {d : Dict κ α} {k k' : κ} : k' ∈ d.pop k ↔ k' ∈ d ∧ k' ≠ k := by
  simp [pop]

end Pop

section Map

def mapVal (f : κ → α → β) (d : Dict κ α) : Dict κ β where
  entries := d.entries.map fun e => (e.1, f e.1 e.2)
  nodup   := by simpa [List.map_map, Function.comp_def] using d.nodup

@[simp]
theorem keys_mapVal (f : κ → α → β) (d : Dict κ α) : (d.mapVal f).keys = d.keys := by
  simp [keys, mapVal, Function.comp_def]

end Map

section Positions

variable {f : α → Option β}

-- What some elements of a list have for their positions.
def atPositions (f : α → Option β) (xs : List α) : List (Nat × β) :=
  xs.zipIdx.filterMap fun (x, i) => (f x).map (i, ·)

theorem mem_atPositions_iff {xs : List α} {i : Nat} {b : β} :
    (i, b) ∈ atPositions f xs ↔ ∃ x, xs[i]? = some x ∧ f x = some b := by
  simp [atPositions, List.mem_filterMap, List.mem_zipIdx_iff_getElem?]

theorem atPositions_sublist (f : α → Option β) (xs : List α) :
    ((atPositions f xs).map Prod.fst).Sublist (List.range' 0 xs.length) := by
  have hs : ((atPositions f xs).map Prod.fst).Sublist (xs.zipIdx.map Prod.snd) := by
    rw [atPositions]
    induction xs.zipIdx
    case nil => exact .slnil
    case cons x xs hi =>
      have ⟨a, i⟩ := x
      cases hf : f a
      case none   => simpa [hf] using hi.cons i
      case some b => simpa [hf] using hi.cons_cons i
  rwa [List.zipIdx_map_snd] at hs

theorem atPositions_nodup (f : α → Option β) (xs : List α) :
    ((atPositions f xs).map Prod.fst).Nodup :=
  List.Nodup.sublist (atPositions_sublist f xs) List.nodup_range'

theorem atPositions_pairwise (f : α → Option β) (xs : List α) :
    (atPositions f xs).Pairwise (·.fst < ·.fst) :=
  List.pairwise_map.mp <| List.Pairwise.sublist (atPositions_sublist f xs) List.pairwise_lt_range'

theorem get?_ofList_atPositions (xs : List α) (i : Nat) :
    (ofList (atPositions f xs)).get? i = xs[i]?.bind f := by
  ext b
  rw [get?_eq_some_iff, entries_ofList (atPositions_nodup f xs), mem_atPositions_iff]
  cases xs[i]? <;> simp

end Positions

end Dict
