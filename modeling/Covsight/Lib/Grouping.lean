import Mathlib.Data.List.Sort
import Mathlib.Data.List.Dedup

-- A list that is sorted by a key is the concatenation of its runs of equal keys. The runs are kept
-- in an index of keys, start positions and lengths, which is searched by bisection.

-- The first position of `[lo, hi)` at which `p` fails, for a `p` that holds on a prefix.
def bisect (p : Nat → Bool) : (fuel lo hi : Nat) → Nat
  | 0,        lo, _  => lo
  | fuel + 1, lo, hi =>
    if lo < hi then
      let mid := (lo + hi) / 2
      if p mid then bisect p fuel (mid + 1) hi else bisect p fuel lo mid
    else
      lo

namespace bisect

variable {p : Nat → Bool} {fuel lo hi : Nat}

theorem spec (hp : ∀ i j, i ≤ j → j < hi → p j → p i) (hf : hi - lo ≤ fuel) (hl : lo ≤ hi) :
    lo ≤ bisect p fuel lo hi ∧ bisect p fuel lo hi ≤ hi ∧
    (∀ i, lo ≤ i → i < bisect p fuel lo hi → p i) ∧
    (∀ i, bisect p fuel lo hi ≤ i → i < hi → ¬p i) := by
  induction fuel generalizing lo hi <;> simp only [bisect]
  case zero => exact ⟨by omega, by omega, by omega, by omega⟩
  case succ fuel ih =>
    split
    case isFalse => exact ⟨by omega, by omega, by omega, by omega⟩
    case isTrue h =>
      split
      case isTrue hm =>
        have ⟨h₁, h₂, h₃, h₄⟩ := @ih ((lo + hi) / 2 + 1) hi hp (by omega) (by omega)
        refine ⟨by omega, h₂, fun i hi₁ hi₂ => ?_, h₄⟩
        by_cases hc : (lo + hi) / 2 + 1 ≤ i
        case pos => exact h₃ i hc hi₂
        case neg => exact hp i ((lo + hi) / 2) (by omega) (by omega) hm
      case isFalse hm =>
        have hp' : ∀ i j, i ≤ j → j < (lo + hi) / 2 → p j → p i :=
          fun i j hij hj => hp i j hij (by omega)
        have ⟨h₁, h₂, h₃, h₄⟩ := @ih lo ((lo + hi) / 2) hp' (by omega) (by omega)
        refine ⟨h₁, by omega, h₃, fun i hi₁ hi₂ hpi => ?_⟩
        by_cases hc : i < (lo + hi) / 2
        case pos => exact h₄ i hi₁ hc hpi
        case neg => exact hm <| hp _ i (by omega) hi₂ hpi

end bisect

section Search

variable {κ β : Type*} [LinearOrder κ]

-- Whether the key at a position of an index is below a given one.
def keyBelow (index : List (κ × β)) (k : κ) (i : Nat) : Bool :=
  index[i]?.any (·.1 < k)

-- Searches an index with ascending keys.
def search (index : List (κ × β)) (k : κ) : Option β :=
  match index[bisect (keyBelow index k) index.length 0 index.length]? with
  | none         => none
  | some (k', b) => if k' = k then some b else none

variable {index : List (κ × β)} {k : κ} {b : β}

theorem keyBelow_iff {i : Nat} (h : i < index.length) : keyBelow index k i ↔ index[i].1 < k := by
  simp [keyBelow, List.getElem?_eq_getElem h]

theorem mem_of_search (h : search index k = some b) : (k, b) ∈ index := by
  rw [search] at h
  split at h
  case h_1 => cases h
  case h_2 k' b' he =>
    split at h <;> cases h
    case isTrue hk => exact hk ▸ List.mem_of_getElem? he

theorem search_of_mem (hs : index.Pairwise (·.1 < ·.1)) (h : (k, b) ∈ index) :
    search index k = some b := by
  have ⟨i, hi, he⟩ := List.mem_iff_getElem.mp h
  have hlt := List.pairwise_iff_getElem.mp hs
  have hmono : ∀ j j', j ≤ j' → j' < index.length → keyBelow index k j' → keyBelow index k j := by
    intro j j' hjj hj' h'
    have hj : j < index.length := by omega
    rw [keyBelow_iff hj'] at h'
    rw [keyBelow_iff hj]
    cases Nat.lt_or_eq_of_le hjj
    case inl hl => exact (hlt j j' hj hj' hl).trans h'
    case inr hl => subst hl; exact h'
  have ⟨_, hle, hbefore, hafter⟩ := bisect.spec hmono (Nat.sub_le ..) (Nat.zero_le _)
  generalize hp : bisect (keyBelow index k) index.length 0 index.length = pos at hle hbefore hafter
  -- The position found is neither before nor after the one of the key.
  have hn₁ : ¬i < pos := by
    intro hl
    have hc := hbefore i (Nat.zero_le _) hl
    rw [keyBelow_iff hi, he] at hc
    exact lt_irrefl _ hc
  have hn₂ : ¬pos < i := by
    intro hl
    have hc := hlt pos i (hl.trans hi) hi hl
    rw [he] at hc
    exact hafter pos (Nat.le_refl _) (hl.trans hi) <| (keyBelow_iff _).mpr hc
  have heq : pos = i := by omega
  simp [search, hp, heq, List.getElem?_eq_getElem hi, he]

-- Searches a range of an index with ascending keys, up to the first position that has the key.
def searchWithin (index : List (κ × β)) (k : κ) : (fuel lo hi : Nat) → Option β
  | 0,        _,  _  => none
  | fuel + 1, lo, hi =>
    if lo < hi then
      let mid := lo + (hi - lo) / 2
      match index[mid]? with
      | none         => none
      | some (k', b) =>
        if k' < k then searchWithin index k fuel (mid + 1) hi
        else if k < k' then searchWithin index k fuel lo mid
        else some b
    else
      none

theorem mem_of_searchWithin {fuel lo hi : Nat} (h : searchWithin index k fuel lo hi = some b) :
    (k, b) ∈ index := by
  induction fuel generalizing lo hi <;> simp only [searchWithin] at h
  case zero => cases h
  case succ fuel ih =>
    split at h
    case isFalse => cases h
    case isTrue =>
      split at h
      case h_1 => cases h
      case h_2 k' b' he =>
        split at h
        case isTrue => exact ih h
        case isFalse hl =>
          split at h
          case isTrue => exact ih h
          case isFalse hg =>
            cases h
            exact le_antisymm (not_lt.mp hg) (not_lt.mp hl) ▸ List.mem_of_getElem? he

end Search

variable {α κ : Type*} [LinearOrder κ] (key : α → κ)

-- The keys that occur, in ascending order.
def keysOf (xs : List α) : List κ :=
  (xs.map key).dedup.insertionSort (· ≤ ·)

-- The runs of some keys, the first of them starting at a given position.
def runsFrom (xs : List α) : (start : Nat) → List κ → List (κ × Nat × Nat)
  | _,     []      => []
  | start, k :: ks =>
    let count := (xs.filter (key · = k)).length
    (k, start, count) :: runsFrom xs (start + count) ks

def runsOf (xs : List α) : List (κ × Nat × Nat) :=
  runsFrom key xs 0 (keysOf key xs)

namespace keysOf

theorem pairwise_lt (xs : List α) : (keysOf key xs).Pairwise (· < ·) := by
  have hs : (keysOf key xs).Pairwise (· ≤ ·) := List.pairwise_insertionSort ..
  have hn : (keysOf key xs).Nodup :=
    (List.perm_insertionSort ..).nodup_iff.mpr <| List.nodup_dedup _
  exact (hs.and hn).imp fun ⟨hl, hn⟩ => lt_of_le_of_ne hl hn

variable {key} {xs : List α}

theorem mem_iff {k : κ} : k ∈ keysOf key xs ↔ ∃ x ∈ xs, key x = k := by
  rw [keysOf, (List.perm_insertionSort ..).mem_iff, List.mem_dedup, List.mem_map]

end keysOf

section Runs

variable {key} {xs : List α}

-- The elements with the least key come first.
theorem filter_least {k : κ} (hs : xs.Pairwise (key · ≤ key ·)) (hk : ∀ x ∈ xs, k ≤ key x) :
    xs.filter (key · = k) ++ xs.filter (key · ≠ k) = xs := by
  induction xs
  case nil => rfl
  case cons x xs hi =>
    have ⟨hx, hs⟩ := List.pairwise_cons.mp hs
    have hi := hi hs fun y hy => hk y (.tail _ hy)
    by_cases h : key x = k
    case pos => simpa [h] using hi
    case neg =>
      have hlt : ∀ y ∈ xs, key y ≠ k := fun y hy hc =>
        h <| le_antisymm (hc ▸ hx y hy) (hk x (.head _))
      have he : xs.filter (key · = k) = [] := by simpa using hlt
      have hf : xs.filter (key · ≠ k) = xs := by simpa using hlt
      simp only [ne_eq, decide_not] at hf ⊢
      simp [h, he, hf]

-- Concatenating the runs of ascending keys gives back a sorted list.
theorem flatMap_filter {ks : List κ} (hk : ks.Pairwise (· < ·)) (hs : xs.Pairwise (key · ≤ key ·))
    (hm : ∀ x ∈ xs, key x ∈ ks) : ks.flatMap (fun k => xs.filter (key · = k)) = xs := by
  induction ks generalizing xs
  case nil =>
    cases xs
    case nil       => rfl
    case cons x xs => exact absurd (hm x (.head _)) List.not_mem_nil
  case cons k ks hi =>
    have ⟨hlt, hk⟩ := List.pairwise_cons.mp hk
    have hle : ∀ x ∈ xs, k ≤ key x := by
      intro x hx
      cases List.mem_cons.mp (hm x hx)
      case inl h => exact h.ge
      case inr h => exact (hlt _ h).le
    have hr : ks.flatMap (fun k' => xs.filter (key · = k'))
        = ks.flatMap (fun k' => (xs.filter (key · ≠ k)).filter (key · = k')) := by
      refine List.flatMap_congr fun k' hk' => ?_
      rw [List.filter_filter]
      refine List.filter_congr fun x _ => ?_
      by_cases h : key x = k'
      case pos => simp [h, (hlt k' hk').ne']
      case neg => simp [h]
    have hm' : ∀ x ∈ xs.filter (key · ≠ k), key x ∈ ks := by
      intro x hx
      have ⟨hx, hn⟩ := List.mem_filter.mp hx
      exact (List.mem_cons.mp (hm x hx)).resolve_left (by simpa using hn)
    rw [List.flatMap_cons, hr, hi hk (hs.sublist List.filter_sublist) hm']
    exact filter_least hs hle

theorem flatMap_keysOf (hs : xs.Pairwise (key · ≤ key ·)) :
    (keysOf key xs).flatMap (fun k => xs.filter (key · = k)) = xs :=
  flatMap_filter (keysOf.pairwise_lt key xs) hs fun x hx => keysOf.mem_iff.mpr ⟨x, hx, rfl⟩

theorem runsFrom_map_fst (xs : List α) (start : Nat) (ks : List κ) :
    (runsFrom key xs start ks).map Prod.fst = ks := by
  induction ks generalizing start
  case nil          => rfl
  case cons k ks hi => exact congrArg _ (hi _)

-- A run is the slice of the list that its index entry names.
theorem runsFrom_slice {ys : List α} {start : Nat} {ks : List κ} {r : κ × Nat × Nat}
    (h : r ∈ runsFrom key xs start ks) (hl : ys.length = start) :
    ((ys ++ ks.flatMap (fun k => xs.filter (key · = k))).drop r.2.1).take r.2.2
      = xs.filter (key · = r.1) := by
  induction ks generalizing start ys
  case nil => cases h
  case cons k ks hi =>
    rw [List.flatMap_cons]
    cases h
    case head   => rw [List.drop_left' hl, List.take_left]
    case tail h =>
      rw [← List.append_assoc]
      exact hi h (by rw [List.length_append, hl])

theorem runsOf_slice (hs : xs.Pairwise (key · ≤ key ·)) {r : κ × Nat × Nat}
    (h : r ∈ runsOf key xs) : (xs.drop r.2.1).take r.2.2 = xs.filter (key · = r.1) := by
  have hr := runsFrom_slice h (rfl : ([] : List α).length = 0)
  rwa [List.nil_append, flatMap_keysOf hs] at hr

theorem runsOf_pairwise : (runsOf key xs).Pairwise (·.1 < ·.1) := by
  have hk := keysOf.pairwise_lt key xs
  rwa [← runsFrom_map_fst xs 0 (keysOf key xs), ← runsOf, List.pairwise_map] at hk

-- The slice that a search finds for a key holds the elements of that key.
theorem search_runsOf (hs : xs.Pairwise (key · ≤ key ·)) (k : κ) :
    (match search (runsOf key xs) k with
      | none                => []
      | some (start, count) => (xs.drop start).take count) = xs.filter (key · = k) := by
  split
  case h_2 start count h => exact runsOf_slice hs (mem_of_search h)
  case h_1 h =>
    refine (List.filter_eq_nil_iff.mpr fun x hx hk => ?_).symm
    have hk : key x = k := by simpa using hk
    have hm : k ∈ (runsOf key xs).map Prod.fst := by
      rw [runsOf, runsFrom_map_fst]
      exact keysOf.mem_iff.mpr ⟨x, hx, hk⟩
    have ⟨r, hr, hrk⟩ := List.mem_map.mp hm
    have hf : search (runsOf key xs) k = some r.2 := search_of_mem runsOf_pairwise (hrk ▸ hr)
    rw [h] at hf
    cases hf

end Runs
