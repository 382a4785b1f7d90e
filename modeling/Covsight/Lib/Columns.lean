import Mathlib.Data.Int.Order.Basic
import Mathlib.Data.List.Basic
import Mathlib.Tactic.Common
import Mathlib.Data.List.Sort
import Mathlib.Order.Basic

-- Ascending lists of numbers by their differences, and by what they leave out.

-- Numbers below a limit by their differences, which wrap around at the limit.

def deltas (limit : Nat) : (prev : Nat) → List Nat → List Nat
  | _,    []      => []
  | prev, n :: ns => (n + limit - prev) % limit :: deltas limit n ns

def undeltas (limit : Nat) : (prev : Nat) → List Nat → List Nat
  | _,    []      => []
  | prev, d :: ds => (prev + d) % limit :: undeltas limit ((prev + d) % limit) ds

section Deltas

variable {limit : Nat}

@[simp]
theorem length_deltas (prev : Nat) (ns : List Nat) : (deltas limit prev ns).length = ns.length := by
  induction ns generalizing prev
  case nil          => rfl
  case cons n ns hi => exact congrArg Nat.succ (hi n)

theorem deltas_lt (h : 0 < limit) {prev : Nat} {ns : List Nat} : ∀ d ∈ deltas limit prev ns, d < limit := by
  induction ns generalizing prev
  case nil          => nofun
  case cons n ns hi => exact List.forall_mem_cons.mpr ⟨Nat.mod_lt _ h, hi⟩

theorem undeltas_deltas {prev : Nat} {ns : List Nat} (hp : prev < limit) (h : ∀ n ∈ ns, n < limit) :
    undeltas limit prev (deltas limit prev ns) = ns := by
  induction ns generalizing prev
  case nil => rfl
  case cons n ns hi =>
    have ⟨hn, hns⟩ := List.forall_mem_cons.mp h
    have hd : (prev + (n + limit - prev) % limit) % limit = n := by
      rw [Nat.add_mod_mod, Nat.add_sub_cancel' (by omega), Nat.add_mod_right, Nat.mod_eq_of_lt hn]
    rw [deltas, undeltas, hd, hi hn hns]

end Deltas

-- The numbers of an ascending list that some ascending list leaves out.
def leftOut : (omitted : List Nat) → List Nat → List Nat
  | _,       []      => []
  | [],      n :: ns => n :: ns
  | o :: os, n :: ns => if o = n then leftOut os ns else n :: leftOut (o :: os) ns

theorem leftOut_eq_filter {omitted ns : List Nat} (ho : omitted.Pairwise (· < ·))
    (hn : ns.Pairwise (· < ·)) (hs : omitted ⊆ ns) :
    leftOut omitted ns = ns.filter (· ∉ omitted) := by
  induction ns generalizing omitted
  case nil => cases omitted <;> rfl
  case cons n ns hi =>
    cases omitted
    case nil => simp [leftOut]
    case cons o os =>
      have ⟨ho, hos⟩ := List.pairwise_cons.mp ho
      have ⟨hn, hns⟩ := List.pairwise_cons.mp hn
      rw [leftOut]
      split
      case isTrue he =>
        -- The others that are left out follow.
        have hs' : os ⊆ ns := by
          intro m hm
          cases hs (.tail _ hm)
          case head        => exact absurd (ho _ hm) (he ▸ Nat.lt_irrefl o)
          case tail hm     => exact hm
        rw [hi hos hns hs', List.filter_cons_of_neg (by simp [he])]
        refine List.filter_congr fun m hm => ?_
        have hne : m ≠ o := Nat.ne_of_gt (he ▸ hn m hm)
        simp [hne]
      case isFalse he =>
        -- The first one that is left out comes later, and so do the others.
        have hmem : o ∈ ns := by
          cases hs (.head _)
          case head    => exact absurd rfl he
          case tail hm => exact hm
        have hlt := hn o hmem
        have hs' : o :: os ⊆ ns := by
          intro m hm
          cases hs hm
          case tail hm' => exact hm'
          case head =>
            cases hm
            case head    => exact hmem
            case tail hm => exact absurd (ho _ hm) (Nat.not_lt_of_gt hlt)
        have hnot : n ∉ o :: os := fun hm => Nat.lt_irrefl n (hn n (hs' hm))
        rw [hi (List.pairwise_cons.mpr ⟨ho, hos⟩) hns hs', List.filter_cons_of_pos (by simpa using hnot)]

-- What is left out of what is left out is what is left.
theorem leftOut_leftOut {ns kept : List Nat} (hk : kept.Pairwise (· < ·)) (hn : ns.Pairwise (· < ·))
    (hs : kept ⊆ ns) : leftOut (leftOut kept ns) ns = kept := by
  have hl := leftOut_eq_filter hk hn hs
  rw [hl, leftOut_eq_filter (hn.filter _) hn (List.filter_subset_self ..)]
  refine List.Pairwise.eq_of_mem_iff (hn.filter _) hk fun n => ?_
  simp only [List.mem_filter, decide_eq_true_eq, not_and, not_not]
  exact ⟨fun h => h.2 h.1, fun h => ⟨hs h, fun _ => h⟩⟩

-- Groups of rows that are stored one after the other: where each group starts, and increasing numbers
-- of a group, each told after the one before it.

section Slices

variable {α β : Type} {i start n : Nat} {xs ys : List α} {x : α}

-- Number, start and length of each group.
def groupIndexFrom : (i start : Nat) → List (List α) → List (Nat × Nat × Nat)
  | _, _,     []      => []
  | i, start, g :: gs => (i, start, g.length) :: groupIndexFrom (i + 1) (start + g.length) gs

theorem length_groupIndexFrom (i start : Nat) (gs : List (List α)) :
    (groupIndexFrom i start gs).length = gs.length := by
  induction gs generalizing i start
  case nil          => rfl
  case cons g gs hi => rw [groupIndexFrom, List.length_cons, hi, List.length_cons]

theorem groupIndexFrom_map {γ : Type} (f : α → γ) (i start : Nat) (gs : List (List α)) :
    groupIndexFrom i start (gs.map (List.map f)) = groupIndexFrom i start gs := by
  induction gs generalizing i start
  case nil          => rfl
  case cons g gs hi => rw [List.map_cons, groupIndexFrom, groupIndexFrom, List.length_map, hi]

theorem groupIndexFrom_getElem? (i start : Nat) (before after : List (List α)) (g : List α) :
    (groupIndexFrom i start (before ++ g :: after))[before.length]? =
      some (i + before.length, start + before.flatten.length, g.length) := by
  induction before generalizing i start
  case nil            => rfl
  case cons g' gs hi =>
    rw [List.cons_append, groupIndexFrom, List.length_cons, List.getElem?_cons_succ, hi, List.flatten_cons,
      List.length_append, Nat.add_assoc, Nat.add_comm 1, Nat.add_assoc]

theorem mem_groupIndexFrom {gs : List (List α)} {e : Nat × Nat × Nat} (he : e ∈ groupIndexFrom i start gs) :
    ∃ before g after, gs = before ++ g :: after ∧
      e = (i + before.length, start + before.flatten.length, g.length) := by
  induction gs generalizing i start
  case nil => cases he
  case cons g gs hi =>
    cases he
    case head => exact ⟨[], g, gs, rfl, rfl⟩
    case tail he =>
      have ⟨before, g', after, hg, he⟩ := hi he
      refine ⟨g :: before, g', after, congrArg (g :: ·) hg, ?_⟩
      rw [he, List.length_cons, List.flatten_cons, List.length_append, Nat.add_assoc, Nat.add_comm 1,
        Nat.add_assoc]

-- A column is read where the rows of a group are next.
theorem getElem?_of_drop (h : xs.drop n = x :: ys) : xs[n]? = some x := by
  rw [← Nat.add_zero n, ← List.getElem?_drop, h, List.getElem?_cons_zero]

theorem drop_succ_of_drop (h : xs.drop n = x :: ys) : xs.drop (n + 1) = ys := by
  rw [← List.drop_drop, h, List.drop_one, List.tail_cons]

-- The groups of another column, as many rows each.
theorem drop_flatMap {γ : Type} {f : γ → List α} {g : γ → List β} (h : ∀ c, (f c).length = (g c).length)
    (before after : List γ) (c : γ) : ((before ++ c :: after).flatMap f).drop (before.map g).flatten.length =
      f c ++ after.flatMap f := by
  have hl : (before.map g).flatten.length = (before.flatMap f).length := by
    simp only [List.length_flatten, List.length_flatMap, List.map_map, Function.comp_def, h]
  rw [hl, List.flatMap_append, List.drop_left, List.flatMap_cons]

theorem length_flatMap_le {f : α → List β} (h : ∀ x ∈ xs, (f x).length ≤ n) :
    (xs.flatMap f).length ≤ xs.length * n := by
  induction xs
  case nil          => exact Nat.zero_le _
  case cons x xs hi =>
    have ⟨hx, hxs⟩ := List.forall_mem_cons.mp h
    have hi := hi hxs
    rw [List.flatMap_cons, List.length_append, List.length_cons, Nat.add_mul]
    omega

end Slices

section Differences

variable {prev bound : Int} {ts : List Int}

def differences (prev : Int) : List Int → List Int
  | []      => []
  | t :: ts => (t - prev) :: differences t ts

theorem length_differences (prev : Int) (ts : List Int) : (differences prev ts).length = ts.length := by
  induction ts generalizing prev
  case nil          => rfl
  case cons t ts hi => rw [differences, List.length_cons, List.length_cons, hi]

theorem differences_nonneg (h : (prev :: ts).Pairwise (· ≤ ·)) : ∀ d ∈ differences prev ts, 0 ≤ d := by
  induction ts generalizing prev
  case nil => nofun
  case cons t ts hi =>
    have ⟨hp, ht⟩ := List.pairwise_cons.mp h
    intro d hd
    cases hd
    case head    => exact Int.sub_nonneg_of_le (hp t (.head _))
    case tail hd => exact hi ht d hd

theorem differences_lt (hp : 0 ≤ prev) (h : ∀ t ∈ ts, 0 ≤ t ∧ t < bound) :
    ∀ d ∈ differences prev ts, d < bound := by
  induction ts generalizing prev
  case nil => nofun
  case cons t ts hi =>
    have ⟨ht, hts⟩ := List.forall_mem_cons.mp h
    intro d hd
    cases hd
    case head    => omega
    case tail hd => exact hi ht.left hts d hd

end Differences
