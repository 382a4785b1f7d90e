import Covsight.Ncdb.Multirun
import Mathlib.Data.List.Enum

theorem mapIdx_snd {α : Type*} (xs : List α) : xs.mapIdx (fun _ x => x) = xs := by
  ext; simp

namespace Scope

-- Visiting scopes one after the other with the position of each and the flat index of its first
-- item.
def scan {β : Type*} (g : Nat → Nat → Scope → β) (i k : Nat) : List Scope → List β
  | []      => []
  | s :: ss => g i k s :: scan g (i + 1) (k + s.coverItems.length) ss

namespace scan

variable {β γ : Type*} {g : Nat → Nat → Scope → β} {i k : Nat}

theorem append (ss ss' : List Scope) :
    scan g i k (ss ++ ss')
      = scan g i k ss ++ scan g (i + ss.length) (k + (ss.flatMap coverItems).length) ss' := by
  induction ss generalizing i k
  case nil => rfl
  case cons s ss hi =>
    rw [List.cons_append, scan, hi, scan, List.cons_append, List.length_cons, List.flatMap_cons,
      List.length_append]
    simp only [Nat.add_assoc, Nat.add_comm 1]

theorem map (f : β → γ) (ss : List Scope) :
    (scan g i k ss).map f = scan (fun i k s => f (g i k s)) i k ss := by
  induction ss generalizing i k
  case nil          => rfl
  case cons s ss hi => rw [scan, List.map_cons, hi, scan]

theorem const (f : Scope → β) (ss : List Scope) : scan (fun _ _ => f) i k ss = ss.map f := by
  induction ss generalizing i k
  case nil          => rfl
  case cons s ss hi => rw [scan, hi, List.map_cons]

@[simp]
theorem length (ss : List Scope) : (scan g i k ss).length = ss.length := by
  induction ss generalizing i k
  case nil          => rfl
  case cons s ss hi => rw [scan, List.length_cons, hi, List.length_cons]

theorem congr {g' : Nat → Nat → Scope → β} {ss : List Scope} (h : ∀ i k, ∀ s ∈ ss, g i k s = g' i k s) :
    scan g i k ss = scan g' i k ss := by
  induction ss generalizing i k
  case nil          => rfl
  case cons s ss hi => rw [scan, scan, h _ _ s (.head _), hi fun i k s' hs => h i k s' (.tail _ hs)]

-- The positions count up from the first.
theorem getElem? (ss : List Scope) (n : Nat) :
    (scan (fun i _ s => g i 0 s) i k ss)[n]? = ss[n]?.map (g (i + n) 0) := by
  induction ss generalizing i k n
  case nil => simp [scan]
  case cons s ss hi =>
    rw [scan]
    cases n
    case zero   => simp
    case succ n => simp [hi, Nat.add_assoc, Nat.add_comm 1]

end scan

section Rewrite

variable {f : Option ScopeTypeT → List Scope → Nat → Nat → Scope → ScopeData × List CoverIndex}

-- A scope as far as a rewrite can change it: its data, its items and whether it has sub-scopes.
def node (s : Scope) : ScopeData × List CoverIndex × Bool :=
  (s.data, s.coverItems, s.scopes.isEmpty)

theorem isEmpty_rewriteAll (parent : Option ScopeTypeT) (siblings : List Scope) (i k : Nat)
    (ss : List Scope) : (rewriteAll f parent siblings i k ss).isEmpty = ss.isEmpty := by
  cases ss <;> rfl

variable {β : Type*} {π : ScopeData × List CoverIndex × Bool → β} {g : Nat → Nat → Scope → β}

mutual

-- What a rewrite makes of a scope, as far as it does not depend on what is around the scope.
theorem nodes_rewrite
    (h : ∀ parent siblings i k s,
      π ((f parent siblings i k s).fst, (f parent siblings i k s).snd, s.scopes.isEmpty) = g i k s)
    (parent : Option ScopeTypeT) (siblings : List Scope) (i k : Nat) :
    (s : Scope) → (s.rewrite f parent siblings i k).dfs.map (π ·.node) = scan g i k s.dfs
  | mk d is ss => by
    rw [rewrite, dfs_eq, dfs_eq, List.map_cons, scopes_mk, scopes_mk, nodes_rewriteAll h, scan]
    refine congrArg (· :: _) ?_
    rw [node, scopes_mk, isEmpty_rewriteAll]
    exact h ..

theorem nodes_rewriteAll
    (h : ∀ parent siblings i k s,
      π ((f parent siblings i k s).fst, (f parent siblings i k s).snd, s.scopes.isEmpty) = g i k s)
    (parent : Option ScopeTypeT) (siblings : List Scope) (i k : Nat) :
    (ss : List Scope) →
      (dfsAll (rewriteAll f parent siblings i k ss)).map (π ·.node) = scan g i k (dfsAll ss)
  | []      => rfl
  | s :: ss => by
    rw [rewriteAll, dfsAll, dfsAll, List.map_append, nodes_rewrite h, nodes_rewriteAll h,
      scan.append]

end

-- The items of a scope, each with whether the scope is a toggle pair.
def markedItems (s : Scope) : List (Bool × CoverIndex) :=
  s.coverItems.map (s.isTogglePair, ·)

end Rewrite

end Scope

namespace MemUCIS

open Scope (scan)

variable (db : MemUCIS)

-- All items, each with whether it is in a toggle pair.
def markedItems : List (Bool × CoverIndex) :=
  db.dfsScopeList.flatMap (·.markedItems)

theorem markedItems_snd : db.markedItems.map Prod.snd = db.coverItems := by
  simp [markedItems, coverItems, List.map_flatMap, Scope.markedItems, Function.comp_def]

section Rewrite

open Scope (node)

variable {f : Option ScopeTypeT → List Scope → Nat → Nat → Scope → ScopeData × List CoverIndex}

-- The database with its scopes rewritten in place.
def rewritten
    (f : Option ScopeTypeT → List Scope → Nat → Nat → Scope → ScopeData × List CoverIndex) :
    MemUCIS :=
  { db with scopes := Scope.rewriteAll f none db.scopes 0 0 db.scopes }

theorem dfsScopeList_rewritten {β : Type*} {π : ScopeData × List CoverIndex × Bool → β}
    {g : Nat → Nat → Scope → β}
    (h : ∀ parent siblings i k s,
      π ((f parent siblings i k s).fst, (f parent siblings i k s).snd, s.scopes.isEmpty) = g i k s) :
    (db.rewritten f).dfsScopeList.map (π ·.node) = scan g 0 0 db.dfsScopeList :=
  Scope.nodes_rewriteAll h none db.scopes 0 0 db.scopes

-- Whether a scope is a toggle pair, from what a rewrite sees of it.
def togglePairNode : ScopeData × List CoverIndex × Bool → Bool
  | (d, is, leaf) => d.type = .branch ∧ leaf ∧
    (is.map (·.name) = [toggleBin0To1, toggleBin1To0] ∨
      is.map (·.name) = [toggleBin1To0, toggleBin0To1])

theorem togglePairNode_node (s : Scope) : togglePairNode s.node = s.isTogglePair := by
  have h := List.isEmpty_iff (l := s.scopes)
  exact decide_eq_decide.mpr (by simp only [Scope.type, h])

theorem togglePairNode_congr {d d' : ScopeData} {is is' : List CoverIndex} (ht : d.type = d'.type)
    (hn : is.map (·.name) = is'.map (·.name)) (leaf : Bool) :
    togglePairNode (d, is, leaf) = togglePairNode (d', is', leaf) := by
  simp only [togglePairNode, ht, hn]

-- A rewrite that keeps the types of the scopes and the names of the items keeps the toggle pairs.
theorem markedItems_rewritten
    (ht : ∀ parent siblings i k s, (f parent siblings i k s).fst.type = s.type)
    (hn : ∀ parent siblings i k s,
      (f parent siblings i k s).snd.map (·.name) = s.coverItems.map (·.name))
    {g : Nat → Nat → Scope → List CoverIndex}
    (hg : ∀ parent siblings i k s, (f parent siblings i k s).snd = g i k s) :
    (db.rewritten f).markedItems
      = (scan (fun i k s => (g i k s).map (s.isTogglePair, ·)) 0 0 db.dfsScopeList).flatten := by
  have hs := db.dfsScopeList_rewritten (f := f)
    (π := fun v => v.snd.fst.map (togglePairNode v, ·))
    (g := fun i k s => (g i k s).map (s.isTogglePair, ·)) <| by
      intro parent siblings i k s
      rw [togglePairNode_congr (ht ..) (hn ..), ← togglePairNode_node, hg]
      rfl
  rw [← hs, markedItems, List.flatMap_def]
  refine congrArg List.flatten <| List.map_congr_left fun s _ => ?_
  rw [togglePairNode_node]
  rfl

-- The items of a scan that rewrites them by flat index.
theorem flatten_scan (h : Bool → Nat → CoverIndex → CoverIndex) (i k : Nat) (ss : List Scope) :
    (scan (fun _ k s => (s.coverItems.mapIdx fun j ci => h s.isTogglePair (k + j) ci).map
        (s.isTogglePair, ·)) i k ss).flatten
      = (ss.flatMap (·.markedItems)).mapIdx fun j x => (x.fst, h x.fst (k + j) x.snd) := by
  induction ss generalizing i k
  case nil => rfl
  case cons s ss hi =>
    have hl : s.markedItems.length = s.coverItems.length := List.length_map ..
    rw [scan, List.flatten_cons, hi, List.flatMap_cons, List.mapIdx_append, hl]
    congr 1
    · simp only [Scope.markedItems, List.mapIdx_eq_zipIdx_map, List.zipIdx_map, List.map_map]
      rfl
    · simp only [Nat.add_assoc, Nat.add_comm s.coverItems.length]

-- A rewrite of the items by flat index, told whether they are in a toggle pair.
theorem markedItems_mapIdx {h : Bool → Nat → CoverIndex → CoverIndex}
    (hn : ∀ b n ci, (h b n ci).name = ci.name)
    (ht : ∀ parent siblings i k s, (f parent siblings i k s).fst.type = s.type)
    (hf : ∀ parent siblings i k s, (f parent siblings i k s).snd
      = s.coverItems.mapIdx fun j ci => h s.isTogglePair (k + j) ci) :
    (db.rewritten f).markedItems
      = db.markedItems.mapIdx fun n x => (x.fst, h x.fst n x.snd) := by
  rw [markedItems_rewritten db ht ?_ hf, flatten_scan, markedItems]
  · simp only [Nat.zero_add]
  · intro parent siblings i k s
    rw [hf, List.mapIdx_eq_zipIdx_map, List.map_map]
    have he : (CoverIndex.name ∘ fun a : CoverIndex × Nat => h s.isTogglePair (k + a.snd) a.fst)
        = CoverIndex.name ∘ Prod.fst := funext fun _ => hn ..
    rw [he, ← List.map_map, List.zipIdx_map_fst]

theorem markedItems_mapScopeData (g : Nat → ScopeData → ScopeData) (ht : ∀ i d, (g i d).type = d.type) :
    (db.mapScopeData g).markedItems = db.markedItems := by
  have hm := db.markedItems_mapIdx (f := fun _ _ i _ s => (g i s.data, s.coverItems))
    (h := fun _ _ ci => ci) (fun _ _ _ => rfl) (fun _ _ _ _ _ => ht ..)
    (fun _ _ _ _ s => (mapIdx_snd _).symm)
  exact hm.trans (mapIdx_snd _)

theorem markedItems_mapCoverItems (h : Nat → CoverIndex → CoverIndex)
    (hn : ∀ n ci, (h n ci).name = ci.name) :
    (db.mapCoverItems h).markedItems = db.markedItems.mapIdx fun n x => (x.fst, h n x.snd) :=
  db.markedItems_mapIdx (h := fun _ => h) (fun _ => hn) (fun _ _ _ _ _ => rfl)
    (fun _ _ _ _ _ => rfl)

theorem markedItems_mapLooseItems (h : Nat → CoverIndex → CoverIndex)
    (hn : ∀ n ci, (h n ci).name = ci.name) :
    (db.mapLooseItems h).markedItems
      = db.markedItems.mapIdx fun n x => (x.fst, if x.fst then x.snd else h n x.snd) := by
  refine db.markedItems_mapIdx (h := fun b n ci => if b then ci else h n ci) ?_
    (fun _ _ _ _ _ => rfl) ?_
  · intro b n ci
    split
    · rfl
    · exact hn n ci
  · intro _ _ i k s
    cases hp : s.isTogglePair <;> simp [hp, mapIdx_snd]

end Rewrite

end MemUCIS
