import Mathlib.Data.List.Nodup
import Mathlib.Data.List.Perm.Basic
import Mathlib.Tactic.Common

-- Lists of objects that link to one another by their positions, compared up to their order.

variable {α β : Type*}

theorem mapM_eq_some_iff {f : α → Option β} {xs : List α} {ys : List β} :
    xs.mapM f = some ys ↔ xs.Forall₂ (fun x y => f x = some y) ys := by
  induction xs generalizing ys
  case nil =>
    rw [List.forall₂_nil_left_iff]
    exact ⟨fun h => (Option.some.inj h).symm, fun h => h ▸ rfl⟩
  case cons x xs hi =>
    rw [List.mapM_cons, List.forall₂_cons_left_iff]
    constructor
    case mp =>
      intro h
      have ⟨y, hy, h⟩ := Option.bind_eq_some_iff.mp h
      have ⟨ys', hys, h⟩ := Option.bind_eq_some_iff.mp h
      exact ⟨y, ys', hy, hi.mp hys, (Option.some.inj h).symm⟩
    case mpr =>
      intro ⟨y, ys', hy, hys, h⟩
      rw [hy, hi.mpr hys, h]
      rfl

theorem mapM_congr {f g : α → Option β} {xs : List α} (h : ∀ x ∈ xs, f x = g x) :
    xs.mapM f = xs.mapM g := by
  induction xs
  case nil => rfl
  case cons x xs hi =>
    have ⟨hx, hxs⟩ := List.forall_mem_cons.mp h
    rw [List.mapM_cons, List.mapM_cons, hx, hi hxs]

-- A pass that goes through still does where more is found.
theorem mapM_mono {f g : α → Option β} {xs : List α} {ys : List β}
    (h : ∀ x y, f x = some y → g x = some y) (hf : xs.mapM f = some ys) : xs.mapM g = some ys :=
  mapM_eq_some_iff.mpr ((mapM_eq_some_iff.mp hf).imp h)

-- Two passes fail where one does.
theorem mapM_bind {γ : Type*} (f : α → Option β) (g : β → Option γ) (xs : List α) :
    xs.mapM (fun x => (f x).bind g) = (xs.mapM f).bind (·.mapM g) := by
  induction xs
  case nil => rfl
  case cons x xs hi =>
    rw [List.mapM_cons, List.mapM_cons, hi]
    cases f x
    case none => rfl
    case some y =>
      cases xs.mapM f
      case none    => cases hg : g y <;> simp [hg]
      case some ys => simp only [Option.bind_some, Option.bind_eq_bind, Option.pure_def, List.mapM_cons]

theorem exists_mapM {f : α → Option β} {xs : List α} (h : ∀ x ∈ xs, ∃ y, f x = some y) :
    ∃ ys, xs.mapM f = some ys := by
  induction xs
  case nil => exact ⟨[], rfl⟩
  case cons x xs hi =>
    have ⟨⟨y, hy⟩, hxs⟩ := List.forall_mem_cons.mp h
    have ⟨ys, hys⟩ := hi hxs
    exact ⟨y :: ys, mapM_eq_some_iff.mpr (.cons hy (mapM_eq_some_iff.mp hys))⟩

theorem exists_of_mem_mapM {f : α → Option β} {xs : List α} {ys : List β} (h : xs.mapM f = some ys)
    {y : β} (hy : y ∈ ys) : ∃ x ∈ xs, f x = some y := by
  have ⟨hl, hf⟩ := List.forall₂_iff_get.mp (mapM_eq_some_iff.mp h)
  have ⟨i, hi, he⟩ := List.mem_iff_getElem.mp hy
  exact ⟨_, List.get_mem .., (hf i (hl ▸ hi) hi).trans (congrArg some he)⟩

theorem exists_mem_of_forall₂ {r : α → β → Prop} {xs : List α} {ys : List β} (h : xs.Forall₂ r ys) {x : α}
    (hx : x ∈ xs) : ∃ y ∈ ys, r x y := by
  have ⟨hl, hf⟩ := List.forall₂_iff_get.mp h
  obtain ⟨i, hi, rfl⟩ := List.mem_iff_getElem.mp hx
  exact ⟨_, List.get_mem .., hf i hi (hl ▸ hi)⟩

theorem exists_mem_of_mapM {f : α → Option β} {xs : List α} {ys : List β} (h : xs.mapM f = some ys)
    {x : α} (hx : x ∈ xs) : ∃ y ∈ ys, f x = some y :=
  exists_mem_of_forall₂ (mapM_eq_some_iff.mp h) hx

-- What has each of the keys, put together.
theorem flatMap_filter_perm {α κ : Type*} [DecidableEq κ] {xs : List α} {key : α → κ} {keys : List κ}
    (hk : keys.Nodup) (h : ∀ x ∈ xs, key x ∈ keys) : (keys.flatMap fun k => xs.filter (key · = k)).Perm xs := by
  induction xs with
  | nil          => exact .of_eq <| List.flatMap_eq_nil_iff.mpr fun _ _ => rfl
  | cons x xs hi =>
    have hi := hi fun y hy => h y (.tail _ hy)
    have hone : (keys.flatMap fun k => if key x = k then [x] else []).Perm [x] := by
      have hp := List.perm_cons_erase <| h x (.head _)
      refine (hp.flatMap_right _).trans (.of_eq ?_)
      rw [List.flatMap_cons, if_pos rfl, List.flatMap_eq_nil_iff.mpr fun k hm => ?_, List.append_nil]
      exact if_neg fun he => (hk.mem_erase_iff.mp hm).left he.symm
    have hs (k : κ) : (x :: xs).filter (key · = k) = (if key x = k then [x] else []) ++ xs.filter (key · = k) := by
      by_cases he : key x = k
      case pos => simp [he]
      case neg => simp [he]
    rw [List.flatMap_congr fun k _ => hs k]
    exact (List.flatMap_append_perm _ _ _).symm.trans (hone.append hi)

-- The order gives the position that each object of the second list had in the first one. Objects are
-- the same up to some relation, and links lead to where the objects are that they led to.
def Rearranged (same : α → β → Prop) (link : α → Option Nat) (link' : β → Option Nat)
    (before : List α) (after : List β) : Prop :=
  ∃ order : List Nat, order.Perm (List.range before.length) ∧
    order.Forall₂ (fun i y => ∃ x, before[i]? = some x ∧ same x y ∧ link' y = (link x).map order.idxOf)
      after

namespace Rearranged

variable {same : α → β → Prop} {link : α → Option Nat} {link' : β → Option Nat} {f : α → β}
  {before stored : List α}

theorem forall₂_range (before : List α) :
    List.Forall₂ (fun x i => before[i]? = some x) before (List.range before.length) := by
  rw [List.forall₂_iff_get]
  refine ⟨List.length_range.symm, fun i hi hi' => ?_⟩
  simp only [List.get_eq_getElem, List.getElem_range]
  exact List.getElem?_eq_getElem hi

-- Each object was somewhere and is somewhere.
theorem exists_same {after : List β} (h : Rearranged same link link' before after) :
    ∀ x ∈ before, ∃ y ∈ after, same x y ∧ (link' y = none → link x = none) := by
  have ⟨order, hp, hf⟩ := h
  intro x hx
  have ⟨i, hi, he⟩ := List.mem_iff_getElem.mp hx
  have hm : i ∈ order := hp.mem_iff.mpr (List.mem_range.mpr hi)
  have ⟨k, hk, hki⟩ := List.mem_iff_getElem.mp hm
  have ⟨hl, hg⟩ := List.forall₂_iff_get.mp hf
  have ⟨x', hx', hs, hn⟩ := hg k hk (hl ▸ hk)
  rw [List.get_eq_getElem, hki, List.getElem?_eq_getElem hi, he] at hx'
  obtain rfl := Option.some.inj hx'
  exact ⟨_, List.getElem_mem _, hs, fun h => Option.map_eq_none_iff.mp (hn.symm.trans h)⟩

-- Objects without links that were made of the objects of a list, whatever the order of that.
theorem of_forall₂ {after : List β} (hp : stored.Perm before)
    (hf : stored.Forall₂ (fun x y => same x y ∧ link x = none ∧ link' y = none) after) :
    Rearranged same link link' before after := by
  have ⟨order, ho, hr⟩ := List.perm_comp_forall₂ hp (forall₂_range before)
  refine ⟨order, hr, ?_⟩
  rw [List.forall₂_iff_get] at hf ho ⊢
  refine ⟨ho.left.symm.trans hf.left, fun k hk hk' => ?_⟩
  have hk₀ : k < stored.length := ho.left.symm ▸ hk
  have ⟨hsame, hlink, hlink'⟩ := hf.right k hk₀ hk'
  exact ⟨_, ho.right k hk₀ hk, hsame, by rw [hlink', hlink]; rfl⟩

-- Objects that stay in their places keep their links.
theorem of_map (hs : ∀ x ∈ before, same x (f x)) (hl : ∀ x, link' (f x) = link x)
    (hv : ∀ x ∈ before, ∀ i ∈ link x, i < before.length) :
    Rearranged same link link' before (before.map f) := by
  refine ⟨List.range before.length, .refl _, ?_⟩
  rw [List.forall₂_map_right_iff]
  refine (forall₂_range before).flip.imp fun i x hx => ?_
  have hm := List.mem_of_getElem? hx
  refine ⟨x, hx, hs x hm, ?_⟩
  rw [hl]
  cases hk : link x
  case none => rfl
  case some k =>
    have hk : k < before.length := hv x hm k hk
    have hi := List.nodup_range.idxOf_getElem k (by rwa [List.length_range])
    rw [List.getElem_range] at hi
    exact congrArg some hi.symm

end Rearranged
