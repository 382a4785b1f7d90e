import Covsight.Lib.Call
import Mathlib.Data.List.Nodup
import Mathlib.Data.Finset.Card
import Mathlib.Logic.Relation
import Mathlib.Data.List.Flatten
import Mathlib.Data.List.Perm.Basic
import Mathlib.Tactic.Common

-- Depth-first walks of a graph whose edges extend a label. A vertex without edges of its own has
-- an empty list of them, and a vertex that is missing has none.
structure LinkGraph (V E L : Type*) where
  edges  : V → Option (List (E × V))
  extend : L → E → V → L

namespace LinkGraph

inductive Fault
  | cycle
  | missing
  | depth
  deriving DecidableEq, Repr

variable {V E L : Type*}

section Walk

variable [DecidableEq V] (g : LinkGraph V E L)

-- The walk along the edges of the last vertex of a path, past the vertices that are done.
def walkEdges (visit : List V → V → L → Except Fault (List (V × L))) (path : List V) (l : L) :
    (done : List V) → List (E × V) → Except Fault (List (V × L))
  | _,    []           => .ok []
  | done, (e, v) :: es =>
    if v ∈ path then
      .error .cycle
    else if v ∈ done then
      walkEdges visit path l done es
    else do
      let ws ← visit done v (g.extend l e v)
      let ws' ← walkEdges visit path l (done ++ ws.map Prod.fst) es
      return ws ++ ws'

-- What is walked from a vertex, itself first.
def visit : (depth : Nat) → (path done : List V) → V → L → Except Fault (List (V × L))
  | 0,         _,    _,    _, _ => .error .depth
  | depth + 1, path, done, v, l =>
    match g.edges v with
    | none    => .error .missing
    | some es => do
      let ws ← g.walkEdges (visit depth (v :: path)) (v :: path) l done es
      return (v, l) :: ws

end Walk

variable (g : LinkGraph V E L)

def Edge (u v : V) : Prop :=
  ∃ es, g.edges u = some es ∧ ∃ e, (e, v) ∈ es

def Reachable : V → V → Prop :=
  Relation.ReflTransGen g.Edge

-- A vertex from which a cycle or a missing vertex is reachable.
def Faulty (v : V) : Prop :=
  ∃ u, g.Reachable v u ∧ (Relation.TransGen g.Edge u u ∨ g.edges u = none)

-- The labels that paths from a vertex lead to.
inductive Reaches (v : V) (l : L) : V → L → Prop
  | refl : Reaches v l v l
  | step {u w : V} {lu : L} {e : E} {es : List (E × V)} : Reaches v l u lu →
    g.edges u = some es → (e, w) ∈ es → Reaches v l w (g.extend lu e w)

variable {g}

theorem Reaches.reachable {u v : V} {l lu : L} (h : g.Reaches v l u lu) : g.Reachable v u := by
  induction h
  case refl            => exact .refl
  case step he hm hi => exact hi.tail ⟨_, he, _, hm⟩

theorem Reaches.head {u v w : V} {l lu : L} {e : E} {es : List (E × V)} (he : g.edges v = some es)
    (hm : (e, w) ∈ es) (h : g.Reaches w (g.extend l e w) u lu) : g.Reaches v l u lu := by
  induction h
  case refl            => exact .step .refl he hm
  case step he hm hi => exact hi.step he hm

theorem Faulty.of_edge {u v : V} (he : g.Edge u v) (h : g.Faulty v) : g.Faulty u := by
  have ⟨w, hr, h⟩ := h
  exact ⟨w, .head he hr, h⟩

-- A fault is behind one of the edges.
theorem not_faulty_of_edges {v : V} {es : List (E × V)} (he : g.edges v = some es)
    (h : ∀ w, g.Edge v w → ¬g.Faulty w) : ¬g.Faulty v := by
  intro ⟨u, hr, hu⟩
  obtain rfl | ⟨w, hw, hr⟩ := hr.cases_head
  · obtain hc | hm := hu
    · obtain ⟨w, hw, hr⟩ := Relation.TransGen.head'_iff.mp hc
      exact h w hw ⟨w, .refl, .inl (.tail' hr hw)⟩
    · rw [he] at hm
      cases hm
  · exact h w hw ⟨u, hr, hu⟩

variable (g)

-- What a walk from some vertices adds to those that are done.
structure Walked (path done : List V) (starts ws : List (V × L)) : Prop where
  nodup   : (ws.map Prod.fst).Nodup
  new     : ∀ w ∈ ws, w.1 ∉ done ∧ w.1 ∉ path
  started : ∀ s ∈ starts, s.1 ∈ done ∨ s.1 ∈ ws.map Prod.fst
  reaches : ∀ w ∈ ws, ∃ s ∈ starts, g.Reaches s.1 s.2 w.1 w.2
  closed  : ∀ w ∈ ws, ∀ u, g.Edge w.1 u → u ∈ done ∨ u ∈ ws.map Prod.fst
  sound   : ∀ w ∈ ws, ¬g.Faulty w.1

variable {g} {path done : List V} {starts starts' ws ws' : List (V × L)} {v : V} {l : L}

theorem Walked.nil : g.Walked path done [] [] := by
  constructor <;> simp

theorem Walked.skip (h : g.Walked path done starts ws) (hv : v ∈ done) (l : L) :
    g.Walked path done ((v, l) :: starts) ws where
  nodup   := h.nodup
  new     := h.new
  started := List.forall_mem_cons.mpr ⟨.inl hv, h.started⟩
  reaches := fun w hw => have ⟨s, hs, hr⟩ := h.reaches w hw; ⟨s, List.mem_cons_of_mem _ hs, hr⟩
  closed  := h.closed
  sound   := h.sound

theorem Walked.append (h : g.Walked path done starts ws)
    (h' : g.Walked path (done ++ ws.map Prod.fst) starts' ws') :
    g.Walked path done (starts ++ starts') (ws ++ ws') := by
  have hmem {u : V} (hu : u ∈ done ++ ws.map Prod.fst ∨ u ∈ ws'.map Prod.fst) :
      u ∈ done ∨ u ∈ (ws ++ ws').map Prod.fst := by
    rw [List.mem_append, or_assoc] at hu
    rwa [List.map_append, List.mem_append]
  have hleft {u : V} (hu : u ∈ done ∨ u ∈ ws.map Prod.fst) :
      u ∈ done ∨ u ∈ (ws ++ ws').map Prod.fst :=
    hmem <| .inl <| List.mem_append.mpr hu
  constructor
  case nodup =>
    rw [List.map_append, List.nodup_append]
    refine ⟨h.nodup, h'.nodup, fun u hu u' hu' he => ?_⟩
    have ⟨w, hw, hwu⟩ := List.mem_map.mp hu'
    exact (h'.new w hw).left <| List.mem_append_right _ (hwu ▸ he ▸ hu)
  case new =>
    refine List.forall_mem_append.mpr ⟨h.new, fun w hw => ⟨fun hd => ?_, (h'.new w hw).right⟩⟩
    exact (h'.new w hw).left <| List.mem_append_left _ hd
  case started =>
    exact List.forall_mem_append.mpr ⟨fun s hs => hleft (h.started s hs),
      fun s hs => hmem (h'.started s hs)⟩
  case reaches =>
    refine List.forall_mem_append.mpr ⟨fun w hw => ?_, fun w hw => ?_⟩
    · have ⟨s, hs, hr⟩ := h.reaches w hw
      exact ⟨s, List.mem_append_left _ hs, hr⟩
    · have ⟨s, hs, hr⟩ := h'.reaches w hw
      exact ⟨s, List.mem_append_right _ hs, hr⟩
  case closed =>
    exact List.forall_mem_append.mpr ⟨fun w hw u hu => hleft (h.closed w hw u hu),
      fun w hw u hu => hmem (h'.closed w hw u hu)⟩
  case sound => exact List.forall_mem_append.mpr ⟨h.sound, h'.sound⟩

-- What is walked along the edges of a vertex, with the vertex before it.
theorem Walked.cons {es : List (E × V)} (he : g.edges v = some es) (hpath : v ∉ path)
    (hdone : v ∉ done) (hsound : ∀ u ∈ done, ¬g.Faulty u)
    (h : g.Walked (v :: path) done (es.map fun (e, w) => (w, g.extend l e w)) ws) :
    g.Walked path done [(v, l)] ((v, l) :: ws) := by
  have hedge {u : V} (hu : g.Edge v u) : u ∈ done ∨ u ∈ ws.map Prod.fst := by
    have ⟨es', he', e, hm⟩ := hu
    cases he ▸ he'
    exact h.started _ <| List.mem_map_of_mem hm
  constructor
  case nodup =>
    refine List.nodup_cons.mpr ⟨fun hv => ?_, h.nodup⟩
    have ⟨w, hw, hwv⟩ := List.mem_map.mp hv
    exact (h.new w hw).right <| hwv ▸ List.mem_cons_self
  case new =>
    refine List.forall_mem_cons.mpr ⟨⟨hdone, hpath⟩, fun w hw => ⟨(h.new w hw).left, fun hp => ?_⟩⟩
    exact (h.new w hw).right <| List.mem_cons_of_mem _ hp
  case started => simp
  case reaches =>
    refine List.forall_mem_cons.mpr ⟨⟨_, List.mem_singleton_self _, .refl⟩, fun w hw => ?_⟩
    have ⟨s, hs, hr⟩ := h.reaches w hw
    have ⟨⟨e, u⟩, hm, hs⟩ := List.mem_map.mp hs
    cases hs
    exact ⟨_, List.mem_singleton_self _, .head he hm hr⟩
  case closed =>
    refine List.forall_mem_cons.mpr ⟨fun u hu => ?_, fun w hw u hu => ?_⟩
    · exact (hedge hu).imp_right (List.mem_cons_of_mem _)
    · exact (h.closed w hw u hu).imp_right (List.mem_cons_of_mem _)
  case sound =>
    refine List.forall_mem_cons.mpr ⟨not_faulty_of_edges he fun u hu => ?_, h.sound⟩
    obtain hd | hw := hedge hu
    · exact hsound u hd
    · have ⟨w, hw, hwu⟩ := List.mem_map.mp hw
      exact hwu ▸ h.sound w hw

variable [DecidableEq V]

theorem walkEdges_ok {f : List V → V → L → Except Fault (List (V × L))} {es : List (E × V)}
    (hf : ∀ {done v l ws}, v ∉ path → v ∉ done → (∀ u ∈ done, ¬g.Faulty u) →
      f done v l = .ok ws → g.Walked path done [(v, l)] ws)
    (hsound : ∀ u ∈ done, ¬g.Faulty u) (h : g.walkEdges f path l done es = .ok ws) :
    g.Walked path done (es.map fun (e, w) => (w, g.extend l e w)) ws := by
  induction es generalizing done ws
  case nil =>
    cases h
    exact .nil
  case cons e es hi =>
    rw [walkEdges] at h
    split at h
    case isTrue => cases h
    case isFalse hp =>
      split at h
      case isTrue hd => exact (hi hsound h).skip hd _
      case isFalse hd =>
        have ⟨ws₁, hv, h⟩ := bind_ok h
        have ⟨ws₂, hr, h⟩ := bind_ok h
        have hw₁ := hf hp hd hsound hv
        cases h
        refine hw₁.append (hi (List.forall_mem_append.mpr ⟨hsound, fun u hu => ?_⟩) hr)
        have ⟨w, hw, hwu⟩ := List.mem_map.mp hu
        exact hwu ▸ hw₁.sound w hw

theorem visit_ok {depth : Nat} (hpath : v ∉ path) (hdone : v ∉ done)
    (hsound : ∀ u ∈ done, ¬g.Faulty u) (h : g.visit depth path done v l = .ok ws) :
    g.Walked path done [(v, l)] ws := by
  induction depth generalizing path done v l ws
  case zero => cases h
  case succ depth hi =>
    rw [visit] at h
    match he : g.edges v, h with
    | some es, h =>
      have ⟨ws, hw, h⟩ := bind_ok h
      cases h
      exact .cons he hpath hdone hsound (walkEdges_ok hi hsound hw)

-- A vertex along a path whose vertices lead back to it.
theorem walkEdges_error {f : List V → V → L → Except Fault (List (V × L))} {es : List (E × V)}
    {fault : Fault} (hf : ∀ {done w l fault}, g.Edge v w → f done w l = .error fault →
      fault ≠ .depth → g.Faulty w)
    (hpath : ∀ u ∈ path, g.Reachable u v) (hes : ∀ e ∈ es, g.Edge v e.2)
    (h : g.walkEdges f path l done es = .error fault) (hd : fault ≠ .depth) : g.Faulty v := by
  induction es generalizing done
  case nil => cases h
  case cons e es hi =>
    have ⟨he, hes⟩ := List.forall_mem_cons.mp hes
    rw [walkEdges] at h
    split at h
    case isTrue hp => exact ⟨v, .refl, .inl (.head' he (hpath _ hp))⟩
    case isFalse =>
      split at h
      case isTrue => exact hi hes h
      case isFalse =>
        obtain hv | ⟨_, _, h⟩ := bind_error_iff.mp h
        · exact .of_edge he (hf he hv hd)
        · obtain hr | ⟨_, _, h⟩ := bind_error_iff.mp h
          · exact hi hes hr
          · cases h

theorem visit_error {depth : Nat} {fault : Fault} (hpath : ∀ u ∈ path, g.Reachable u v)
    (h : g.visit depth path done v l = .error fault) (hd : fault ≠ .depth) : g.Faulty v := by
  induction depth generalizing path done v l fault
  case zero =>
    cases h
    exact absurd rfl hd
  case succ depth hi =>
    rw [visit] at h
    match he : g.edges v, h with
    | none, h => exact ⟨v, .refl, .inr he⟩
    | some es, h =>
      obtain hw | ⟨_, _, h⟩ := bind_error_iff.mp h
      · refine walkEdges_error (fun {done w l fault} hvw hv hd => hi (fun u hu => ?_) hv hd)
          (List.forall_mem_cons.mpr ⟨.refl, hpath⟩) (fun e hm => ⟨es, he, e.1, hm⟩) hw hd
        exact (List.forall_mem_cons.mpr ⟨.refl, hpath⟩ u hu).tail hvw
      · cases h

-- A path has no more vertices than there are, so the depth runs out only where it is too small.
theorem walkEdges_depth {f : List V → V → L → Except Fault (List (V × L))} {es : List (E × V)}
    (hf : ∀ {done w l}, w ∉ path → f done w l ≠ .error .depth) :
    g.walkEdges f path l done es ≠ .error .depth := by
  induction es generalizing done
  case nil => simp [walkEdges]
  case cons e es hi =>
    rw [walkEdges]
    split
    case isTrue => simp
    case isFalse hp =>
      split
      case isTrue => exact hi
      case isFalse =>
        intro h
        obtain hv | ⟨_, _, h⟩ := bind_error_iff.mp h
        · exact hf hp hv
        · obtain hr | ⟨_, _, h⟩ := bind_error_iff.mp h
          · exact hi hr
          · cases h

theorem visit_depth {depth : Nat} {vs : List V} (hvs : ∀ v es, g.edges v = some es → v ∈ vs)
    (hn : (v :: path).Nodup) (hpath : ∀ u ∈ path, u ∈ vs)
    (hl : vs.length < depth + path.length) : g.visit depth path done v l ≠ .error .depth := by
  induction depth generalizing path done v l
  case zero =>
    have hle := (List.subperm_of_subset (List.nodup_cons.mp hn).right hpath).length_le
    omega
  case succ depth hi =>
    rw [visit]
    split
    case h_1 => simp
    case h_2 es he =>
      intro h
      obtain hw | ⟨_, _, h⟩ := bind_error_iff.mp h
      · refine walkEdges_depth (fun {done w l} hw => ?_) hw
        exact hi (List.nodup_cons.mpr ⟨hw, hn⟩) (List.forall_mem_cons.mpr ⟨hvs v es he, hpath⟩)
          (by rw [List.length_cons]; omega)
      · cases h

-- A walk that the depth was enough for is the same at any greater depth.
theorem walkEdges_congr {f f' : List V → V → L → Except Fault (List (V × L))} {es : List (E × V)}
    (hf : ∀ {done w l}, f done w l ≠ .error .depth → f' done w l = f done w l)
    (h : g.walkEdges f path l done es ≠ .error .depth) :
    g.walkEdges f' path l done es = g.walkEdges f path l done es := by
  induction es generalizing done
  case nil => rfl
  case cons e es hi =>
    rw [walkEdges] at h ⊢
    rw [walkEdges]
    split
    case isTrue => rfl
    case isFalse hp =>
      rw [if_neg hp] at h
      split
      case isTrue hd =>
        rw [if_pos hd] at h
        exact hi h
      case isFalse hd =>
        rw [if_neg hd] at h
        have hv : f done e.2 (g.extend l e.1 e.2) ≠ .error .depth := fun hv => h (by rw [hv]; rfl)
        rw [hf hv]
        cases hr : f done e.2 (g.extend l e.1 e.2)
        case error => rfl
        case ok ws =>
          rw [hr] at h
          have hw : g.walkEdges f path l (done ++ ws.map Prod.fst) es ≠ .error .depth :=
            fun hw => h (bind_error_iff.mpr <| .inr ⟨ws, rfl, bind_error_iff.mpr <| .inl hw⟩)
          exact congrArg (· >>= fun ws' => pure (ws ++ ws')) (hi hw)

theorem visit_succ {depth : Nat} (h : g.visit depth path done v l ≠ .error .depth) :
    g.visit (depth + 1) path done v l = g.visit depth path done v l := by
  induction depth generalizing path done v l
  case zero => exact absurd rfl h
  case succ depth hi =>
    rw [visit] at h ⊢
    rw [visit]
    cases he : g.edges v
    case none => rfl
    case some es =>
      rw [he] at h
      refine congrArg (· >>= fun ws => pure ((v, l) :: ws)) (walkEdges_congr hi fun hw => h ?_)
      exact bind_error_iff.mpr <| .inl hw

theorem visit_of_le {depth depth' : Nat} (hle : depth ≤ depth')
    (h : g.visit depth path done v l ≠ .error .depth) :
    g.visit depth' path done v l = g.visit depth path done v l := by
  induction hle
  case refl      => rfl
  case step _ hi => rw [visit_succ (hi ▸ h), hi]

variable (g)

-- A whole walk: the vertices that are reachable from its start, each once.
structure WholeWalk (v : V) (l : L) (ws : List (V × L)) : Prop where
  nodup   : (ws.map Prod.fst).Nodup
  mem_iff : ∀ u, u ∈ ws.map Prod.fst ↔ g.Reachable v u
  reaches : ∀ w ∈ ws, g.Reaches v l w.1 w.2

variable {g}

omit [DecidableEq V] in
theorem Walked.whole (h : g.Walked [] [] [(v, l)] ws) : g.WholeWalk v l ws := by
  have hreaches (w : V × L) (hw : w ∈ ws) : g.Reaches v l w.1 w.2 := by
    have ⟨s, hs, hr⟩ := h.reaches w hw
    cases List.mem_singleton.mp hs
    exact hr
  refine ⟨h.nodup, fun u => ⟨fun hu => ?_, fun hr => ?_⟩, hreaches⟩
  · have ⟨w, hw, hwu⟩ := List.mem_map.mp hu
    exact hwu ▸ (hreaches w hw).reachable
  · induction hr
    case refl => simpa using h.started _ (List.mem_singleton_self _)
    case tail hr he hi =>
      have ⟨w, hw, hwu⟩ := List.mem_map.mp hi
      simpa using h.closed w hw _ (hwu ▸ he)

-- From a vertex without faults the walk takes in all that is reachable.
theorem visit_spec {depth : Nat} {vs : List V} (hvs : ∀ v es, g.edges v = some es → v ∈ vs)
    (hl : vs.length < depth) (v : V) (l : L) :
    (∃ ws, g.visit depth [] [] v l = .ok ws ∧ g.WholeWalk v l ws ∧ ¬g.Faulty v) ∨
      (∃ fault, fault ≠ .depth ∧ g.visit depth [] [] v l = .error fault) ∧ g.Faulty v := by
  cases h : g.visit depth [] [] v l
  case ok ws =>
    have hw := visit_ok List.not_mem_nil List.not_mem_nil (by simp) h
    have ⟨s, hs, hv⟩ := List.mem_map.mp (hw.whole.mem_iff v |>.mpr .refl)
    exact .inl ⟨ws, rfl, hw.whole, hv ▸ hw.sound s hs⟩
  case error fault =>
    have hd : fault ≠ .depth := fun hd =>
      visit_depth hvs (by simp) (by simp) hl (hd ▸ h)
    exact .inr ⟨⟨fault, hd, rfl⟩, visit_error (by simp) h hd⟩

end LinkGraph

-- Forests of numbers, by the children of every number. A parent is smaller than its children.

namespace Forest

-- A number before its children, down to a depth.
def preorder (children : Nat → List Nat) : (depth : Nat) → Nat → List Nat
  | 0,         _ => []
  | depth + 1, i => i :: (children i).flatMap (preorder children depth)

-- Every number below a bound is a root or the child of one number, once.
structure Grown (children : Nat → List Nat) (parent : Nat → Option Nat) (roots : List Nat) (n : Nat) : Prop where
  roots    : ∀ j, roots.count j = if j < n ∧ parent j = none then 1 else 0
  children : ∀ i j, (children i).count j = if parent j = some i then 1 else 0
  smaller  : ∀ i j, parent j = some i → i < j ∧ j < n

variable {children : Nat → List Nat} {parent : Nat → Option Nat} {roots : List Nat} {n : Nat}

theorem perm_cons_flatMap {α : Type*} (xs : List α) (f : α → List α) :
    (xs.flatMap fun x => x :: f x).Perm (xs ++ xs.flatMap f) := by
  have hp := List.flatMap_append_perm xs (fun x => [x]) f
  rw [List.flatMap_singleton'] at hp
  exact hp.symm

-- One level more adds the children of what is there.
theorem preorder_succ_perm (depth i : Nat) : (preorder children (depth + 1) i).Perm
    (i :: (preorder children depth i).flatMap children) := by
  induction depth generalizing i with
  | zero          => simp [preorder]
  | succ depth hi =>
    rw [preorder, preorder, List.flatMap_cons, List.flatMap_assoc]
    refine List.Perm.cons i ?_
    exact (List.Perm.flatMap_left _ fun c _ => hi c).trans (perm_cons_flatMap _ _)

theorem flatMap_preorder_succ_perm (depth : Nat) (roots : List Nat) : (roots.flatMap (preorder children (depth + 1))).Perm
    (roots ++ (roots.flatMap (preorder children depth)).flatMap children) := by
  rw [List.flatMap_assoc]
  exact (List.Perm.flatMap_left _ fun i _ => preorder_succ_perm depth i).trans (perm_cons_flatMap _ _)

-- What comes from one place only is there as often as that place.
theorem count_flatMap {f : Nat → List Nat} {p : Option Nat} {j : Nat}
    (h : ∀ x, (f x).count j = if p = some x then 1 else 0) (xs : List Nat) :
    (xs.flatMap f).count j = p.elim 0 xs.count := by
  induction xs with
  | nil          => cases p <;> rfl
  | cons x xs hi =>
    rw [List.flatMap_cons, List.count_append, hi, h]
    cases p with
    | none   => rfl
    | some i =>
      by_cases hx : i = x
      case pos => simp [hx, Nat.add_comm]
      case neg => simp [hx, Ne.symm hx]

theorem count_preorder (h : Grown children parent roots n) {depth j : Nat} (hj : j < n → j < depth) :
    (roots.flatMap (preorder children depth)).count j = if j < n then 1 else 0 := by
  induction depth generalizing j with
  | zero          =>
    have hn : ¬j < n := fun hn => Nat.not_lt_zero j (hj hn)
    have he : roots.flatMap (preorder children 0) = [] := List.flatMap_eq_nil_iff.mpr fun _ _ => rfl
    rw [if_neg hn, he, List.count_nil]
  | succ depth hi =>
    rw [(flatMap_preorder_succ_perm depth roots).count_eq, List.count_append, h.roots, count_flatMap (h.children · j)]
    cases hp : parent j with
    | none   => simp
    | some i =>
      have ⟨hlt, hn⟩ := h.smaller i j hp
      have hd : i < n → i < depth := fun _ => Nat.lt_of_lt_of_le hlt <| Nat.le_of_lt_succ (hj hn)
      simp [hn, hi hd, Nat.lt_trans hlt hn]

-- A walk from the roots meets everything once.
theorem preorder_perm (h : Grown children parent roots n) {depth : Nat} (hd : n ≤ depth) :
    (roots.flatMap (preorder children depth)).Perm (List.range n) := by
  refine List.perm_iff_count.mpr fun j => ?_
  rw [count_preorder h fun hj => Nat.lt_of_lt_of_le hj hd, List.nodup_range.count]
  simp

end Forest
