import Covsight.Ncdb.Annotations
import Covsight.Lib.Rollup
import Covsight.Ncdb.MemberMerge

namespace Attrs

-- The number of nodes of a kind before a position.
def rankAt (kind : HistoryNodeKind) (nodes : List HistoryNode) (p : Nat) : Nat :=
  (nodes.take p).countP (·.kind = some kind)

section MapOfKind

variable {kind kind' : HistoryNodeKind} {f : Nat → HistoryNode → HistoryNode}

theorem mapOfKind_getElem? (i : Nat) (nodes : List HistoryNode) (p : Nat) :
    (mapOfKind kind f i nodes)[p]? = nodes[p]?.map fun hn =>
      if hn.kind = some kind then f (i + rankAt kind nodes p) hn else hn := by
  induction nodes generalizing i p
  case nil => rfl
  case cons hn hns hi =>
    rw [mapOfKind]
    split
    case isTrue h =>
      cases p
      case zero   => simp [h, rankAt]
      case succ p => simp [hi, rankAt, h, Nat.add_assoc, Nat.add_comm 1]
    case isFalse h =>
      cases p
      case zero   => simp [h]
      case succ p => simp [hi, rankAt, h]

theorem rankAt_congr {nodes nodes' : List HistoryNode}
    (h : nodes'.map (·.kind) = nodes.map (·.kind)) (p : Nat) :
    rankAt kind nodes' p = rankAt kind nodes p := by
  have hc : ∀ ns : List HistoryNode, rankAt kind ns p
      = ((ns.map (·.kind)).take p).countP (· = some kind) := by
    intro ns
    rw [rankAt, ← List.map_take, List.countP_map]
    rfl
  rw [hc, hc, h]

theorem mapOfKind_kinds (kind : HistoryNodeKind) (hf : ∀ i hn, (f i hn).kind = hn.kind)
    (nodes : List HistoryNode) :
    (mapOfKind kind f 0 nodes).map (·.kind) = nodes.map (·.kind) := by
  apply List.ext_getElem?
  intro p
  rw [List.getElem?_map, mapOfKind_getElem?, List.getElem?_map, Option.map_map]
  refine congrArg (Option.map · _) <| funext fun hn => ?_
  simp only [Function.comp_apply]
  split
  · exact hf ..
  · rfl

end MapOfKind

-- What an attribute member says of the node at a position among the nodes of a kind.
def ofNode (a : Attrs) (kind : HistoryNodeKind) (j : Nat) : Dict String String :=
  setAll (a.history.map fun e => ((e.fst.fst.getD .test, e.fst.snd), e.snd)) (kind, j) ∅

-- Nodes of other kinds get no attributes.
theorem applyHistory_getElem? (a : Attrs) {nodes : List HistoryNode}
    (ha : ∀ hn ∈ nodes, hn.attributes = ∅) (p : Nat) :
    (a.applyHistory nodes)[p]? = nodes[p]?.map fun hn => { hn with
      attributes :=
        if hn.kind = some .test then a.ofNode .test (rankAt .test nodes p)
        else if hn.kind = some .merge then a.ofNode .merge (rankAt .merge nodes p)
        else ∅
    } := by
  simp only [applyHistory, ofNode, List.foldl_cons, List.foldl_nil]
  generalize a.history.map _ = entries
  have hk := mapOfKind_kinds .test
    (f := fun i hn => { hn with attributes := setAll entries (.test, i) hn.attributes })
    (fun _ _ => rfl) nodes
  rw [mapOfKind_getElem?, mapOfKind_getElem?, rankAt_congr hk, Option.map_map]
  cases hn : nodes[p]?
  case none => rfl
  case some node =>
    have he := ha node (List.mem_of_getElem? hn)
    have hw : node = { node with attributes := ∅ } := by rw [← he]
    simp only [Option.map_some, Function.comp_apply, Nat.zero_add, Option.some.injEq]
    by_cases ht : node.kind = some .test
    case pos => simp [ht, he]
    case neg =>
      by_cases hm : node.kind = some .merge
      case pos => simp [hm, he]
      case neg => simp [ht, hm, ← hw]

theorem applyHistory_length (a : Attrs) (nodes : List HistoryNode) :
    (a.applyHistory nodes).length = nodes.length := by
  have hl : ∀ (kind : HistoryNodeKind) (f : Nat → HistoryNode → HistoryNode) (i : Nat)
      (ns : List HistoryNode), (mapOfKind kind f i ns).length = ns.length := by
    intro kind f i ns
    induction ns generalizing i
    case nil => rfl
    case cons hn hns hi =>
      rw [mapOfKind]
      split <;> rw [List.length_cons, hi, List.length_cons]
  simp only [applyHistory, List.foldl_cons, List.foldl_nil, hl]

-- Of several entries of a key the last one wins.
theorem get?_setAll {κ : Type} [DecidableEq κ] (entries : List (κ × Dict String String)) (key : κ)
    (attrs : Dict String String) (k : String) :
    (setAll entries key attrs).get? k
      = ((entries.filter (·.fst = key)).map Prod.snd).foldl (fun acc d => (d.get? k).or acc)
        (attrs.get? k) := by
  induction entries generalizing attrs
  case nil => rfl
  case cons e entries hi =>
    rw [setAll, List.foldl_cons, ← setAll, hi]
    by_cases he : e.fst = key <;> simp [he, Dict.get?_update]

end Attrs

-- What an optional attribute member says of a node.
def attrsOfNode (a : Option Attrs) (kind : HistoryNodeKind) (j : Nat) : Dict String String :=
  (a.map (·.ofNode kind j)).getD ∅

-- The attributes of the node at a position, by its kind.
def nodeAttrs (a : Option Attrs) (nodes : List HistoryNode) (p : Nat) (hn : HistoryNode) :
    Dict String String :=
  if hn.kind = some .test then attrsOfNode a .test (Attrs.rankAt .test nodes p)
  else if hn.kind = some .merge then attrsOfNode a .merge (Attrs.rankAt .merge nodes p)
  else ∅

-- New nodes together with the attributes that an optional member has for them.
def attachAttrs (a : Option Attrs) (nodes : List HistoryNode) : List HistoryNode :=
  match a with
  | none       => nodes
  | some attrs => attrs.applyHistory nodes

theorem attachAttrs_getElem? (a : Option Attrs) {nodes : List HistoryNode}
    (he : ∀ hn ∈ nodes, hn.attributes = ∅) (p : Nat) :
    (attachAttrs a nodes)[p]? = nodes[p]?.map fun hn =>
      { hn with attributes := nodeAttrs a nodes p hn } := by
  cases a
  case some attrs => exact Attrs.applyHistory_getElem? attrs he p
  case none =>
    change nodes[p]? = _
    cases hn : nodes[p]?
    case none => rfl
    case some node =>
      have hw : node = { node with attributes := ∅ } := by rw [← he _ (List.mem_of_getElem? hn)]
      rw [Option.map_some, nodeAttrs]
      exact congrArg some <| hw.trans (by congr; split <;> [rfl; split <;> rfl])

-- Merging formal statuses is joining them one after the other.

abbrev FormalStatus := Fin 7

namespace FormalStatus

-- What a number tells; one that is no status tells as much as no status.
def of (status : Nat) : FormalStatus :=
  if h : status < 7 then ⟨status, h⟩ else 0

def best (a b : Nat) : Nat :=
  if formalStatusRank a < formalStatusRank b then b else a

def join (a b : FormalStatus) : FormalStatus :=
  if (a.val = formalProof ∧ b.val = formalFailure) ∨ (a.val = formalFailure ∧ b.val = formalProof) then
    6
  else
    of (best a b)

instance : Std.Commutative join :=
  ⟨by decide⟩

instance : Std.Associative join :=
  ⟨by decide⟩

instance : Std.IdempotentOp join :=
  ⟨by decide⟩

instance : Std.LawfulIdentity join 0 where
  left_id  := by decide
  right_id := by decide

theorem rank_none : formalStatusRank formalNone = 0 :=
  rfl

theorem best_assoc (a b c : Nat) : best (best a b) c = best a (best b c) := by
  grind [best]

theorem best_none (a : Nat) : best a formalNone = a := by
  simp [best, rank_none]

theorem foldl_best (known : List Nat) (a : Nat) :
    known.foldl best a = best a (known.foldl best formalNone) := by
  induction known generalizing a
  case nil => exact (best_none a).symm
  case cons s known hi =>
    rw [List.foldl_cons, hi, List.foldl_cons, hi (best formalNone s), ← best_assoc, ← best_assoc,
      best_none]

-- The most informative status of a list is one of the list, and no other is more informative.
theorem foldl_best_mem (known : List Nat) :
    known.foldl best formalNone ∈ formalNone :: known ∧
      ∀ s ∈ known, formalStatusRank s ≤ formalStatusRank (known.foldl best formalNone) := by
  induction known
  case nil => simp
  case cons s known hi =>
    have ⟨hm, hr⟩ := hi
    rw [List.foldl_cons, foldl_best]
    refine ⟨?_, ?_⟩
    · grind [best]
    · grind [best, rank_none]

-- The statuses that are told, without those that tell nothing.
def known (statuses : List Nat) : List Nat :=
  statuses.filter fun s => s ≠ formalNone ∧ s ≤ formalConflict

theorem mergeFormalStatuses_eq (statuses : List Nat) : mergeFormalStatuses statuses =
    if formalProof ∈ known statuses ∧ formalFailure ∈ known statuses then formalConflict
    else (known statuses).foldl best formalNone :=
  rfl

theorem mergeFormalStatuses_lt (statuses : List Nat) : mergeFormalStatuses statuses < 7 := by
  rw [mergeFormalStatuses_eq]
  split
  case isTrue  => decide
  case isFalse =>
    have hm := (foldl_best_mem (known statuses)).1
    cases List.mem_cons.mp hm
    case inl h => rw [h]; decide
    case inr h =>
      have hk := (of_decide_eq_true (List.mem_filter.mp h).2).2
      exact Nat.lt_succ_of_le hk

-- One more status, given the most informative one of the others and whether a proof or a failure is
-- among them, which are not both.
theorem of_best : ∀ (s m : FormalStatus) (p f : Bool), s ≠ 0 →
    (p → formalStatusRank formalProof ≤ formalStatusRank m) →
    (f → formalStatusRank formalFailure ≤ formalStatusRank m) →
    (m.val = formalProof → p) → (m.val = formalFailure → f) → ¬(p ∧ f) →
    of (if (formalProof = s.val ∨ p) ∧ (formalFailure = s.val ∨ f) then formalConflict
      else best (best formalNone s) m) = join s m := by
  decide

theorem of_mergeFormalStatuses_cons (s : Nat) (statuses : List Nat) :
    of (mergeFormalStatuses (s :: statuses)) = join (of s) (of (mergeFormalStatuses statuses)) := by
  by_cases hs : s ≠ formalNone ∧ s ≤ formalConflict
  case neg =>
    have hk : known (s :: statuses) = known statuses := by simp [known, hs]
    have h0 : of s = 0 := by
      rw [of]
      split
      case isTrue h  =>
        simp only [formalNone, formalConflict] at hs
        exact Fin.ext (by simp; omega)
      case isFalse h => rfl
    have hj : ∀ x, join 0 x = x := by decide
    rw [mergeFormalStatuses_eq, mergeFormalStatuses_eq, hk, h0, hj]
  case pos =>
    have hk : known (s :: statuses) = s :: known statuses := by simp [known, hs]
    have hc : ∀ x, join x 6 = 6 := by decide
    have ⟨hm, hr⟩ := foldl_best_mem (known statuses)
    rw [mergeFormalStatuses_eq, mergeFormalStatuses_eq, hk, List.foldl_cons, foldl_best]
    by_cases hb : formalProof ∈ known statuses ∧ formalFailure ∈ known statuses
    case pos =>
      rw [if_pos hb, if_pos ⟨.tail _ hb.1, .tail _ hb.2⟩]
      exact (hc _).symm
    case neg =>
      have hl : s < 7 := Nat.lt_succ_of_le hs.2
      have hml : (known statuses).foldl best formalNone < 7 := by
        have h := mergeFormalStatuses_lt statuses
        rwa [mergeFormalStatuses_eq, if_neg hb] at h
      have hmem : ∀ t, t ≠ formalNone → (known statuses).foldl best formalNone = t →
          decide (t ∈ known statuses) := by
        intro t ht hmt
        exact decide_eq_true <| (List.mem_cons.mp (hmt ▸ hm)).resolve_left ht
      have he := of_best ⟨s, hl⟩ ⟨_, hml⟩ (formalProof ∈ known statuses)
        (formalFailure ∈ known statuses) (fun h => hs.1 (congrArg Fin.val h))
        (fun h => hr _ (of_decide_eq_true h)) (fun h => hr _ (of_decide_eq_true h))
        (hmem _ (by decide)) (hmem _ (by decide)) (by simpa using hb)
      have hof : ∀ t (h : t < 7), of t = ⟨t, h⟩ := fun t h => dif_pos h
      simp only [decide_eq_true_eq] at he
      rw [if_neg hb, hof s hl, hof _ hml, ← he]
      simp only [List.mem_cons]

theorem of_mergeFormalStatuses (statuses : List Nat) :
    of (mergeFormalStatuses statuses) = tally join 0 (statuses.map of) := by
  induction statuses
  case nil               => rfl
  case cons s statuses hi => rw [of_mergeFormalStatuses_cons, hi, List.map_cons, tally.cons]

theorem mergeFormalStatuses_eq_tally (statuses : List Nat) :
    mergeFormalStatuses statuses = (tally join 0 (statuses.map of)).val := by
  rw [← of_mergeFormalStatuses, of, dif_pos (mergeFormalStatuses_lt statuses)]

end FormalStatus
