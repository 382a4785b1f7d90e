import Covsight.Lib.StableSort
import Covsight.Ncdb.Theorems.NcdbMerger

namespace NcdbReader

open Attrs (rankAt)

-- The nodes of an archive as the reader creates them, before attributes are set.
def createdNodes (a : Archive) : List HistoryNode :=
  a.history.map HistoryNode.reread

theorem readHistory_eq (a : Archive) : readHistory a = attachAttrs a.attrs (createdNodes a) :=
  rfl

theorem readHistory_getElem? (a : Archive) (p : Nat) :
    (readHistory a)[p]? = (createdNodes a)[p]?.map fun hn =>
      { hn with attributes := nodeAttrs a.attrs (createdNodes a) p hn } := by
  rw [readHistory_eq]
  refine attachAttrs_getElem? _ (fun hn hm => ?_) p
  have ⟨_, _, he⟩ := List.mem_map.mp hm
  rw [← he]
  rfl

theorem readHistory_length (a : Archive) : (readHistory a).length = a.history.length := by
  rw [readHistory]
  split
  · rw [List.length_map]
  · rw [Attrs.applyHistory_length, List.length_map]

theorem readHistory_kinds (a : Archive) :
    (readHistory a).map (·.kind) = (createdNodes a).map (·.kind) := by
  apply List.ext_getElem?
  intro p
  rw [List.getElem?_map, readHistory_getElem?, List.getElem?_map, Option.map_map]
  rfl

end NcdbReader

namespace NcdbMerger

open NcdbReader
open Attrs (rankAt)

-- An attribute of the node at a position.
def attributeAt (nodes : List HistoryNode) (p : Nat) (key : String) : Option String :=
  nodes[p]?.bind (·.attributes.get? key)

-- The attributes of the nodes of a kind, in order.
def attrsOfKind (nodes : List HistoryNode) (kind : HistoryNodeKind) : List (Dict String String) :=
  (historyNodesOf nodes kind).map (·.attributes)

theorem historyNodesOf_eq {kind : HistoryNodeKind} (h : kind ≠ .all) (nodes : List HistoryNode) :
    historyNodesOf nodes kind = nodes.filter (·.kind = some kind) := by
  simp [historyNodesOf, h]

theorem mem_of_mem_historyNodesOf {hn : HistoryNode} {nodes : List HistoryNode}
    {kind : HistoryNodeKind} (h : hn ∈ historyNodesOf nodes kind) : hn ∈ nodes :=
  List.mem_of_mem_filter h

theorem attrsOfKind_getElem? {kind : HistoryNodeKind} (h : kind ≠ .all) {nodes : List HistoryNode}
    {p : Nat} {hn : HistoryNode} (hp : nodes[p]? = some hn) (hk : hn.kind = some kind) :
    (attrsOfKind nodes kind)[rankAt kind nodes p]? = some hn.attributes := by
  rw [attrsOfKind, historyNodesOf_eq h, List.getElem?_map]
  have hr := rank.getElem?_filter (p := (·.kind = some kind)) hp (by simpa using hk)
  exact congrArg (Option.map _) hr

section Positions

variable {nodes merged : List HistoryNode} {attrs : Option Attrs}

-- A merged history takes over the nodes in order and ends with a merge node; each of its nodes gets
-- the attributes that the merged member has for it.
structure TakesOver (nodes merged : List HistoryNode) (attrs : Option Attrs) : Prop where
  kinds  : merged.map (·.kind) = nodes.map (·.kind) ++ [some .merge]
  attrs  : ∀ p hn, merged[p]? = some hn → hn.attributes = nodeAttrs attrs merged p hn
  others : ∀ hn ∈ nodes, hn.kind ≠ some .test → hn.kind ≠ some .merge → hn.attributes = ∅

namespace TakesOver

theorem length (h : TakesOver nodes merged attrs) : merged.length = nodes.length + 1 := by
  have hl := congrArg List.length h.kinds
  simpa using hl

theorem kind_at (h : TakesOver nodes merged attrs) (p : Nat) :
    (merged[p]?.map (·.kind)) = (nodes.map (·.kind) ++ [some .merge])[p]? := by
  rw [← List.getElem?_map, h.kinds]

theorem rankAt_eq (h : TakesOver nodes merged attrs) (kind : HistoryNodeKind) {p : Nat}
    (hp : p ≤ nodes.length) : rankAt kind merged p = rankAt kind nodes p := by
  have hr : ∀ ns : List HistoryNode, rankAt kind ns p
      = rank (· = some kind) (ns.map (·.kind)) p := by
    intro ns
    rw [rankAt, rank, ← List.map_take, List.countP_map]
    rfl
  rw [hr, hr, h.kinds, rank.append_left (by simpa using hp)]

theorem rankAt_length (kind : HistoryNodeKind) (hk : kind ≠ .all) (nodes : List HistoryNode) :
    rankAt kind nodes nodes.length = (attrsOfKind nodes kind).length := by
  rw [attrsOfKind, List.length_map, historyNodesOf_eq hk]
  exact rank.length nodes

-- A node of a kind is found at its rank in what the merged member says.
theorem attributeAt_of_kind (h : TakesOver nodes merged attrs) {kind : HistoryNodeKind}
    (hk : kind = .test ∨ kind = .merge) {p : Nat} {hn : HistoryNode} (hp : merged[p]? = some hn)
    (hh : hn.kind = some kind) (key : String) :
    attributeAt merged p key = (attrsOfNode attrs kind (rankAt kind merged p)).get? key := by
  rw [attributeAt, hp, Option.bind_some, h.attrs p hn hp, nodeAttrs]
  cases hk
  case inl hk => rw [if_pos (hk ▸ hh), hk]
  case inr hk => rw [if_neg (by simp [hh, hk]), if_pos (hk ▸ hh), hk]

theorem attributeAt_source {kind : HistoryNodeKind} (hk : kind ≠ .all) {p : Nat} {hn : HistoryNode}
    (hp : nodes[p]? = some hn) (hh : hn.kind = some kind) (key : String) :
    attributeAt nodes p key
      = ((attrsOfKind nodes kind)[rankAt kind nodes p]?).bind (·.get? key) := by
  rw [attributeAt, hp, attrsOfKind_getElem? hk hp hh]
  rfl

theorem attrsOfKind_length (kind : HistoryNodeKind) (hk : kind ≠ .all) (nodes : List HistoryNode) :
    (attrsOfKind nodes kind).length = (nodes.map (·.kind)).countP (· = some kind) := by
  rw [attrsOfKind, List.length_map, historyNodesOf_eq hk, List.countP_map, List.countP_eq_length_filter]
  rfl

-- The tests are those of the sources; there is one more merge node.

theorem tests_length (h : TakesOver nodes merged attrs) :
    (attrsOfKind merged .test).length = (attrsOfKind nodes .test).length := by
  rw [attrsOfKind_length _ (by simp), attrsOfKind_length _ (by simp), h.kinds]
  simp

theorem merges_length (h : TakesOver nodes merged attrs) :
    (attrsOfKind merged .merge).length = (attrsOfKind nodes .merge).length + 1 := by
  rw [attrsOfKind_length _ (by simp), attrsOfKind_length _ (by simp), h.kinds]
  simp

-- The attributes stay on their nodes if the member says the same of every test and merge node.
theorem attributeAt_iff (h : TakesOver nodes merged attrs) :
    (∀ p key, attributeAt merged p key = attributeAt nodes p key) ↔
    ∀ kind, kind = .test ∨ kind = .merge → ∀ j < (attrsOfKind merged kind).length, ∀ key,
      (attrsOfNode attrs kind j).get? key = ((attrsOfKind nodes kind)[j]?).bind (·.get? key) := by
  constructor
  · intro ha kind hk j hj key
    have hk' : kind ≠ .all := by cases hk <;> simp [*]
    rw [attrsOfKind, List.length_map, historyNodesOf_eq hk'] at hj
    have ⟨p, hn, hp, hh, hr⟩ := rank.exists_of_lt hj
    have hh : hn.kind = some kind := by simpa using hh
    have hr : rankAt kind merged p = j := hr
    have hpl : p < nodes.length + 1 := h.length ▸ (List.getElem?_eq_some_iff.mp hp).1
    rw [← hr, ← h.attributeAt_of_kind hk hp hh, ha, h.rankAt_eq kind (Nat.le_of_lt_succ hpl)]
    by_cases hlt : p < nodes.length
    case pos =>
      have hs := List.getElem?_eq_getElem hlt
      have hks := h.kind_at p
      rw [hp, List.getElem?_append_left (by simpa using hlt), List.getElem?_map, hs] at hks
      exact attributeAt_source hk' hs ((Option.some.inj hks).symm.trans hh) key
    case neg =>
      have he : p = nodes.length := by omega
      rw [he, rankAt_length kind hk', attributeAt, List.getElem?_eq_none (Nat.le_refl _),
        List.getElem?_eq_none (Nat.le_refl _)]
      rfl
  · intro ha p key
    cases hp : merged[p]?
    case none =>
      have hl := List.getElem?_eq_none_iff.mp hp
      rw [h.length] at hl
      rw [attributeAt, hp, attributeAt, List.getElem?_eq_none (by omega)]
    case some hn =>
      have hpl : p < nodes.length + 1 := h.length ▸ (List.getElem?_eq_some_iff.mp hp).1
      have hj : ∀ {kind}, kind ≠ .all → hn.kind = some kind →
          rankAt kind merged p < (attrsOfKind merged kind).length := by
        intro kind hk hh
        exact (List.getElem?_eq_some_iff.mp (attrsOfKind_getElem? hk hp hh)).1
      by_cases hlt : p < nodes.length
      case pos =>
        have hs := List.getElem?_eq_getElem hlt
        have hks := h.kind_at p
        rw [hp, List.getElem?_append_left (by simpa using hlt), List.getElem?_map, hs] at hks
        have hks : hn.kind = nodes[p].kind := Option.some.inj hks
        have hkind : ∀ {kind}, kind = .test ∨ kind = .merge → kind ≠ .all → hn.kind = some kind →
            attributeAt merged p key = attributeAt nodes p key := by
          intro kind hk hk' hh
          rw [h.attributeAt_of_kind hk hp hh, attributeAt_source hk' hs (hks ▸ hh),
            ha kind hk _ (hj hk' hh), h.rankAt_eq kind (Nat.le_of_lt_succ hpl)]
        by_cases ht : hn.kind = some .test
        case pos => exact hkind (.inl rfl) (by simp) ht
        case neg =>
          by_cases hm : hn.kind = some .merge
          case pos => exact hkind (.inr rfl) (by simp) hm
          case neg =>
            have ho := h.others nodes[p] (List.getElem_mem hlt) (hks ▸ ht) (hks ▸ hm)
            rw [attributeAt, hp, attributeAt, hs, Option.bind_some, Option.bind_some, ho,
              h.attrs p hn hp, nodeAttrs, if_neg ht, if_neg hm]
      case neg =>
        have he : p = nodes.length := by omega
        have hks := h.kind_at p
        rw [hp, he, List.getElem?_append_right (by simp)] at hks
        have hm : hn.kind = some .merge := by simpa using hks
        rw [h.attributeAt_of_kind (.inr rfl) hp hm, ha .merge (.inr rfl) _ (hj (by simp) hm),
          h.rankAt_eq _ (Nat.le_of_lt_succ hpl), he, rankAt_length _ (by simp), attributeAt,
          List.getElem?_eq_none (Nat.le_refl _), List.getElem?_eq_none (Nat.le_refl _)]
        rfl

end TakesOver

end Positions

-- When the attributes of history nodes end up where they belong. While all sources that carry
-- attributes carry the same, these name the nodes of the merged history as they are. Otherwise a
-- test gets what the sources list first under its index in the merged history, whatever the kind,
-- and a merge node gets nothing.
def AttrsInPlace (sources : List Archive) (nodes : List HistoryNode) : Prop :=
  let members := sources.filterMap (·.attrs)
  let tests := attrsOfKind nodes .test
  let merges := attrsOfKind nodes .merge
  ((∀ m ∈ members, ∀ m' ∈ members, m = m') → ∀ m ∈ members, ∀ key,
    (∀ j < tests.length, (m.ofNode .test j).get? key = (tests[j]?).bind (·.get? key)) ∧
    ∀ j ≤ merges.length, (m.ofNode .merge j).get? key = (merges[j]?).bind (·.get? key)) ∧
  (¬(∀ m ∈ members, ∀ m' ∈ members, m = m') → ∀ key,
    (∀ j < tests.length, firstListed members j key = (tests[j]?).bind (·.get? key)) ∧
    ∀ attrs ∈ merges, attrs.get? key = none)

theorem takesOver {target : String} {names : List String} {date : Int} {db : LoadedUCIS}
    {dbs : Archive → LoadedUCIS}
    (hm : mergeSameSchema accel (mergeNode target names date) first rest = .ok out)
    (hr : ∀ a ∈ first :: rest, read a = .ok (dbs a)) (ho : read out = .ok db) :
    TakesOver ((first :: rest).flatMap fun a => (dbs a).historyNodes) db.historyNodes out.attrs := by
  obtain ⟨m⟩ := mergeSameSchema_ok hm
  obtain ⟨rd⟩ := read_ok ho
  have hs : ∀ a ∈ first :: rest, (dbs a).historyNodes = readHistory a := by
    intro a ha
    obtain ⟨rda⟩ := read_ok (hr a ha)
    exact rda.historyNodes_eq
  rw [rd.historyNodes_eq, List.flatMap_congr hs]
  constructor
  case kinds =>
    rw [readHistory_kinds, List.map_flatMap, createdNodes, m.history, mergedHistory,
      List.map_append, List.map_append, List.map_append, List.map_flatMap, List.map_flatMap,
      List.map_flatMap]
    congr 1
    refine List.flatMap_congr fun a _ => ?_
    rw [readHistory_kinds, createdNodes]
    simp [HistoryNode.reread, HistoryNode.store]
  case attrs =>
    intro p hn hp
    rw [readHistory_getElem?] at hp
    obtain ⟨hn', hp', he⟩ := Option.map_eq_some_iff.mp hp
    rw [← he]
    simp only [nodeAttrs, Attrs.rankAt_congr (readHistory_kinds out)]
  case others =>
    intro hn hm ht hme
    obtain ⟨a, _, hm⟩ := List.mem_flatMap.mp hm
    obtain ⟨p, hp⟩ := List.mem_iff_getElem?.mp hm
    rw [readHistory_getElem?] at hp
    obtain ⟨hn', _, he⟩ := Option.map_eq_some_iff.mp hp
    rw [← he] at ht hme ⊢
    rw [nodeAttrs, if_neg ht, if_neg hme]

theorem mergeAnnotational_attrs (members : List Attrs) :
    mergeAnnotational mergeAttrs members
      = if ∀ m ∈ members, ∀ m' ∈ members, m = m' then members.head? else mergeAttrs members := by
  cases members
  case nil => rfl
  case cons m ms =>
    have hi : (∀ m' ∈ m :: ms, ∀ m'' ∈ m :: ms, m' = m'') ↔ ms.all (· = m) := by
      simp only [List.all_eq_true, decide_eq_true_eq]
      refine ⟨fun h m' hm' => h m' (.tail _ hm') m (.head _), fun h m' hm' m'' hm'' => ?_⟩
      have he : ∀ x ∈ m :: ms, x = m := by simpa using h
      rw [he m' hm', he m'' hm'']
    rw [mergeAnnotational]
    by_cases h : ms.all (· = m)
    case pos => rw [if_pos h, if_pos (hi.mpr h)]; rfl
    case neg => rw [if_neg h, if_neg (mt hi.mp h)]

-- Without attributes in any source there are none on any node.
theorem attributes_of_no_member {sources : List Archive} {dbs : Archive → LoadedUCIS}
    (hr : ∀ a ∈ sources, read a = .ok (dbs a)) (hn : sources.filterMap (·.attrs) = [])
    {kind : HistoryNodeKind} {attrs : Dict String String}
    (ha : attrs ∈ attrsOfKind (sources.flatMap fun a => (dbs a).historyNodes) kind) :
    attrs = ∅ := by
  have ⟨hd, hm, he⟩ := List.mem_map.mp ha
  have ⟨a, has, hd⟩ := List.mem_flatMap.mp (mem_of_mem_historyNodesOf hm)
  have ⟨rda⟩ := read_ok (hr a has)
  have ⟨p, hp⟩ := List.mem_iff_getElem?.mp (rda.historyNodes_eq ▸ hd)
  have ⟨_, _, hw⟩ := Option.map_eq_some_iff.mp (readHistory_getElem? a p ▸ hp)
  have hna : a.attrs = none := List.filterMap_eq_nil_iff.mp hn a has
  rw [← he, ← hw, hna]
  change nodeAttrs none _ _ _ = _
  rw [nodeAttrs]
  split <;> [rfl; split <;> rfl]

-- A source with one test, and one whose test has an attribute.
def plainRun : Archive where
  counts    := some []
  manifest  := { pathSeparator := "/" }
  strings   := []
  scopeTree := []
  history   := [{ logicalName := "plain", kind := some .test }]

def annotatedRun : Archive :=
  { plainRun with
    history := [{ logicalName := "annotated", kind := some .test }]
    attrs   := some { history := [((some .test, 0), Dict.empty.set "build" "debug")] }
  }

end NcdbMerger
