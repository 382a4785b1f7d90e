import Covsight.Ncdb.Fsm
import Covsight.Ncdb.Theorems.WriteRead

-- What is built again of the state machines of a database.

-- Names

namespace FsmReader

theorem splitArrow_append {before after : List Char} (h : ¬['-', '>'] <:+: before) :
    splitArrow (before ++ '-' :: '>' :: after) = some (before, after) := by
  induction before with
  | nil          => rfl
  | cons c cs hi =>
    have hcs : ¬['-', '>'] <:+: cs := fun hc => h (List.infix_cons hc)
    have hn : ∀ rest, c = '-' → cs ++ '-' :: '>' :: after = '>' :: rest → False := by
      rintro rest rfl he
      cases cs with
      | nil       => simp at he
      | cons _ cs =>
        cases he
        exact h ⟨[], cs, rfl⟩
    rw [List.cons_append, splitArrow, hi hcs]
    · rfl
    · exact hn

end FsmReader

theorem toList_transitionName (fromState toState : String) :
    (transitionName fromState toState).toList = fromState.toList ++ '-' :: '>' :: toState.toList := by
  simp [transitionName]

theorem hasArrow_transitionName (fromState toState : String) : hasArrow (transitionName fromState toState) := by
  rw [hasArrow, decide_eq_true_iff, toList_transitionName]
  exact ⟨fromState.toList, toState.toList, by simp⟩

theorem splitArrow_transitionName {fromState toState : String} (h : hasArrow fromState = false) :
    FsmReader.splitArrow (transitionName fromState toState).toList = some (fromState.toList, toState.toList) := by
  rw [toList_transitionName]
  exact FsmReader.splitArrow_append <| of_decide_eq_false h

-- Steps

inductive FsmStep
  | createState (stateName : String) (stateIndex : Option Int)
  | createTransition (fromState toState : String)
  | createNextTransition (fromState toState : String)
  | incrementVisitCount (stateName : String) (amt : Nat)
  | incrementCount (fromState toState : String) (amt : Nat)
  | incrementCover (inTransitions : Bool) (i amt : Nat)

def FsmStep.apply (fsm : MemFSMScope) : FsmStep → MemFSMScope
  | createState stateName stateIndex          => fsm.createState stateName stateIndex
  | createTransition fromState toState        => fsm.createTransition fromState toState
  | createNextTransition fromState toState    => fsm.createNextTransition fromState toState
  | incrementVisitCount stateName amt         => fsm.incrementVisitCount stateName amt
  | incrementCount fromState toState amt      => fsm.incrementCount fromState toState amt
  | incrementCover inTransitions i amt        => fsm.incrementCover inTransitions i amt

namespace MemFSMScope

variable {fsm fsm' : MemFSMScope} {name : String}

def ofSteps (steps : List FsmStep) : MemFSMScope :=
  steps.foldl FsmStep.apply {}

def keyName (key : String × String) : String :=
  transitionName key.fst key.snd

-- The items are those of the states and transitions, as long as no state is taken for a transition.
structure Consistent (fsm : MemFSMScope) : Prop where
  named       : ∀ key t, fsm.transitions.get? key = some t → t.getName = keyName key
  statesItems : fsm.statesItems.map (·.name) = fsm.states.keys.filter fun name => !hasArrow name
  transItems  : (∀ name ∈ fsm.states, hasArrow name = false) →
    fsm.transItems.map (·.name) = fsm.transitions.keys.map keyName

theorem consistent_empty : Consistent {} where
  named       := nofun
  statesItems := rfl
  transItems  := fun _ => rfl

namespace Consistent

theorem createState (h : fsm.Consistent) (name : String) (index : Option Int) :
    (fsm.createState name index).Consistent := by
  rw [MemFSMScope.createState]
  split
  case isTrue         => exact h
  case isFalse hn     =>
    cases ha : hasArrow name with
    | true  =>
      simp only [createNextCover, fsmItem, ha, if_true]
      refine ⟨h.named, ?_, fun hp => ?_⟩
      · simp only [h.statesItems, Dict.keys_set_of_not_mem hn, List.filter_append]
        simp [ha]
      · have := hp name <| Dict.mem_set_iff.mpr <| .inr rfl
        simp [ha] at this
    | false =>
      simp only [createNextCover, fsmItem, ha, Bool.false_eq_true, if_false]
      refine ⟨h.named, ?_, fun hp => h.transItems fun n hm => hp n <| Dict.mem_set_iff.mpr <| .inl hm⟩
      simp [h.statesItems, Dict.keys_set_of_not_mem hn, List.filter_append, ha]

theorem createTransition (h : fsm.Consistent) (fromState toState : String) :
    (fsm.createTransition fromState toState).Consistent := by
  rw [MemFSMScope.createTransition]
  split
  case isTrue     => exact h
  case isFalse hn =>
    have ha := hasArrow_transitionName fromState toState
    simp only [createNextCover, fsmItem, MemFSMTransition.getName, ha, if_true]
    refine ⟨fun key t ht => ?_, h.statesItems, fun hp => ?_⟩
    · rw [Dict.get?_set] at ht
      split at ht
      case isTrue he => cases ht; rw [← he]; rfl
      case isFalse   => exact h.named key t ht
    · rw [List.map_append, h.transItems hp, Dict.keys_set_of_not_mem hn, List.map_append]
      rfl

theorem incrementVisitCount (h : fsm.Consistent) (name : String) (amt : Nat) :
    (fsm.incrementVisitCount name amt).Consistent := by
  rw [MemFSMScope.incrementVisitCount]
  split
  case h_1       => exact h
  case h_2 s hs  =>
    have hk := Dict.keys_set_of_mem (Dict.mem_of_get? hs) { s with visitCount := s.visitCount + amt }
    refine ⟨h.named, h.statesItems.trans (by rw [hk]), fun hp => h.transItems fun n hm => hp n ?_⟩
    exact Dict.mem_set_iff.mpr <| .inl hm

theorem incrementCount (h : fsm.Consistent) (fromState toState : String) (amt : Nat) :
    (fsm.incrementCount fromState toState amt).Consistent := by
  rw [MemFSMScope.incrementCount]
  split
  case h_1      => exact h
  case h_2 t ht =>
    have hk := Dict.keys_set_of_mem (Dict.mem_of_get? ht) { t with count := t.count + amt }
    refine ⟨fun key t' ht' => ?_, h.statesItems, fun hp => (h.transItems hp).trans (by rw [hk])⟩
    rw [Dict.get?_set] at ht'
    split at ht'
    case isTrue he => cases ht'; exact he ▸ h.named _ t ht
    case isFalse   => exact h.named key t' ht'

theorem map_name_modify (items : List CoverIndex) (i amt : Nat) :
    (items.modify i (·.incrementCover amt)).map (·.name) = items.map (·.name) := by
  apply List.ext_getElem
  · simp
  · intro j _ _
    simp only [List.getElem_map, List.getElem_modify]
    split <;> rfl

theorem incrementCover (h : fsm.Consistent) (inTransitions : Bool) (i amt : Nat) :
    (fsm.incrementCover inTransitions i amt).Consistent := by
  cases inTransitions with
  | false => exact ⟨h.named, (map_name_modify ..).trans h.statesItems, h.transItems⟩
  | true  => exact ⟨h.named, h.statesItems, fun hp => (map_name_modify ..).trans (h.transItems hp)⟩

theorem apply (h : fsm.Consistent) (step : FsmStep) : (step.apply fsm).Consistent := by
  cases step with
  | createState name index        => exact h.createState name index
  | createTransition a b          => exact h.createTransition a b
  | createNextTransition a b      => exact ((h.createState a none).createState b none).createTransition a b
  | incrementVisitCount name amt  => exact h.incrementVisitCount name amt
  | incrementCount a b amt        => exact h.incrementCount a b amt
  | incrementCover b i amt        => exact h.incrementCover b i amt

end Consistent

theorem consistent_ofSteps (steps : List FsmStep) : (ofSteps steps).Consistent := by
  have hfold (fsm : MemFSMScope) (h : fsm.Consistent) : (steps.foldl FsmStep.apply fsm).Consistent := by
    induction steps generalizing fsm with
    | nil             => exact h
    | cons step _ hi  => exact hi _ (h.apply step)
  exact hfold {} consistent_empty

end MemFSMScope

-- States

namespace FsmReader

open FsmWriter (stateEntries)

variable {states : Dict String MemFSMState} {overrides : Dict String Int} {items : List CoverIndex}
variable {name : String} {i : Nat}

theorem keys_entriesFrom_sublist (i : Nat) (es : List (String × MemFSMState)) :
    (((es.zipIdx i).filterMap fun ((name, state), i) =>
      if state.index ≠ i then some (name, state.index) else none).map Prod.fst).Sublist (es.map Prod.fst) := by
  induction es generalizing i with
  | nil         => exact .slnil
  | cons e _ hi =>
    rw [List.zipIdx_cons, List.filterMap_cons]
    by_cases h : e.snd.index ≠ i
    case pos => simpa [h] using hi (i + 1)
    case neg => simpa [h] using (hi (i + 1)).cons e.fst

theorem keys_stateEntries_sublist (states : Dict String MemFSMState) :
    ((stateEntries states).map Prod.fst).Sublist states.keys :=
  keys_entriesFrom_sublist 0 states.entries

theorem position_inj {s s' : MemFSMState} {j : Nat} (h : states.entries[i]? = some (name, s))
    (h' : states.entries[j]? = some (name, s')) : i = j := by
  have hk {j : Nat} {s : MemFSMState} (h : states.entries[j]? = some (name, s)) : states.keys[j]? = some name := by
    rw [Dict.keys, List.getElem?_map, h]
    rfl
  obtain ⟨hi, _⟩ := List.getElem?_eq_some_iff.mp (hk h)
  exact List.getElem?_inj hi states.keys_nodup |>.mp <| (hk h).trans (hk h').symm

-- An index is stored unless it is the position of its state.
theorem index_of_stateEntries {s : MemFSMState} (h : states.entries[i]? = some (name, s)) :
    ((Dict.ofList (stateEntries states)).get? name).getD i = s.index := by
  have hn := states.keys_nodup.sublist (keys_stateEntries_sublist states)
  have hmem (index : Int) : (Dict.ofList (stateEntries states)).get? name = some index
      ↔ s.index = index ∧ index ≠ i := by
    rw [Dict.get?_ofList_of_nodup hn]
    simp only [stateEntries, List.mem_filterMap, List.mem_zipIdx_iff_getElem?]
    constructor
    case mp =>
      rintro ⟨⟨⟨name', s'⟩, j⟩, hj, he⟩
      rw [ite_eq_iff] at he
      obtain ⟨hi, he⟩ | ⟨_, he⟩ := he
      · cases he
        obtain rfl := position_inj h hj
        obtain rfl : s = s' := (Prod.mk.inj (Option.some.inj (h.symm.trans hj))).2
        exact ⟨rfl, hi⟩
      · cases he
    case mpr =>
      rintro ⟨rfl, hi⟩
      exact ⟨((name, s), i), h, if_pos hi⟩
  cases hg : (Dict.ofList (stateEntries states)).get? name with
  | some index => exact ((hmem index).mp hg).1.symm
  | none       =>
    by_contra hi
    have := (hmem s.index).mpr ⟨rfl, Ne.symm hi⟩
    simp [hg] at this

-- Every item becomes a state of its name.
theorem names_zipIdx {α : Type} (f : CoverIndex × Nat → α) (items : List CoverIndex) :
    (items.zipIdx.map fun e => (e.fst.name, f e)).map Prod.fst = items.map (·.name) := by
  have hl := congrArg (List.map (·.name)) <| List.zipIdx_map_fst 0 items
  rw [List.map_map] at hl ⊢
  exact hl

theorem mem_rebuildStates_iff : name ∈ rebuildStates overrides items ↔ name ∈ items.map (·.name) := by
  apply Dict.mem_setAll_iff.trans
  rw [names_zipIdx]
  exact or_iff_right (Dict.not_mem_empty name)

theorem get?_rebuildStates (overrides : Dict String Int) {ci : CoverIndex} (hn : (items.map (·.name)).Nodup) (h : items[i]? = some ci) :
    (rebuildStates overrides items).get? ci.name = some {
      name       := ci.name
      index      := (overrides.get? ci.name).getD i
      visitCount := ci.data.data } := by
  rw [rebuildStates, Dict.get?_ofList_of_nodup]
  · exact List.mem_map.mpr ⟨(ci, i), List.mem_zipIdx_iff_getElem?.mpr h, rfl⟩
  · rwa [names_zipIdx]

end FsmReader

-- Transitions

namespace FsmReader

variable {states : Dict String MemFSMState} {items : List CoverIndex} {keys : List (String × String)}
variable {key : String × String} {i : Nat} {ci : CoverIndex}

-- Keys that are found again in the names of the items.
def Parsed (states : Dict String MemFSMState) (keys : List (String × String)) : Prop :=
  ∀ key ∈ keys, hasArrow key.fst = false ∧ key.fst ∈ states ∧ key.snd ∈ states

-- The transition that an item is built again as.
def counted (key : String × String) (ci : CoverIndex) : MemFSMTransition where
  fromState := key.fst
  toState   := key.snd
  count     := ci.data.data

theorem rebuildTransition_keyName (hk : ci.name = MemFSMScope.keyName key)
    (hp : hasArrow key.fst = false ∧ key.fst ∈ states ∧ key.snd ∈ states) :
    rebuildTransition states ci = some (key, counted key ci) := by
  have hs : FsmReader.splitArrow (transitionName key.fst key.snd).toList = _ := splitArrow_transitionName hp.1
  rw [rebuildTransition, hk, MemFSMScope.keyName, hs]
  simp [hp.2, counted]

theorem mem_of_rebuildTransition {t : MemFSMTransition} (h : rebuildTransition states ci = some (key, t)) :
    key.fst ∈ states ∧ key.snd ∈ states := by
  simp only [rebuildTransition, Option.bind_eq_bind, Option.bind_eq_some_iff] at h
  obtain ⟨_, _, _, hg, he⟩ := h
  cases he
  rw [guard] at hg
  split at hg
  case isTrue hs => exact hs
  case isFalse   => cases hg

theorem filterMap_rebuildTransition (hi : items.map (·.name) = keys.map MemFSMScope.keyName)
    (hp : Parsed states keys) : items.filterMap (rebuildTransition states)
      = (keys.zip items).map fun e => (e.fst, counted e.fst e.snd) := by
  induction items generalizing keys with
  | nil             => simp
  | cons ci items h =>
    obtain ⟨key, keys, rfl, hk, hks⟩ := List.map_eq_cons_iff.mp hi.symm
    rw [List.filterMap_cons, rebuildTransition_keyName hk.symm (hp key (.head _)),
      h hks.symm fun key hm => hp key (.tail _ hm)]
    rfl

theorem get?_rebuildTransitions (hn : keys.Nodup) (hi : items.map (·.name) = keys.map MemFSMScope.keyName)
    (hp : Parsed states keys) (hk : keys[i]? = some key) (hc : items[i]? = some ci) :
    (rebuildTransitions states items).get? key = some (counted key ci) := by
  have hl : keys.length = items.length := by simpa using (congrArg List.length hi).symm
  rw [rebuildTransitions, filterMap_rebuildTransition hi hp, Dict.get?_ofList_of_nodup]
  · exact List.mem_map.mpr ⟨(key, ci), List.mem_of_getElem? <| List.getElem?_zip_eq_some.mpr ⟨hk, hc⟩, rfl⟩
  · rw [List.map_map]
    exact (List.map_fst_zip hl.le).symm ▸ hn

theorem exists_of_mem_rebuildTransitions (h : key ∈ rebuildTransitions states items) :
    ∃ ci ∈ items, ∃ t, rebuildTransition states ci = some (key, t) := by
  have ⟨t, ht⟩ := Dict.exists_get?_of_mem h
  have ⟨ci, hc, he⟩ := List.mem_filterMap.mp <| Dict.mem_of_get?_ofList ht
  exact ⟨ci, hc, t, he⟩

end FsmReader

namespace MemFSMScope

open FsmWriter (stateEntries)
open FsmReader (counted Parsed index_of_stateEntries get?_rebuildStates get?_rebuildTransitions mem_rebuildStates_iff
  mem_of_rebuildTransition exists_of_mem_rebuildTransitions)

variable {fsm fsm' : MemFSMScope} {name : String} {i : Nat}

-- The states with their indices and the transitions with their counts.
structure Rebuilt (fsm fsm' : MemFSMScope) : Prop where
  indices : ∀ name, (fsm'.states.get? name).map (·.index) = (fsm.states.get? name).map (·.index)
  counts  : ∀ key, (fsm'.transitions.get? key).map (·.count) = (fsm.transitions.get? key).map (·.count)

theorem Rebuilt.congr {fsm'' : MemFSMScope} (hs : fsm'.states = fsm''.states)
    (ht : fsm'.transitions = fsm''.transitions) : fsm.Rebuilt fsm' ↔ fsm.Rebuilt fsm'' :=
  ⟨fun h => ⟨hs ▸ h.indices, ht ▸ h.counts⟩, fun h => ⟨hs ▸ h.indices, ht ▸ h.counts⟩⟩

-- No state is taken for a transition, the transitions are between states of the scope, and their items count
-- what they count themselves.
structure Rebuildable (fsm : MemFSMScope) : Prop where
  plain   : ∀ name ∈ fsm.states, hasArrow name = false
  inside  : ∀ key ∈ fsm.transitions, key.fst ∈ fsm.states ∧ key.snd ∈ fsm.states
  tallied : ∀ (i : Nat) (key : String × String) (t : MemFSMTransition) (ci : CoverIndex),
    fsm.transitions.entries[i]? = some (key, t) → fsm.transItems[i]? = some ci → ci.data.data = t.count

-- What is built again from the items and the indices that are stored.
def reread (fsm : MemFSMScope) (statesItems transItems : List CoverIndex) : MemFSMScope :=
  FsmReader.rebuild (.ofList <| stateEntries fsm.states) statesItems transItems

namespace Consistent

variable (h : fsm.Consistent) (hp : ∀ name ∈ fsm.states, hasArrow name = false)

include h

theorem mem_reread_iff : name ∈ (fsm.reread fsm.statesItems fsm.transItems).states
    ↔ name ∈ fsm.states ∧ hasArrow name = false := by
  apply mem_rebuildStates_iff.trans
  rw [h.statesItems, List.mem_filter, Dict.mem_def]
  simp

include hp

theorem names_statesItems : fsm.statesItems.map (·.name) = fsm.states.keys := by
  rw [h.statesItems, List.filter_eq_self]
  intro name hm
  simp [hp name hm]

theorem indices_reread : (((fsm.reread fsm.statesItems fsm.transItems).states.get? name).map (·.index))
    = (fsm.states.get? name).map (·.index) := by
  have hnames := h.names_statesItems hp
  cases hs : fsm.states.get? name with
  | none   =>
    have hn : name ∉ (fsm.reread fsm.statesItems fsm.transItems).states :=
      fun hm => Dict.get?_eq_none_iff.mp hs (h.mem_reread_iff.mp hm).1
    rw [Dict.get?_eq_none_iff.mpr hn]
  | some s =>
    obtain ⟨i, hi⟩ := List.mem_iff_getElem?.mp <| Dict.get?_eq_some_iff.mp hs
    have hk := congrArg (·[i]?) hnames
    simp only [Dict.keys, List.getElem?_map, hi, Option.map_some] at hk
    obtain ⟨ci, hci, hname⟩ := Option.map_eq_some_iff.mp hk
    have hr := get?_rebuildStates (.ofList <| stateEntries fsm.states)
      (hnames ▸ fsm.states.keys_nodup) hci
    rw [hname] at hr
    rw [reread, FsmReader.rebuild, hr]
    exact congrArg some <| index_of_stateEntries hi

theorem exists_item {key : String × String} {t : MemFSMTransition} (ht : fsm.transitions.entries[i]? = some (key, t)) :
    ∃ ci, fsm.transItems[i]? = some ci := by
  have hn := congrArg (·[i]?) (h.transItems hp)
  simp only [Dict.keys, List.getElem?_map, ht, Option.map_some] at hn
  obtain ⟨ci, hc, _⟩ := Option.map_eq_some_iff.mp hn
  exact ⟨ci, hc⟩

variable (hi : ∀ key ∈ fsm.transitions, key.fst ∈ fsm.states ∧ key.snd ∈ fsm.states)

include hi

theorem parsed_keys :
    Parsed (fsm.reread fsm.statesItems fsm.transItems).states fsm.transitions.keys := by
  intro key hk
  have ⟨hf, ht⟩ := hi key hk
  exact ⟨hp _ hf, h.mem_reread_iff.mpr ⟨hf, hp _ hf⟩, h.mem_reread_iff.mpr ⟨ht, hp _ ht⟩⟩

theorem get?_reread {key : String × String} {t : MemFSMTransition} {ci : CoverIndex}
    (ht : fsm.transitions.entries[i]? = some (key, t)) (hc : fsm.transItems[i]? = some ci) :
    (fsm.reread fsm.statesItems fsm.transItems).transitions.get? key = some (counted key ci) := by
  have hk : fsm.transitions.keys[i]? = some key := by rw [Dict.keys, List.getElem?_map, ht]; rfl
  exact get?_rebuildTransitions fsm.transitions.keys_nodup (h.transItems hp) (h.parsed_keys hp hi) hk hc

theorem counts_reread (htallied : ∀ (i : Nat) (key : String × String) (t : MemFSMTransition) (ci : CoverIndex),
    fsm.transitions.entries[i]? = some (key, t) → fsm.transItems[i]? = some ci → ci.data.data = t.count)
    (key : String × String) :
    ((fsm.reread fsm.statesItems fsm.transItems).transitions.get? key).map (·.count)
      = (fsm.transitions.get? key).map (·.count) := by
  cases ht : fsm.transitions.get? key with
  | none   =>
    have hn : key ∉ (fsm.reread fsm.statesItems fsm.transItems).transitions := by
      intro hm
      have ⟨ci, hc, t, hr⟩ := exists_of_mem_rebuildTransitions hm
      have hmem := h.transItems hp ▸ List.mem_map_of_mem (f := CoverIndex.name) hc
      have ⟨key', hk', hname⟩ := List.mem_map.mp hmem
      have hr' := FsmReader.rebuildTransition_keyName hname.symm (h.parsed_keys hp hi key' hk')
      cases hr.symm.trans hr'
      exact Dict.get?_eq_none_iff.mp ht hk'
    rw [Dict.get?_eq_none_iff.mpr hn]
  | some t =>
    have ⟨i, hi'⟩ := List.mem_iff_getElem?.mp <| Dict.get?_eq_some_iff.mp ht
    have ⟨ci, hc⟩ := h.exists_item hp hi'
    rw [h.get?_reread hp hi hi' hc]
    exact congrArg some <| htallied i key t ci hi' hc

end Consistent

-- What is built again of a state machine, exactly when it is what was there.
theorem rebuilt_iff (h : fsm.Consistent) : fsm.Rebuilt (fsm.reread fsm.statesItems fsm.transItems) ↔ fsm.Rebuildable := by
  constructor
  case mp =>
    intro hr
    have hkept : ∀ name ∈ fsm.states, hasArrow name = false := by
      intro name hm
      have ⟨s, hs⟩ := Dict.exists_get?_of_mem hm
      have hi := hr.indices name
      rw [hs] at hi
      have ⟨s', hs', _⟩ := Option.map_eq_some_iff.mp hi
      exact (h.mem_reread_iff.mp <| Dict.mem_of_get? hs').2
    have hinside : ∀ key ∈ fsm.transitions, key.fst ∈ fsm.states ∧ key.snd ∈ fsm.states := by
      intro key hm
      have ⟨t, ht⟩ := Dict.exists_get?_of_mem hm
      have hc := hr.counts key
      rw [ht] at hc
      have ⟨t', ht', _⟩ := Option.map_eq_some_iff.mp hc
      have ⟨_, _, _, hp⟩ := exists_of_mem_rebuildTransitions <| Dict.mem_of_get? ht'
      have ⟨hf, ht⟩ := mem_of_rebuildTransition hp
      exact ⟨(h.mem_reread_iff.mp hf).1, (h.mem_reread_iff.mp ht).1⟩
    refine ⟨hkept, hinside, fun i key t ci ht hc => ?_⟩
    have hcount := hr.counts key
    rw [h.get?_reread hkept hinside ht hc, Dict.get?_eq_some_iff.mpr (List.mem_of_getElem? ht)] at hcount
    exact Option.some.inj hcount
  case mpr =>
    intro ⟨hp, hi, ht⟩
    exact ⟨fun _ => h.indices_reread hp, h.counts_reread hp hi ht⟩

end MemFSMScope

-- The scopes that a state machine is built again from

-- An item as far as its name and its count go.
def CoverIndex.tally (ci : CoverIndex) : CoverIndex :=
  { fsmItem ci.name with data := { (fsmItem ci.name).data with data := ci.data.data } }

namespace FsmReader

variable {states : Dict String MemFSMState} {overrides : Dict String Int} {items items' : List CoverIndex}

theorem rebuildStates_tally : rebuildStates overrides (items.map (·.tally)) = rebuildStates overrides items := by
  rw [rebuildStates, rebuildStates, List.zipIdx_map, List.map_map]
  rfl

theorem rebuildTransitions_tally : rebuildTransitions states (items.map (·.tally)) = rebuildTransitions states items := by
  rw [rebuildTransitions, rebuildTransitions, List.filterMap_map]
  rfl

end FsmReader

namespace Scope

def holdsFsmItems (type : ScopeTypeT) : Bool :=
  type = .fsmStates ∨ type = .fsmTrans

mutual

-- A scope as far as state machines go.
def fsmPart : Scope → Scope
  | mk d is ss =>
    mk { type := d.type, name := "" } (if holdsFsmItems d.type then is.map (·.tally) else []) (fsmPartAll ss)

def fsmPartAll : List Scope → List Scope
  | []      => []
  | s :: ss => s.fsmPart :: fsmPartAll ss

end

theorem fsmPartAll_eq_map (ss : List Scope) : fsmPartAll ss = ss.map fsmPart := by
  induction ss with
  | nil          => rfl
  | cons s ss hi => rw [fsmPartAll, hi, List.map_cons]

theorem fsmPart_eq (s : Scope) : s.fsmPart = mk { type := s.type, name := "" }
    (if holdsFsmItems s.type then s.coverItems.map (·.tally) else []) (s.scopes.map fsmPart) := by
  obtain ⟨d, is, ss⟩ := s
  rw [fsmPart, fsmPartAll_eq_map]
  rfl

theorem type_fsmPart (s : Scope) : s.fsmPart.type = s.type := by
  rw [fsmPart_eq]
  rfl

mutual

theorem dfs_fsmPart : (s : Scope) → s.fsmPart.dfs = s.dfs.map fsmPart
  | mk d is ss => by
    rw [dfs_eq, dfs_eq (mk d is ss), List.map_cons, scopes_mk, ← dfsAll_fsmPart ss, fsmPart, scopes_mk]

theorem dfsAll_fsmPart : (ss : List Scope) → dfsAll (fsmPartAll ss) = (dfsAll ss).map fsmPart
  | []      => rfl
  | s :: ss => by rw [fsmPartAll, dfsAll, dfsAll, List.map_append, dfs_fsmPart s, dfsAll_fsmPart ss]

end

-- What is read of a scope.

theorem tally_storedItem (s : Scope) (ci : CoverIndex) : (s.storedItem ci).tally = ci.tally := by
  rw [storedItem]
  split
  · rfl
  · split <;> rfl

mutual

theorem fsmPart_restored : (s : Scope) → (parent : Option ScopeData) → (s.restored parent).fsmPart = s.fsmPart
  | mk d is ss, parent => by
    rw [fsmPart_eq, fsmPart_eq (mk d is ss), ScopeTreeReader.restored_type, restored_coverItems]
    have hitems : (if holdsFsmItems (mk d is ss).type then
          (((mk d is ss).binItems.map (mk d is ss).storedItem).map (·.tally)) else [])
        = if holdsFsmItems (mk d is ss).type then (mk d is ss).coverItems.map (·.tally) else [] := by
      split
      case isTrue h  =>
        have hp : (mk d is ss).isTogglePair = false := by
          have hn : ¬(mk d is ss).type = .branch := by
            intro hb
            simp [holdsFsmItems, hb] at h
          simp [isTogglePair, hn]
        rw [binItems_of_not_isTogglePair hp, List.map_map]
        exact List.map_congr_left fun ci _ => tally_storedItem ..
      case isFalse h => rfl
    rw [hitems]
    refine congrArg _ ?_
    cases h : (mk d is ss).isTogglePair with
    | true  => rw [restored_scopes_of_isTogglePair parent h, isTogglePair_scopes h]
    | false =>
      rw [restored_scopes_of_not_isTogglePair parent h, ← fsmPartAll_eq_map, ← fsmPartAll_eq_map]
      exact fsmPartAll_restored ss (some d)

theorem fsmPartAll_restored : (ss : List Scope) → (parent : Option ScopeData) →
    fsmPartAll (ss.map (restored parent)) = fsmPartAll ss
  | [],      parent => rfl
  | s :: ss, parent => by rw [List.map_cons, fsmPartAll, fsmPartAll, fsmPart_restored s, fsmPartAll_restored ss]

end

-- Rewriting the scopes in place changes no type, no name and no count of an item.

section Rewrite

variable {f : Option ScopeTypeT → List Scope → Nat → Nat → Scope → ScopeData × List CoverIndex}

mutual

theorem fsmPart_rewrite (ht : ∀ parent siblings i k s, (f parent siblings i k s).fst.type = s.type)
    (hi : ∀ parent siblings i k s, (f parent siblings i k s).snd.map (·.tally) = s.coverItems.map (·.tally)) :
    (s : Scope) → (parent : Option ScopeTypeT) → (siblings : List Scope) → (i k : Nat) →
    (s.rewrite f parent siblings i k).fsmPart = s.fsmPart
  | mk d is ss, parent, siblings, i, k => by
    have hd : (f parent siblings i k (mk d is ss)).fst.type = d.type := ht ..
    have hm : (f parent siblings i k (mk d is ss)).snd.map (·.tally) = is.map (·.tally) := hi ..
    rw [rewrite, fsmPart, fsmPart, hd, hm, fsmPartAll_rewriteAll ht hi ss]

theorem fsmPartAll_rewriteAll (ht : ∀ parent siblings i k s, (f parent siblings i k s).fst.type = s.type)
    (hi : ∀ parent siblings i k s, (f parent siblings i k s).snd.map (·.tally) = s.coverItems.map (·.tally)) :
    (ss : List Scope) → (parent : Option ScopeTypeT) → (siblings : List Scope) → (i k : Nat) →
    fsmPartAll (rewriteAll f parent siblings i k ss) = fsmPartAll ss
  | [],      parent, siblings, i, k => rfl
  | s :: ss, parent, siblings, i, k => by
    rw [rewriteAll, fsmPartAll, fsmPartAll, fsmPart_rewrite ht hi s, fsmPartAll_rewriteAll ht hi ss]

end

end Rewrite

end Scope

namespace MemUCIS

def fsmParts (db : MemUCIS) : List Scope :=
  Scope.fsmPartAll db.scopes

variable {db : MemUCIS}

theorem fsmParts_mapScopeData {g : Nat → ScopeData → ScopeData} (ht : ∀ i d, (g i d).type = d.type) :
    (db.mapScopeData g).fsmParts = db.fsmParts :=
  Scope.fsmPartAll_rewriteAll (fun _ _ _ _ _ => ht ..) (fun _ _ _ _ _ => rfl) ..

theorem fsmParts_mapScopeItems {g : Nat → Nat → Scope → List CoverIndex}
    (hg : ∀ i k s, (g i k s).map (·.tally) = s.coverItems.map (·.tally)) :
    (db.mapScopeItems g).fsmParts = db.fsmParts :=
  Scope.fsmPartAll_rewriteAll (fun _ _ _ _ _ => rfl) (fun _ _ _ _ _ => hg ..) ..

theorem map_tally_mapIdx {h : Nat → CoverIndex → CoverIndex} (hh : ∀ j ci, (h j ci).tally = ci.tally)
    (cis : List CoverIndex) : (cis.mapIdx h).map (·.tally) = cis.map (·.tally) := by
  rw [map_mapIdx]
  simp only [hh]
  exact mapIdx_const ..

theorem fsmParts_mapCoverItems {h : Nat → CoverIndex → CoverIndex} (hh : ∀ n ci, (h n ci).tally = ci.tally) :
    (db.mapCoverItems h).fsmParts = db.fsmParts :=
  fsmParts_mapScopeItems fun _ _ _ => map_tally_mapIdx (fun _ _ => hh ..) _

theorem fsmParts_mapLooseItems {h : Nat → CoverIndex → CoverIndex} (hh : ∀ n ci, (h n ci).tally = ci.tally) :
    (db.mapLooseItems h).fsmParts = db.fsmParts := by
  apply fsmParts_mapScopeItems
  intro _ _ s
  split
  · rfl
  · exact map_tally_mapIdx (fun _ _ => hh ..) _

-- A member that leaves the state machines alone.
def KeepsFsms {α : Type} (apply : α → MemUCIS → MemUCIS) : Prop :=
  ∀ m db, (apply m db).fsmParts = db.fsmParts

namespace KeepsFsms

theorem applying {α : Type} {apply : α → MemUCIS → MemUCIS} (h : KeepsFsms apply) (member : Option α) (db : MemUCIS) :
    (db.applying member apply).fsmParts = db.fsmParts := by
  cases member with
  | none   => rfl
  | some m => exact h m db

theorem tags : KeepsFsms Tags.apply :=
  fun _ _ => fsmParts_mapScopeData fun _ _ => rfl

theorem crosses : KeepsFsms Crosses.apply :=
  fun _ _ => Scope.fsmPartAll_rewriteAll (fun _ _ _ _ _ => rfl) (fun _ _ _ _ _ => rfl) ..

theorem types : KeepsFsms CoveritemTypes.apply := by
  intro runs db
  apply fsmParts_mapLooseItems
  intro n ci
  split <;> rfl

theorem flags : KeepsFsms CoveritemFlags.apply := by
  intro flags db
  rw [CoveritemFlags.apply]
  split
  · rfl
  · exact fsmParts_mapCoverItems fun _ _ => rfl

theorem sources (files : List String) : KeepsFsms fun sources => CoveritemSources.apply sources files := by
  intro sources db
  apply fsmParts_mapLooseItems
  intro n ci
  split
  · rfl
  · split <;> rfl

theorem attrs : KeepsFsms Attrs.apply := by
  intro attrs db
  have hd : (db.mapScopeData fun i d =>
      { d with attributes := Attrs.setAll attrs.scopes i d.attributes }).fsmParts = db.fsmParts :=
    fsmParts_mapScopeData fun _ _ => rfl
  rw [← hd]
  apply fsmParts_mapScopeItems fun i _ _ => ?_
  exact map_tally_mapIdx (h := fun j ci => { ci with attributes := Attrs.setAll attrs.coveritems (i, j) ci.attributes })
    (fun _ _ => rfl) _

theorem of_scopes {α : Type} {apply : α → MemUCIS → MemUCIS} (h : ∀ m db, (apply m db).scopes = db.scopes) :
    KeepsFsms apply :=
  fun m db => congrArg Scope.fsmPartAll (h m db)

end KeepsFsms

theorem fsmParts_applyMembers (a : Archive) (db : MemUCIS) :
    (NcdbReader.applyMembers a db).fsmParts = db.fsmParts :=
  (KeepsFsms.attrs.applying ..).trans <|
    (KeepsFsms.of_scopes scopes_createHistoryNodes ..).trans <|
    (KeepsFsms.of_scopes scopes_createFileHandles ..).trans <|
    ((KeepsFsms.sources a.sources).applying ..).trans <|
    (KeepsFsms.flags.applying ..).trans <|
    (KeepsFsms.types.applying ..).trans <|
    ((KeepsFsms.of_scopes FormalResults.scopes_apply).applying ..).trans <|
    (KeepsFsms.of_scopes Contributions.scopes_apply ..).trans <|
    (KeepsFsms.crosses.applying ..).trans <|
    KeepsFsms.tags.applying ..

end MemUCIS

-- Reading what was written

theorem mem_fsmScopes_iff {db : MemUCIS} {i : Nat} {s : Scope} :
    (i, s) ∈ fsmScopes db ↔ db.dfsScopeList[i]? = some s ∧ s.type = .fsm := by
  rw [fsmScopes, Dict.mem_atPositions_iff]
  constructor
  case mp =>
    intro ⟨s', hs, he⟩
    split at he
    case isTrue ht => cases he; exact ⟨hs, ht⟩
    case isFalse   => cases he
  case mpr =>
    intro ⟨hs, ht⟩
    exact ⟨s, hs, if_pos ht⟩

-- The same parts are at the same positions.
theorem exists_fsmScope {db db' : MemUCIS} {i : Nat} {s : Scope} (h : db'.fsmParts = db.fsmParts)
    (hi : (i, s) ∈ fsmScopes db) : ∃ s', (i, s') ∈ fsmScopes db' ∧ s'.fsmPart = s.fsmPart := by
  obtain ⟨hs, ht⟩ := mem_fsmScopes_iff.mp hi
  have hd := congrArg (·[i]?) <| congrArg Scope.dfsAll h
  simp only [MemUCIS.fsmParts, Scope.dfsAll_fsmPart, List.getElem?_map] at hd
  rw [MemUCIS.dfsScopeList] at hs
  rw [hs] at hd
  obtain ⟨s', hs', he⟩ := Option.map_eq_some_iff.mp hd
  refine ⟨s', mem_fsmScopes_iff.mpr ⟨hs', ?_⟩, he⟩
  rw [← Scope.type_fsmPart, he, Scope.type_fsmPart, ht]

namespace FsmReader

theorem tally_itemsOf {type : ScopeTypeT} (ht : Scope.holdsFsmItems type) (s : Scope) :
    (itemsOf s type).map (·.tally) = itemsOf s.fsmPart type := by
  have hfind : (s.scopes.map Scope.fsmPart).find? (·.type = type) = (s.scopes.find? (·.type = type)).map Scope.fsmPart := by
    rw [List.find?_map]
    simp only [Function.comp_def, Scope.type_fsmPart]
  rw [itemsOf, itemsOf, Scope.fsmPart_eq, Scope.scopes_mk, hfind]
  cases hs : s.scopes.find? (·.type = type) with
  | none    => rfl
  | some s' =>
    have hs' : s'.type = type := of_decide_eq_true <| List.find?_some (p := fun s : Scope => decide (s.type = type)) hs
    simp [Scope.fsmPart_eq s', hs', ht]

theorem mem_apply_iff {db : MemUCIS} {data : FsmMember} {i : Nat} {fsm : MemFSMScope} :
    (i, fsm) ∈ apply db data ↔ ∃ s, (i, s) ∈ fsmScopes db ∧
      rebuild (((Dict.ofList <| data.map fun (fsmIdx, states) => (fsmIdx, Dict.ofList states)).get? i).getD ∅)
        (itemsOf s .fsmStates) (itemsOf s .fsmTrans) = fsm := by
  simp only [apply, List.mem_map, Prod.exists, Prod.mk.injEq]
  constructor
  · rintro ⟨_, s, hs, rfl, he⟩
    exact ⟨s, hs, he⟩
  · rintro ⟨s, hs, he⟩
    exact ⟨i, s, hs, rfl, he⟩

-- The indices that are stored for a state machine.
def stored (fsm : MemFSMScope) : Option (Dict String Int) :=
  let entries := FsmWriter.stateEntries fsm.states
  if entries.isEmpty then none else some (.ofList entries)

theorem getD_stored (fsm : MemFSMScope) : (stored fsm).getD ∅ = .ofList (FsmWriter.stateEntries fsm.states) := by
  simp only [stored]
  split
  case isTrue he => rw [List.isEmpty_iff.mp he]; rfl
  case isFalse   => rfl

theorem overrides_serialize {db : MemUCIS} {fsms : Nat → MemFSMScope} {i : Nat} {s : Scope}
    (hi : (i, s) ∈ fsmScopes db) :
    ((Dict.ofList <| (FsmWriter.serialize db fsms).map fun (fsmIdx, states) =>
        (fsmIdx, Dict.ofList states)).get? i).getD ∅ = .ofList (FsmWriter.stateEntries (fsms i).states) := by
  have hl : ((FsmWriter.serialize db fsms).map fun (fsmIdx, states) => (fsmIdx, Dict.ofList states))
      = ((fsmScopes db).map Prod.fst).filterMap fun i => (stored (fsms i)).map (i, ·) := by
    rw [FsmWriter.serialize, List.map_filterMap, List.filterMap_map]
    refine List.filterMap_congr fun (i, s) _ => ?_
    simp only [stored, Function.comp_def]
    split <;> rfl
  have hk : ((fsmScopes db).map Prod.fst).Nodup := Dict.atPositions_nodup ..
  rw [hl, Dict.get?_ofList_keys hk, if_pos (List.mem_map_of_mem hi), getD_stored]

end FsmReader

namespace MemFSMScope

-- The FSM scopes of a database hold the items of state machines.
def HeldBy (fsms : Nat → MemFSMScope) (db : MemUCIS) : Prop :=
  ∀ i s, (i, s) ∈ fsmScopes db →
    (FsmReader.itemsOf s .fsmStates).map (·.tally) = (fsms i).statesItems.map (·.tally) ∧
    (FsmReader.itemsOf s .fsmTrans).map (·.tally) = (fsms i).transItems.map (·.tally)

-- What is built again of a state machine does not depend on anything else of its scope.
theorem rebuild_itemsOf {fsms : Nat → MemFSMScope} {db : MemUCIS} {i : Nat} {s s' : Scope} (h : HeldBy fsms db)
    (hi : (i, s) ∈ fsmScopes db) (hs : s'.fsmPart = s.fsmPart) (overrides : Dict String Int) :
    (FsmReader.rebuild overrides (FsmReader.itemsOf s' .fsmStates) (FsmReader.itemsOf s' .fsmTrans)).states
      = (FsmReader.rebuild overrides (fsms i).statesItems (fsms i).transItems).states ∧
    (FsmReader.rebuild overrides (FsmReader.itemsOf s' .fsmStates) (FsmReader.itemsOf s' .fsmTrans)).transitions
      = (FsmReader.rebuild overrides (fsms i).statesItems (fsms i).transItems).transitions := by
  have hitems (type : ScopeTypeT) (ht : Scope.holdsFsmItems type) :
      (FsmReader.itemsOf s' type).map (·.tally) = (FsmReader.itemsOf s type).map (·.tally) := by
    rw [FsmReader.tally_itemsOf ht, FsmReader.tally_itemsOf ht, hs]
  have hstates := (hitems .fsmStates rfl).trans (h i s hi).1
  have htrans := (hitems .fsmTrans rfl).trans (h i s hi).2
  have hr {overrides : Dict String Int} : FsmReader.rebuildStates overrides (FsmReader.itemsOf s' .fsmStates)
      = FsmReader.rebuildStates overrides (fsms i).statesItems := by
    rw [← FsmReader.rebuildStates_tally, hstates, FsmReader.rebuildStates_tally]
  refine ⟨hr, ?_⟩
  rw [FsmReader.rebuild, FsmReader.rebuild, hr]
  simp only
  rw [← FsmReader.rebuildTransitions_tally, htrans, FsmReader.rebuildTransitions_tally]

end MemFSMScope

namespace NcdbReader

variable {accel : Bool} {db db' : LoadedUCIS} {v2 : Option V2Members} {out : Archive}

theorem fsmParts_read (w : NcdbWriter.Written accel db v2 out) (hb : Scope.BuiltAll none db.scopes)
    (rd : Read out none db') : db'.toMemUCIS.fsmParts = db.toMemUCIS.fsmParts := by
  rw [rd.members, MemUCIS.fsmParts_applyMembers, MemUCIS.fsmParts, w.scopes_read rd hb]
  exact Scope.fsmPartAll_restored ..

-- The state machine of a scope that is read.
theorem rebuilds_fsm (w : NcdbWriter.Written accel db v2 out) (hb : Scope.BuiltAll none db.scopes)
    (rd : Read out none db') {fsms : Nat → MemFSMScope} (hh : MemFSMScope.HeldBy fsms db.toMemUCIS) {i : Nat} {s : Scope}
    (hi : (i, s) ∈ fsmScopes db.toMemUCIS) (hc : (fsms i).Consistent) :
    (∃ fsm, (i, fsm) ∈ FsmReader.apply db'.toMemUCIS (FsmWriter.serialize db.toMemUCIS fsms) ∧ (fsms i).Rebuilt fsm) ↔
      (fsms i).Rebuildable := by
  have ⟨s', hi', hs'⟩ := exists_fsmScope (fsmParts_read w hb rd) hi
  have ⟨hstates, htrans⟩ := MemFSMScope.rebuild_itemsOf hh hi hs' (.ofList <| FsmWriter.stateEntries (fsms i).states)
  refine Iff.trans ?_ <| (MemFSMScope.Rebuilt.congr hstates htrans).trans <| MemFSMScope.rebuilt_iff hc
  constructor
  case mp =>
    intro ⟨fsm, hm, hrebuilt⟩
    have ⟨s'', hi'', he⟩ := FsmReader.mem_apply_iff.mp hm
    obtain rfl : s' = s'' := by
      have hs := (mem_fsmScopes_iff.mp hi').1.symm.trans (mem_fsmScopes_iff.mp hi'').1
      exact Option.some.inj hs
    rw [FsmReader.overrides_serialize hi] at he
    exact he ▸ hrebuilt
  case mpr =>
    intro hrebuilt
    refine ⟨_, FsmReader.mem_apply_iff.mpr ⟨s', hi', rfl⟩, ?_⟩
    rwa [FsmReader.overrides_serialize hi]

def machineScope (statesItems transItems : List CoverIndex) : Scope :=
  .mk { type := .fsm, name := "control" } [] [
    .mk { type := .fsmStates, name := "UCIS:STATE" } statesItems [],
    .mk { type := .fsmTrans, name := "UCIS:TRANSITION" } transItems []]

def machineOf (statesItems transItems : List CoverIndex) : LoadedUCIS where
  scopes := [machineScope statesItems transItems]

section Machine

variable {statesItems transItems : List CoverIndex} {steps : List FsmStep}

theorem builtAll_machineOf : Scope.BuiltAll none (machineOf statesItems transItems).scopes := by
  simp [machineOf, machineScope, Scope.BuiltAll, Scope.Built, Scope.FsmFormed, Scope.type]

theorem fsmScopes_machineOf : fsmScopes (machineOf statesItems transItems).toMemUCIS
    = [(0, machineScope statesItems transItems)] := by
  simp [machineOf, machineScope, fsmScopes, MemUCIS.dfsScopeList, Scope.dfsAll, Scope.dfs_eq, Dict.atPositions,
    Scope.type]

theorem mem_fsmScopes_machineOf :
    (0, machineScope statesItems transItems) ∈ fsmScopes (machineOf statesItems transItems).toMemUCIS := by
  rw [fsmScopes_machineOf]
  exact .head _

theorem heldBy_machineOf (hs : (MemFSMScope.ofSteps steps).statesItems = statesItems)
    (ht : (MemFSMScope.ofSteps steps).transItems = transItems) :
    MemFSMScope.HeldBy (fun _ => .ofSteps steps) (machineOf statesItems transItems).toMemUCIS := by
  intro i s hi
  rw [fsmScopes_machineOf, List.mem_singleton] at hi
  cases hi
  exact ⟨congrArg _ hs.symm, congrArg _ ht.symm⟩

end Machine

-- Two states and a transition that is counted together with its item.
def countedSteps : List FsmStep := [
  .createState "A" (some 4), .createState "B" none, .createTransition "A" "B",
  .incrementCount "A" "B" 2, .incrementCover true 0 2]

def countedMachine : LoadedUCIS :=
  machineOf [fsmItem "A", fsmItem "B"] [(fsmItem "A->B").incrementCover 2]

theorem heldBy_countedMachine :
    MemFSMScope.HeldBy (fun _ => .ofSteps countedSteps) countedMachine.toMemUCIS :=
  heldBy_machineOf (by decide) (by decide)

-- The item of such a state is put among those of the transitions.
def arrowSteps : List FsmStep := [.createState "A->B" none]

def arrowMachine : LoadedUCIS :=
  machineOf [] [fsmItem "A->B"]

theorem heldBy_arrowMachine : MemFSMScope.HeldBy (fun _ => .ofSteps arrowSteps) arrowMachine.toMemUCIS :=
  heldBy_machineOf (by decide) (by decide)

end NcdbReader
