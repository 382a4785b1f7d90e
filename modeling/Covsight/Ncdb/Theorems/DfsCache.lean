import Covsight.Ncdb.DfsUtil

-- When the kept list of scopes and the kept indices are those of the scopes of the database.

-- A toggle pair has no sub-scopes that could be left out.
theorem visit_succ (objs : List ScopeObj) (fuel i : Nat) : visit objs (fuel + 1) i =
    match (objs[i]?).map ScopeObj.children with
    | none          => []
    | some children => i :: children.flatMap (visit objs fuel) := by
  rw [visit]
  cases objs[i]?
  case none => rfl
  case some o =>
    simp only [Option.map_some]
    split
    case isFalse => rfl
    case isTrue h =>
      have hc : o.children = [] := (of_decide_eq_true h).1
      rw [hc, List.flatMap_nil]

theorem ScopeObj.binCount_eq (o : ScopeObj) : o.binCount = o.coverItems.length := by
  rw [binCount]
  split
  case isFalse => rfl
  case isTrue h =>
    have hn : _ ∨ _ := (of_decide_eq_true (of_decide_eq_true h).2).2.2
    cases hn <;> rename_i hn <;> simpa using (congrArg List.length hn).symm

namespace ScopeHeap.Ordered

variable {objs new : List ScopeObj} {roots : List Nat} {fuel fuel' i p target : Nat}

-- As much fuel as there are objects after a scope is enough.
theorem visit_fuel (h : Ordered objs roots) (hf : objs.length - i ≤ fuel)
    (hf' : objs.length - i ≤ fuel') : visit objs fuel i = visit objs fuel' i := by
  induction fuel generalizing fuel' i
  case zero =>
    have hi : objs[i]? = none := List.getElem?_eq_none (by omega)
    cases fuel'
    case zero   => rfl
    case succ _ => rw [visit_succ, hi]; rfl
  case succ fuel hi =>
    cases fuel'
    case zero =>
      have hn : objs[i]? = none := List.getElem?_eq_none (by omega)
      rw [visit_succ, hn]; rfl
    case succ fuel' =>
      rw [visit_succ, visit_succ]
      cases ho : objs[i]?
      case none => rfl
      case some o =>
        have hc := h.children i o ho
        exact congrArg (i :: ·) (List.flatMap_congr fun c hm =>
          have ⟨hlt, _⟩ := hc c hm
          hi (by omega) (by omega))

theorem mem_visit_self (hi : i < objs.length) (hf : fuel ≠ 0) : i ∈ visit objs fuel i := by
  cases fuel
  case zero   => exact absurd rfl hf
  case succ _ =>
    rw [visit_succ, List.getElem?_eq_getElem hi]
    exact .head _

-- What is visited does not depend on the objects that are added later.
theorem visit_append (h : Ordered objs roots) (hi : i < objs.length) :
    visit (objs ++ new) fuel i = visit objs fuel i := by
  induction fuel generalizing i
  case zero => rfl
  case succ fuel hfuel =>
    rw [visit_succ, visit_succ, List.getElem?_append_left hi]
    cases ho : objs[i]?
    case none   => rfl
    case some o =>
      exact congrArg (i :: ·) (List.flatMap_congr fun c hm => hfuel (h.children i o ho c hm).2)

end ScopeHeap.Ordered

section Visit

variable {objs objs' : List ScopeObj} {fuel i p target : Nat} {f : ScopeObj → ScopeObj}

theorem visit_congr (h : ∀ j : Nat, (objs'[j]?).map ScopeObj.children = (objs[j]?).map ScopeObj.children) :
    visit objs' fuel i = visit objs fuel i := by
  induction fuel generalizing i
  case zero => rfl
  case succ fuel hi =>
    have hv : visit objs' fuel = visit objs fuel := funext fun _ => hi
    rw [visit_succ, visit_succ, h, hv]

theorem map_children_modify (hf : ∀ o, (f o).children = o.children) (j : Nat) :
    ((objs.modify p f)[j]?).map ScopeObj.children = (objs[j]?).map ScopeObj.children := by
  rw [List.getElem?_modify]
  cases objs[j]?
  case none => rfl
  case some o =>
    refine congrArg some ?_
    split
    case isTrue  => exact hf o
    case isFalse => rfl

theorem lt_of_mem_visit (h : p ∈ visit objs fuel i) : p < objs.length := by
  induction fuel generalizing i
  case zero => cases h
  case succ fuel hi =>
    rw [visit_succ] at h
    cases ho : objs[i]?
    case none =>
      rw [ho] at h
      cases h
    case some o =>
      rw [ho] at h
      cases h
      case head => exact (List.getElem?_eq_some_iff.mp ho).1
      case tail h =>
        have ⟨_, _, h⟩ := List.mem_flatMap.mp h
        exact hi h

-- A scope that is not visited can be changed.
theorem visit_modify (hp : p ∉ visit objs fuel i) :
    visit (objs.modify p f) fuel i = visit objs fuel i := by
  induction fuel generalizing i
  case zero => rfl
  case succ fuel hi =>
    rw [visit_succ] at hp
    rw [visit_succ, visit_succ, List.getElem?_modify]
    cases ho : objs[i]?
    case none => rfl
    case some o =>
      rw [ho] at hp
      have ⟨hne, hp⟩ := not_or.mp fun h => hp (List.mem_cons.mpr h)
      rw [Option.map_eq_map, Option.map_some, if_neg hne]
      exact congrArg (i :: ·) (List.flatMap_congr fun c hm =>
        hi fun hv => hp (List.mem_flatMap.mpr ⟨c, hm, hv⟩))

end Visit

namespace ScopeHeap

variable {h : ScopeHeap} {parent : Option Nat} {i p target : Nat} {d : ScopeData}
  {new : List ScopeObj} {f : ScopeObj → ScopeObj}

-- The list of scopes and the indices of a database depend on the children of its scopes and on the
-- numbers of their items, those of the last scope apart.
theorem dfs_modifyObj (hf : ∀ o, (f o).children ⊆ o.children)
    (hc : ∀ o, (f o).children = o.children) : (h.modifyObj i f hf).dfs = h.dfs := by
  have hl : (h.modifyObj i f hf).objs.length = h.objs.length := List.length_modify ..
  rw [dfs, dfs, hl]
  exact List.flatMap_congr fun r _ => visit_congr (map_children_modify hc)

theorem lt_of_mem_dfs (hi : i ∈ h.dfs) : i < h.objs.length :=
  have ⟨_, _, hv⟩ := List.mem_flatMap.mp hi
  lt_of_mem_visit hv

theorem mem_dfs_of_mem_roots (hi : i ∈ h.roots) : i ∈ h.dfs := by
  have hlt := h.ordered.roots i hi
  exact List.mem_flatMap.mpr ⟨i, hi, Ordered.mem_visit_self hlt (by omega)⟩

theorem not_mem_visit (hp : p ∉ h.dfs) {r : Nat} (hr : r ∈ h.roots) :
    p ∉ visit h.objs h.objs.length r :=
  fun hv => hp (List.mem_flatMap.mpr ⟨r, hr, hv⟩)

-- A scope that is not in the database can be given sub-scopes.
theorem dfs_insert (hn : NewObjs h.objs.length new) (hp : p ∉ h.dfs) :
    (h.insert (some p) new hn).dfs = h.dfs := by
  rw [insert]
  split
  case isFalse => rfl
  case isTrue hlt =>
    refine List.flatMap_congr fun r hr => ?_
    have hrl := h.ordered.roots r hr
    have hle : h.objs.length ≤ (h.objs ++ new).length := by simp
    have hfuel (fuel : Nat) (hf : h.objs.length ≤ fuel) :
        visit (h.objs ++ new) fuel r = visit h.objs h.objs.length r := by
      rw [h.ordered.visit_append hrl]
      exact h.ordered.visit_fuel (by omega) (by omega)
    rw [List.length_modify, visit_modify, hfuel _ hle]
    rw [hfuel _ hle]
    exact not_mem_visit hp hr

theorem parentOf_eq_none (ho : Ordered h.objs h.roots) {fuel : Nat} (hf : h.objs.length - p ≤ fuel)
    (ht : target ∉ visit h.objs fuel p) : parentOf h.objs target fuel p = none := by
  induction fuel generalizing p
  case zero => rfl
  case succ fuel hi =>
    rw [parentOf, Option.bind_eq_none_iff]
    intro o hp
    rw [visit_succ, hp] at ht
    have ⟨_, ht⟩ := not_or.mp fun h => ht (List.mem_cons.mpr h)
    have hc := ho.children p o hp
    have hv : ∀ c ∈ o.children, target ∉ visit h.objs fuel c :=
      fun c hm hv => ht (List.mem_flatMap.mpr ⟨c, hm, hv⟩)
    have hn : target ∉ o.children := fun hm => by
      have ⟨hlt, hlt'⟩ := hc target hm
      exact hv target hm (Ordered.mem_visit_self hlt' (by omega))
    rw [if_neg hn, List.findSome?_eq_none_iff]
    intro c hm
    have ⟨hlt, _⟩ := hc c hm
    exact hi (by omega) (hv c hm)

-- Removing a scope that is not there changes nothing.
theorem removeScope_of_not_mem (ht : target ∉ h.dfs) : h.removeScope target = h := by
  have hn : h.roots.findSome? (parentOf h.objs target h.objs.length) = none :=
    List.findSome?_eq_none_iff.mpr fun r hr =>
      parentOf_eq_none h.ordered (by omega) (not_mem_visit ht hr)
  rw [removeScope, if_neg fun hr => ht (mem_dfs_of_mem_roots hr)]
  simp only [hn]

theorem binCount_eq (h : ScopeHeap) (i : Nat) :
    h.binCount i = ((h.objs[i]?).map (·.coverItems.length)).getD 0 := by
  rw [binCount]
  cases h.objs[i]?
  case none   => rfl
  case some o => exact o.binCount_eq

theorem binCount_modifyObj {hf : ∀ o, (f o).children ⊆ o.children}
    (hi : i = p → ∀ o, h.objs[p]? = some o → (f o).coverItems.length = o.coverItems.length) :
    (h.modifyObj p f hf).binCount i = h.binCount i := by
  rw [binCount_eq, binCount_eq, modifyObj, List.getElem?_modify]
  cases ho : h.objs[i]?
  case none => rfl
  case some o =>
    rw [Option.map_eq_map, Option.map_some, Option.map_some, Option.map_some, Option.getD_some,
      Option.getD_some]
    split
    case isTrue he => exact hi he.symm o (he ▸ ho)
    case isFalse   => rfl

theorem binCount_insert (hn : NewObjs h.objs.length new) (hi : i < h.objs.length) :
    (h.insert parent new hn).binCount i = h.binCount i := by
  rw [binCount_eq, binCount_eq]
  cases parent
  case none => rw [insert, List.getElem?_append_left hi]
  case some p =>
    rw [insert]
    split
    case isFalse => rfl
    case isTrue =>
      rw [List.getElem?_modify, List.getElem?_append_left hi]
      cases h.objs[i]?
      case none => rfl
      case some o =>
        rw [Option.map_eq_map, Option.map_some]
        split <;> rfl

end ScopeHeap

theorem assignBases_congr {f g : Nat → Nat} {is : List Nat} (h : ∀ i ∈ is.dropLast, f i = g i)
    (nextIndex : Nat) (bases : Dict Nat Nat) :
    assignBases nextIndex bases (is.map fun i => (i, f i))
      = assignBases nextIndex bases (is.map fun i => (i, g i)) := by
  induction is generalizing nextIndex bases
  case nil => rfl
  case cons i is hi =>
    cases is
    case nil => rfl
    case cons j is =>
      rw [List.dropLast_cons_cons, List.forall_mem_cons] at h
      rw [List.map_cons, List.map_cons, assignBases, assignBases, h.1]
      exact hi h.2 _ _

theorem ScopeHeap.basesOf_congr {h h' : ScopeHeap} {scopes : List Nat}
    (hc : ∀ i ∈ scopes.dropLast, h'.binCount i = h.binCount i) :
    h'.basesOf scopes = h.basesOf scopes :=
  assignBases_congr hc 0 ∅

-- What a caller does with a database. A merge into it creates scopes and items.
inductive CacheOp
  | edit (e : ScopeEdit)
  | merge (edits : List ScopeEdit)
  | dfsScopeList
  | scopeBinBases
  | write
  | read (scopes : ScopeHeap) (hasSparse : Bool)

namespace CachedUCIS

variable {db db' : CachedUCIS}

def step (db : CachedUCIS) : CacheOp → CachedUCIS
  | .edit e                => db.edit e
  | .merge edits           => edits.foldl edit db
  | .dfsScopeList          => db.dfsScopeList.2
  | .scopeBinBases         => db.scopeBinBases.2
  | .write                 => db.write.2
  | .read scopes hasSparse => read scopes hasSparse

-- Once the list is kept, a scope is only created in a scope that is not in the database, or asked for
-- where an FSM has it already, and only a scope that is not in the database is removed. Once the
-- indices are kept, items are only added and removed where no scope follows.
def EditAllowed (db : CachedUCIS) : ScopeEdit → Prop
  | .createScope parent d     =>
    db.dfsScopeCache = none ∨ (∃ p ∈ parent, p ∉ db.dfs) ∨ (db.fsmPart parent d.type).isSome
  | .createInstance parent _  => db.dfsScopeCache = none ∨ ∃ p ∈ parent, p ∉ db.dfs
  | .removeScope target       => db.dfsScopeCache = none ∨ target ∉ db.dfs
  | .createNextCover i ci     =>
    db.scopeBinBaseCache = none ∨ db.coverTarget i ci.name ∉ db.dfs.dropLast
  | .removeCover i coverindex => db.scopeBinBaseCache = none ∨ i ∉ db.dfs.dropLast ∨
    ∀ o, db.objs[i]? = some o → ¬(0 ≤ coverindex ∧ coverindex < o.coverItems.length)

def EditsAllowed : CachedUCIS → List ScopeEdit → Prop
  | _,  []      => True
  | db, e :: es => db.EditAllowed e ∧ EditsAllowed (db.edit e) es

def Allowed (db : CachedUCIS) : CacheOp → Prop
  | .edit e      => db.EditAllowed e
  | .merge edits => db.EditsAllowed edits
  | _            => True

-- The databases that are reached from one that was just created, by steps that are allowed.
inductive Reachable : CachedUCIS → Prop
  | init : Reachable { toScopeHeap := .empty }
  | step {x : CachedUCIS} (op : CacheOp) : Reachable x → x.Allowed op → Reachable (x.step op)

-- What is kept is what would be computed.
structure Coherent (db : CachedUCIS) : Prop where
  scopes : ∀ cached, db.dfsScopeCache = some cached → cached = db.dfs
  bases  : ∀ cached, db.scopeBinBaseCache = some cached → cached = db.basesOf db.dfs
  listed : db.dfsScopeCache = none → db.scopeBinBaseCache = none

namespace Coherent

theorem init (h : ScopeHeap) : Coherent { toScopeHeap := h } where
  scopes := nofun
  bases  := nofun
  listed := fun _ => rfl

theorem dfsScopeList (h : db.Coherent) :
    db.dfsScopeList.1 = db.dfs ∧ db.dfsScopeList.2.toScopeHeap = db.toScopeHeap ∧
    db.dfsScopeList.2.Coherent := by
  rw [CachedUCIS.dfsScopeList]
  cases hc : db.dfsScopeCache
  case some cached => exact ⟨h.scopes cached hc, rfl, h⟩
  case none =>
    refine ⟨rfl, rfl, { scopes := fun _ he => ?_, bases := h.bases, listed := nofun }⟩
    cases he
    rfl

theorem scopeBinBases (h : db.Coherent) :
    db.scopeBinBases.1 = db.basesOf db.dfs ∧ db.scopeBinBases.2.Coherent := by
  rw [CachedUCIS.scopeBinBases]
  cases hc : db.scopeBinBaseCache
  case some cached => exact ⟨h.bases cached hc, h⟩
  case none =>
    have ⟨hl, hh, hc⟩ := h.dfsScopeList
    simp only [hl, hh]
    refine ⟨trivial, { scopes := fun cached he => ?_, bases := fun _ he => ?_, listed := fun hn => ?_ }⟩
    · exact (hc.scopes cached he).trans (congrArg ScopeHeap.dfs hh)
    · cases he
      rfl
    · rw [CachedUCIS.dfsScopeList] at hn
      split at hn
      case h_1 he => exact nomatch he.symm.trans hn
      case h_2    => cases hn

theorem write (h : db.Coherent) :
    db.write.1.sparse = db.write.1.scopeTree ∧ db.write.2.Coherent := by
  have ⟨hl, hh, hc⟩ := h.dfsScopeList
  refine ⟨?_, hc⟩
  change db.dfsScopeList.1 = db.dfsScopeList.2.dfs
  rw [hl, hh]

theorem read (scopes : ScopeHeap) (hasSparse : Bool) : (CachedUCIS.read scopes hasSparse).Coherent := by
  rw [CachedUCIS.read]
  split
  case isTrue  => exact (init scopes).dfsScopeList.2.2
  case isFalse => exact init scopes

-- A change is harmless before anything is kept, or if it leaves the list and the indices as they are.
theorem withHeap (h : db.Coherent) {heap : ScopeHeap}
    (hs : db.dfsScopeCache = none ∨ heap.dfs = db.dfs)
    (hb : db.scopeBinBaseCache = none ∨ heap.basesOf db.dfs = db.basesOf db.dfs) :
    Coherent { db with toScopeHeap := heap } where
  scopes := fun cached hc => by
    cases hs
    case inl hs => cases hs.symm.trans hc
    case inr hs => exact (h.scopes cached hc).trans hs.symm
  bases  := fun cached hc => by
    cases hs
    case inl hs => cases (h.listed hs).symm.trans hc
    case inr hs =>
      cases hb
      case inl hb => cases hb.symm.trans hc
      case inr hb =>
        rw [h.bases cached hc, ← hb]
        exact congrArg heap.basesOf hs.symm
  listed := h.listed

theorem insert (h : db.Coherent) {parent : Option Nat} {new : List ScopeObj}
    (hn : NewObjs db.objs.length new)
    (hp : db.dfsScopeCache = none ∨ ∃ p ∈ parent, p ∉ db.dfs) :
    Coherent { db with toScopeHeap := db.insert parent new hn } := by
  cases hp
  case inl hp => exact h.withHeap (.inl hp) (.inl (h.listed hp))
  case inr hp =>
    have ⟨p, hp, hm⟩ := hp
    cases hp
    refine h.withHeap (.inr (ScopeHeap.dfs_insert hn hm)) (.inr (ScopeHeap.basesOf_congr fun i hi => ?_))
    exact ScopeHeap.binCount_insert hn (ScopeHeap.lt_of_mem_dfs ((List.dropLast_sublist _).mem hi))

theorem modifyObj (h : db.Coherent) {p : Nat} {f : ScopeObj → ScopeObj}
    (hf : ∀ o, (f o).children ⊆ o.children) (hc : ∀ o, (f o).children = o.children)
    (hb : db.scopeBinBaseCache = none ∨ p ∉ db.dfs.dropLast ∨
      ∀ o, db.objs[p]? = some o → (f o).coverItems.length = o.coverItems.length) :
    Coherent { db with toScopeHeap := db.modifyObj p f hf } := by
  refine h.withHeap (.inr (ScopeHeap.dfs_modifyObj hf hc)) (hb.imp_right fun hb => ?_)
  refine ScopeHeap.basesOf_congr fun i hi => ScopeHeap.binCount_modifyObj fun he => ?_
  cases hb
  case inl hb => exact absurd (he ▸ hi) hb
  case inr hb => exact hb

theorem edit (h : db.Coherent) {e : ScopeEdit} (ha : db.EditAllowed e) : (db.edit e).Coherent := by
  cases e
  case createScope parent d =>
    rw [CachedUCIS.edit, ScopeHeap.createScope]
    split
    case h_1 part _ => exact h.modifyObj _ (fun _ => rfl) (.inr (.inr fun _ _ => rfl))
    case h_2 hn =>
      refine h.insert _ (ha.imp_right fun ha => ?_)
      cases ha
      case inl ha => exact ha
      case inr ha =>
        rw [hn] at ha
        cases ha
  case createInstance parent d => exact h.insert _ ha
  case removeScope target =>
    cases ha
    case inl ha => exact h.withHeap (.inl ha) (.inl (h.listed ha))
    case inr ha =>
      rw [CachedUCIS.edit, ScopeHeap.removeScope_of_not_mem ha]
      exact h
  case createNextCover i ci => exact h.modifyObj _ (fun _ => rfl) (ha.imp_right .inl)
  case removeCover i coverindex =>
    refine h.modifyObj _ (fun o => ?_) (ha.imp_right (.imp_right fun ha o ho => ?_))
    · rw [ScopeObj.removeCover]
      split <;> rfl
    · have hout := ha o ho
      rw [ScopeObj.removeCover]
      split
      case isFalse => rfl
      case isTrue h0 =>
        have hle : o.coverItems.length ≤ coverindex.toNat := by omega
        rw [List.eraseIdx_of_length_le hle]

theorem edits (h : db.Coherent) {edits : List ScopeEdit} (ha : db.EditsAllowed edits) :
    (edits.foldl CachedUCIS.edit db).Coherent := by
  induction edits generalizing db
  case nil            => exact h
  case cons e es hi => exact hi (h.edit ha.1) ha.2

theorem step (h : db.Coherent) {op : CacheOp} (ha : db.Allowed op) : (db.step op).Coherent := by
  cases op
  case edit e                => exact h.edit ha
  case merge edits           => exact h.edits ha
  case dfsScopeList          => exact h.dfsScopeList.2.2
  case scopeBinBases         => exact h.scopeBinBases.2
  case write                 => exact h.write.2
  case read scopes hasSparse => exact read scopes hasSparse

end Coherent

theorem Reachable.coherent (h : Reachable db) : db.Coherent := by
  induction h
  case init         => exact .init _
  case step _ ha hi => exact hi.step ha

-- In every database that is reached by allowed steps the list and the indices are those of the scopes
-- it has, and what is written is numbered by the tree that is written.
theorem Reachable.current (h : Reachable db) :
    db.dfsScopeList.1 = db.dfs ∧ db.scopeBinBases.1 = db.basesOf db.dfs ∧
    db.write.1.sparse = db.write.1.scopeTree :=
  ⟨h.coherent.dfsScopeList.1, h.coherent.scopeBinBases.1, h.coherent.write.1⟩

def run (ops : List CacheOp) : CachedUCIS :=
  ops.foldl step { toScopeHeap := .empty }

-- A scope that is created before the database is written.
def createWrite : List CacheOp :=
  [.edit (.createScope none { type := .block, name := "a" }), .write]

theorem current_createWrite :
    (run createWrite).dfsScopeList.1 = (run createWrite).dfs ∧
    (run createWrite).scopeBinBases.1 = (run createWrite).basesOf (run createWrite).dfs ∧
    (run createWrite).write.1.sparse = (run createWrite).write.1.scopeTree :=
  Reachable.current (.step .write (.step (.edit _) .init (.inl rfl)) trivial)

-- Another scope, written as well.
def createWriteTwice : List CacheOp :=
  createWrite ++ [.edit (.createScope none { type := .block, name := "b" })]

theorem createWriteTwice_stale : ¬∀ ops,
    (run ops).dfsScopeList.1 = (run ops).dfs ∧
    (run ops).write.1.sparse = (run ops).write.1.scopeTree := by
  intro h
  have hstale : (run createWriteTwice).dfsScopeList.1 = [0] ∧ (run createWriteTwice).dfs = [0, 1] := by
    decide
  have hl := (h createWriteTwice).1
  rw [hstale.1, hstale.2] at hl
  exact absurd hl (by decide)

end CachedUCIS
