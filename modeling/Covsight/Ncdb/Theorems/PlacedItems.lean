import Covsight.Ncdb.DfsUtil
import Covsight.Ncdb.Theorems.NcdbReader

-- What the members of an archive make of the items, each told by its flat index, by its scope and by
-- its position there. No member moves an item or changes a name.

theorem map_mapIdx {α β γ : Type*} (g : β → γ) (f : Nat → α → β) (xs : List α) :
    (xs.mapIdx f).map g = xs.mapIdx fun n x => g (f n x) := by
  ext
  simp

theorem mapIdx_map {α β γ : Type*} (g : Nat → β → γ) (f : α → β) (xs : List α) :
    (xs.map f).mapIdx g = xs.mapIdx fun n x => g n (f x) := by
  ext
  simp

theorem mapIdx_const {α β : Type*} (f : α → β) (xs : List α) : xs.mapIdx (fun _ => f) = xs.map f := by
  apply List.ext_getElem <;> simp

namespace Scope

-- The items of a scope at some position, with whether it is a toggle pair.
def placed (i : Nat) (s : Scope) : List (Bool × Nat × Nat × CoverIndex) :=
  s.coverItems.mapIdx fun j ci => (s.isTogglePair, i, j, ci)

theorem scan.mapIdx {β γ : Type*} {g : Nat → Nat → Scope → β} {i k : Nat} (f : Nat → β → γ)
    (ss : List Scope) :
    (scan g i k ss).mapIdx (fun n => f (i + n)) = scan (fun i k s => f i (g i k s)) i k ss := by
  induction ss generalizing i k
  case nil => rfl
  case cons s ss hi =>
    rw [scan, List.mapIdx_cons, scan, ← hi]
    simp only [Nat.add_zero, Nat.add_assoc, Nat.add_comm 1]

section Paths

variable {f : Option ScopeTypeT → List Scope → Nat → Nat → Scope → ScopeData × List CoverIndex}

mutual

theorem paths_rewrite (hd : ∀ parent siblings i k s, (f parent siblings i k s).fst.name = s.name) :
    (s : Scope) → (above : List String) → (parent : Option ScopeTypeT) →
    (siblings : List Scope) → (i k : Nat) →
    (s.rewrite f parent siblings i k).paths above = s.paths above
  | mk d is ss, above, parent, siblings, i, k => by
    have hn : (f parent siblings i k (mk d is ss)).fst.name = d.name := hd ..
    rw [rewrite, paths, paths, hn, pathsAll_rewriteAll hd ss]

theorem pathsAll_rewriteAll (hd : ∀ parent siblings i k s, (f parent siblings i k s).fst.name = s.name) :
    (ss : List Scope) → (above : List String) →
    (parent : Option ScopeTypeT) → (siblings : List Scope) → (i k : Nat) →
    pathsAll above (rewriteAll f parent siblings i k ss) = pathsAll above ss
  | [],      above, parent, siblings, i, k => rfl
  | s :: ss, above, parent, siblings, i, k => by
    rw [rewriteAll, pathsAll, pathsAll, paths_rewrite hd s, pathsAll_rewriteAll hd ss]

end

end Paths

-- A scope as far as the places of its bins go.
def binNode (s : Scope) : Bool × List String :=
  (s.isTogglePair, s.coverItems.map (·.name))

end Scope

-- Rewriting the items that have a place.
def mapPlaced (h : Bool → Nat → Nat → Nat → CoverIndex → CoverIndex)
    (xs : List (Bool × Nat × Nat × CoverIndex)) : List (Bool × Nat × Nat × CoverIndex) :=
  xs.mapIdx fun n (b, i, j, ci) => (b, i, j, h b n i j ci)

theorem mapPlaced_mapPlaced (h h' : Bool → Nat → Nat → Nat → CoverIndex → CoverIndex)
    (xs : List (Bool × Nat × Nat × CoverIndex)) :
    mapPlaced h' (mapPlaced h xs) = mapPlaced (fun b n i j ci => h' b n i j (h b n i j ci)) xs := by
  rw [mapPlaced, mapPlaced, List.mapIdx_mapIdx]
  rfl

theorem mapPlaced_id (xs : List (Bool × Nat × Nat × CoverIndex)) :
    mapPlaced (fun _ _ _ _ ci => ci) xs = xs :=
  mapIdx_snd xs

namespace MemUCIS

open Scope (scan placed)

def placedItems (db : MemUCIS) : List (Bool × Nat × Nat × CoverIndex) :=
  (db.dfsScopeList.mapIdx fun i s => s.placed i).flatten

-- The items are changed in place, and nothing that their places are told by.
structure Replaced (h : Bool → Nat → Nat → Nat → CoverIndex → CoverIndex) (db db' : MemUCIS) :
    Prop where
  items : db'.placedItems = mapPlaced h db.placedItems
  nodes : db'.dfsScopeList.map (·.binNode) = db.dfsScopeList.map (·.binNode)
  paths : Scope.pathsAll [] db'.scopes = Scope.pathsAll [] db.scopes

namespace Replaced

variable {db db' db'' : MemUCIS} {h h' : Bool → Nat → Nat → Nat → CoverIndex → CoverIndex}

theorem of_scopes_eq (hs : db'.scopes = db.scopes) : Replaced (fun _ _ _ _ ci => ci) db db' := by
  have hd : db'.dfsScopeList = db.dfsScopeList := congrArg Scope.dfsAll hs
  refine ⟨?_, by rw [hd], by rw [hs]⟩
  rw [placedItems, hd, mapPlaced_id]
  rfl

theorem trans (hr : Replaced h db db') (hr' : Replaced h' db' db'') :
    Replaced (fun b n i j ci => h' b n i j (h b n i j ci)) db db'' where
  items := by rw [hr'.items, hr.items, mapPlaced_mapPlaced]
  nodes := hr'.nodes.trans hr.nodes
  paths := hr'.paths.trans hr.paths

end Replaced

variable {db : MemUCIS}

theorem flatten_scan_placed (h : Bool → Nat → Nat → Nat → CoverIndex → CoverIndex) (i k : Nat)
    (ss : List Scope) :
    (scan (fun i k s => s.coverItems.mapIdx fun j ci =>
        (s.isTogglePair, i, j, h s.isTogglePair (k + j) i j ci)) i k ss).flatten
      = ((ss.mapIdx fun i' s => s.placed (i + i')).flatten).mapIdx fun n (b, i, j, ci) =>
          (b, i, j, h b (k + n) i j ci) := by
  induction ss generalizing i k
  case nil => rfl
  case cons s ss hi =>
    have hl : (s.placed (i + 0)).length = s.coverItems.length := List.length_mapIdx
    rw [scan, List.flatten_cons, hi, List.mapIdx_cons, List.flatten_cons, List.mapIdx_append, hl,
      placed, List.mapIdx_mapIdx]
    simp only [Nat.add_zero, Nat.add_assoc, Nat.add_comm 1, Nat.add_comm s.coverItems.length]
    rfl

variable {f : Option ScopeTypeT → List Scope → Nat → Nat → Scope → ScopeData × List CoverIndex}

theorem replaced_rewritten {h : Bool → Nat → Nat → Nat → CoverIndex → CoverIndex}
    (hn : ∀ b n i j ci, (h b n i j ci).name = ci.name)
    (ht : ∀ parent siblings i k s, (f parent siblings i k s).fst.type = s.type)
    (hd : ∀ parent siblings i k s, (f parent siblings i k s).fst.name = s.name)
    (hf : ∀ parent siblings i k s, (f parent siblings i k s).snd
      = s.coverItems.mapIdx fun j ci => h s.isTogglePair (k + j) i j ci) :
    Replaced h db (db.rewritten f) := by
  have hnames : ∀ parent siblings i k s,
      (f parent siblings i k s).snd.map (·.name) = s.coverItems.map (·.name) := by
    intro parent siblings i k s
    rw [hf, map_mapIdx]
    ext
    simp [hn]
  have hpair : ∀ parent siblings i k s, togglePairNode ((f parent siblings i k s).fst,
      (f parent siblings i k s).snd, s.scopes.isEmpty) = s.isTogglePair := fun _ _ _ _ s =>
    (togglePairNode_congr (ht ..) (hnames ..) _).trans (togglePairNode_node s)
  refine ⟨?_, ?_, Scope.pathsAll_rewriteAll hd ..⟩
  · have hs := db.dfsScopeList_rewritten (f := f)
      (π := fun v (i : Nat) => v.snd.fst.mapIdx fun j ci => (togglePairNode v, i, j, ci))
      (g := fun i k s i' => s.coverItems.mapIdx fun j ci =>
        (s.isTogglePair, i', j, h s.isTogglePair (k + j) i j ci)) <| by
        intro parent siblings i k s
        rw [hpair, hf]
        simp only [List.mapIdx_mapIdx]
        rfl
    have hp : (db.rewritten f).placedItems
        = (((db.rewritten f).dfsScopeList.map fun s (i : Nat) =>
            s.node.snd.fst.mapIdx fun j ci => (togglePairNode s.node, i, j, ci)).mapIdx
              fun i φ => φ i).flatten := by
      rw [placedItems, mapIdx_map]
      simp only [togglePairNode_node]
      rfl
    have hscan := scan.mapIdx (i := 0) (k := 0)
      (g := fun i k s i' => s.coverItems.mapIdx fun j ci =>
        (s.isTogglePair, i', j, h s.isTogglePair (k + j) i j ci)) (fun i φ => φ i) db.dfsScopeList
    simp only [Nat.zero_add] at hscan
    rw [hp, hs, hscan, flatten_scan_placed]
    simp only [Nat.zero_add]
    rfl
  · have hs := db.dfsScopeList_rewritten (f := f)
      (π := fun v => (togglePairNode v, v.snd.fst.map (·.name))) (g := fun _ _ s => s.binNode) <| by
        intro parent siblings i k s
        rw [hpair, hnames]
        rfl
    rw [scan.const] at hs
    simp only [togglePairNode_node] at hs
    exact hs

theorem replaced_mapScopeData {g : Nat → ScopeData → ScopeData} (ht : ∀ i d, (g i d).type = d.type)
    (hd : ∀ i d, (g i d).name = d.name) : Replaced (fun _ _ _ _ ci => ci) db (db.mapScopeData g) :=
  replaced_rewritten (fun _ _ _ _ _ => rfl) (fun _ _ _ _ _ => ht ..) (fun _ _ _ _ _ => hd ..)
    (fun _ _ _ _ _ => (mapIdx_snd _).symm)

theorem replaced_mapCoverItems {h : Nat → CoverIndex → CoverIndex} (hn : ∀ n ci, (h n ci).name = ci.name) :
    Replaced (fun _ n _ _ => h n) db (db.mapCoverItems h) :=
  replaced_rewritten (fun _ n _ _ => hn n) (fun _ _ _ _ _ => rfl) (fun _ _ _ _ _ => rfl)
    (fun _ _ _ _ _ => rfl)

theorem replaced_mapLooseItems {h : Nat → CoverIndex → CoverIndex} (hn : ∀ n ci, (h n ci).name = ci.name) :
    Replaced (fun b n _ _ ci => if b then ci else h n ci) db (db.mapLooseItems h) := by
  refine replaced_rewritten ?_ (fun _ _ _ _ _ => rfl) (fun _ _ _ _ _ => rfl) ?_
  · intro b n _ _ ci
    split
    · rfl
    · exact hn n ci
  · intro _ _ i k s
    cases hp : s.isTogglePair <;> simp [hp, mapIdx_snd]

end MemUCIS

-- What the members make of an item, where they are there.

open MemUCIS (Replaced)

theorem Tags.replaced_apply (entries : Tags) (db : MemUCIS) :
    Replaced (fun _ _ _ _ ci => ci) db (Tags.apply entries db) :=
  MemUCIS.replaced_mapScopeData (fun _ _ => rfl) fun _ _ => rfl

theorem Crosses.replaced_apply (entries : Crosses) (db : MemUCIS) :
    Replaced (fun _ _ _ _ ci => ci) db (Crosses.apply entries db) :=
  MemUCIS.replaced_rewritten (fun _ _ _ _ _ => rfl) (fun _ _ _ _ _ => rfl) (fun _ _ _ _ _ => rfl)
    (fun _ _ _ _ _ => (mapIdx_snd _).symm)

namespace CoveritemTypes

def readItem (runs : CoveritemTypes) (inPair : Bool) (n : Nat) (ci : CoverIndex) : CoverIndex :=
  if inPair then ci else { ci with data := runs.retype n ci.data }

theorem replaced_apply (runs : CoveritemTypes) (db : MemUCIS) :
    Replaced (fun b n _ _ => runs.readItem b n) db (runs.apply db) := by
  have ha : runs.apply db = db.mapLooseItems fun n ci => { ci with data := runs.retype n ci.data } := by
    refine congrArg (MemUCIS.mapLooseItems · db) <| funext₂ fun n ci => ?_
    rw [retype]
    cases runs.valuesAt n <;> rfl
  rw [ha]
  exact MemUCIS.replaced_mapLooseItems fun _ _ => rfl

end CoveritemTypes

namespace CoveritemFlags

def readItem (flags : CoveritemFlags) (n : Nat) (ci : CoverIndex) : CoverIndex :=
  if flags.entries.isEmpty then ci
  else ci.setCoverFlags <| (flags.get? n).getD (defaultFlags ci.data.type)

theorem replaced_apply (flags : CoveritemFlags) (db : MemUCIS) :
    Replaced (fun _ n _ _ => flags.readItem n) db (flags.apply db) := by
  rw [apply]
  split
  case isTrue h  =>
    have hr : flags.readItem = fun _ ci => ci := funext₂ fun _ _ => if_pos h
    rw [hr]
    exact .of_scopes_eq rfl
  case isFalse h =>
    have hr : flags.readItem = fun n ci =>
        ci.setCoverFlags <| (flags.get? n).getD (defaultFlags ci.data.type) :=
      funext₂ fun _ _ => if_neg h
    rw [hr]
    exact MemUCIS.replaced_mapCoverItems fun _ _ => rfl

end CoveritemFlags

namespace CoveritemSources

def readItem (sources : CoveritemSources) (files : List String) (inPair : Bool) (n : Nat)
    (ci : CoverIndex) : CoverIndex :=
  if inPair then ci else
    match sources.get? n with
    | none     => ci
    | some ref =>
      match files[ref.fileId]? with
      | none      => ci
      | some file => { ci with srcinfo := some ⟨some file, ref.line, ref.token⟩ }

theorem replaced_apply (sources : CoveritemSources) (files : List String) (db : MemUCIS) :
    Replaced (fun b n _ _ => sources.readItem files b n) db (sources.apply files db) := by
  refine MemUCIS.replaced_mapLooseItems fun n ci => ?_
  cases sources.get? n
  case none     => rfl
  case some ref => cases hf : files[ref.fileId]? <;> simp only [hf]

end CoveritemSources

namespace Attrs

def readItem (a : Attrs) (i j : Nat) (ci : CoverIndex) : CoverIndex :=
  { ci with attributes := setAll a.coveritems (i, j) ci.attributes }

theorem replaced_apply (a : Attrs) (db : MemUCIS) :
    Replaced (fun _ _ i j => a.readItem i j) db (a.apply db) := by
  have hdata : Replaced (fun _ _ _ _ ci => ci) db
      (db.mapScopeData fun i d => { d with attributes := setAll a.scopes i d.attributes }) :=
    MemUCIS.replaced_mapScopeData (fun _ _ => rfl) fun _ _ => rfl
  have hitems (db : MemUCIS) : Replaced (fun _ _ i j => a.readItem i j) db
      (db.mapScopeItems fun i _ s => s.coverItems.mapIdx fun j ci => a.readItem i j ci) :=
    MemUCIS.replaced_rewritten (h := fun _ _ i j => a.readItem i j) (fun _ _ _ _ _ => rfl)
      (fun _ _ _ _ _ => rfl) (fun _ _ _ _ _ => rfl) (fun _ _ _ _ _ => rfl)
  have hr := hdata.trans (hitems _)
  exact ⟨hr.items, hr.nodes, hr.paths⟩

end Attrs

namespace NcdbReader

theorem replaced_applying {α : Type} {apply : α → MemUCIS → MemUCIS}
    {φ : α → Bool → Nat → Nat → Nat → CoverIndex → CoverIndex}
    (h : ∀ m db, Replaced (φ m) db (apply m db)) (member : Option α) (db : MemUCIS) :
    Replaced (fun b n i j ci => (member.map fun m => φ m b n i j ci).getD ci) db
      (db.applying member apply) := by
  cases member
  case none   => exact .of_scopes_eq rfl
  case some m => exact h m db

theorem replaced_applying_of_unchanged {α : Type} {apply : α → MemUCIS → MemUCIS}
    (h : ∀ m db, Replaced (fun _ _ _ _ ci => ci) db (apply m db)) (member : Option α) (db : MemUCIS) :
    Replaced (fun _ _ _ _ ci => ci) db (db.applying member apply) := by
  cases member
  case none   => exact .of_scopes_eq rfl
  case some m => exact h m db

-- An item of the scope tree with all that the members have for it.
def readItem (a : Archive) (inPair : Bool) (n i j : Nat) (ci : CoverIndex) : CoverIndex :=
  let ci := (a.types.map fun runs => runs.readItem inPair n ci).getD ci
  let ci := (a.flags.map fun flags => flags.readItem n ci).getD ci
  let ci := (a.itemSources.map fun sources => sources.readItem a.sources inPair n ci).getD ci
  (a.attrs.map fun attrs => attrs.readItem i j ci).getD ci

theorem replaced_applyMembers (a : Archive) (db : MemUCIS) :
    Replaced (readItem a) db (applyMembers a db) := by
  exact (replaced_applying_of_unchanged Tags.replaced_apply a.tags db).trans <|
    (replaced_applying_of_unchanged Crosses.replaced_apply a.crosses _).trans <|
    (Replaced.of_scopes_eq (Contributions.scopes_apply a.contrib _)).trans <|
    (replaced_applying_of_unchanged (fun m db => .of_scopes_eq (FormalResults.scopes_apply m db))
      a.formal _).trans <|
    (replaced_applying CoveritemTypes.replaced_apply a.types _).trans <|
    (replaced_applying CoveritemFlags.replaced_apply a.flags _).trans <|
    (replaced_applying (fun m db => CoveritemSources.replaced_apply m a.sources db)
      a.itemSources _).trans <|
    (Replaced.of_scopes_eq (scopes_createFileHandles a.sources _)).trans <|
    (Replaced.of_scopes_eq (scopes_createHistoryNodes (a.history.map HistoryNode.reread) _)).trans <|
    replaced_applying Attrs.replaced_apply a.attrs _

end NcdbReader
