import Covsight.Ncdb.LazyUCIS
import Covsight.Ncdb.Theorems.Annotations
import Covsight.Ncdb.Theorems.MergeCounts

-- The attributes of the scopes and of their items.
def MemUCIS.attributeTree (db : MemUCIS) : List (Dict String String × List (Dict String String)) :=
  db.dfsScopeList.map fun s => (s.data.attributes, s.coverItems.map (·.attributes))

namespace MemUCIS

open Scope (scan)

variable {db db' : MemUCIS}

theorem attributeTree_congr (h : db'.scopes = db.scopes) : db'.attributeTree = db.attributeTree := by
  rw [attributeTree, dfsScopeList, h]
  rfl

-- A rewrite of the attributes by position.
theorem attributeTree_mapIdx
    {f : Option ScopeTypeT → List Scope → Nat → Nat → Scope → ScopeData × List CoverIndex}
    {h : Nat → Dict String String × List (Dict String String) →
      Dict String String × List (Dict String String)}
    (hf : ∀ parent siblings i k s,
      ((f parent siblings i k s).fst.attributes, (f parent siblings i k s).snd.map (·.attributes))
        = h i (s.data.attributes, s.coverItems.map (·.attributes))) :
    (db.rewritten f).attributeTree = db.attributeTree.mapIdx h := by
  have hn := db.dfsScopeList_rewritten (f := f)
    (π := fun x => (x.fst.attributes, x.snd.fst.map (·.attributes)))
    (g := fun i _ s => h i (s.data.attributes, s.coverItems.map (·.attributes))) hf
  apply List.ext_getElem?
  intro n
  have hs := scan.getElem? (i := 0) (k := 0)
    (g := fun i _ s => h i (s.data.attributes, s.coverItems.map (·.attributes))) db.dfsScopeList n
  rw [Nat.zero_add] at hs
  have ht : (db.attributeTree.mapIdx h)[n]? = db.dfsScopeList[n]?.map
      fun s => h n (s.data.attributes, s.coverItems.map (·.attributes)) := by
    rw [List.getElem?_mapIdx, attributeTree, List.getElem?_map, Option.map_map]
    rfl
  exact (congrArg (·[n]?) hn).trans (hs.trans ht.symm)

theorem attributeTree_rewritten
    {f : Option ScopeTypeT → List Scope → Nat → Nat → Scope → ScopeData × List CoverIndex}
    (h : ∀ parent siblings i k s,
      ((f parent siblings i k s).fst.attributes, (f parent siblings i k s).snd.map (·.attributes))
        = (s.data.attributes, s.coverItems.map (·.attributes))) :
    (db.rewritten f).attributeTree = db.attributeTree :=
  (attributeTree_mapIdx (h := fun _ x => x) h).trans (mapIdx_snd _)

theorem attributeTree_mapScopeItems {f : Nat → Nat → Scope → List CoverIndex}
    (h : ∀ i k s, (f i k s).map (·.attributes) = s.coverItems.map (·.attributes)) :
    (db.mapScopeItems f).attributeTree = db.attributeTree :=
  attributeTree_rewritten fun _ _ i k s => congrArg _ (h i k s)

theorem attributeTree_mapScopeData {g : Nat → ScopeData → ScopeData}
    (h : ∀ i d, (g i d).attributes = d.attributes) :
    (db.mapScopeData g).attributeTree = db.attributeTree :=
  attributeTree_rewritten fun _ _ i _ s => congrArg (·, _) (h i s.data)

theorem attributes_mapIdx {h : Nat → CoverIndex → CoverIndex}
    (hh : ∀ j ci, (h j ci).attributes = ci.attributes) (items : List CoverIndex) :
    (items.mapIdx h).map (·.attributes) = items.map (·.attributes) := by
  apply List.ext_getElem?
  intro j
  rw [List.getElem?_map, List.getElem?_mapIdx, List.getElem?_map, Option.map_map]
  exact congrArg (Option.map · _) (funext fun ci => hh j ci)

theorem attributeTree_mapLooseItems {h : Nat → CoverIndex → CoverIndex}
    (hh : ∀ n ci, (h n ci).attributes = ci.attributes) :
    (db.mapLooseItems h).attributeTree = db.attributeTree := by
  refine attributeTree_mapScopeItems fun i k s => ?_
  split
  · rfl
  · exact attributes_mapIdx (fun j ci => hh (k + j) ci) _

theorem attributeTree_mapCoverItems {h : Nat → CoverIndex → CoverIndex}
    (hh : ∀ n ci, (h n ci).attributes = ci.attributes) :
    (db.mapCoverItems h).attributeTree = db.attributeTree :=
  attributeTree_mapScopeItems fun _ k _ => attributes_mapIdx (fun j ci => hh (k + j) ci) _

end MemUCIS

namespace Attrs

-- What a member adds to the attributes of scopes and items.
def applyTree (a : Option Attrs) (tree : List (Dict String String × List (Dict String String))) :
    List (Dict String String × List (Dict String String)) :=
  match a with
  | none   => tree
  | some a => tree.mapIdx fun i x =>
    (setAll a.scopes i x.fst, x.snd.mapIdx fun j d => setAll a.coveritems (i, j) d)

theorem attributeTree_apply (a : Attrs) (db : MemUCIS) :
    (a.apply db).attributeTree = applyTree a db.attributeTree := by
  have h₁ := db.attributeTree_mapIdx
    (f := fun _ _ i _ s =>
      ({ s.data with attributes := setAll a.scopes i s.data.attributes }, s.coverItems))
    (h := fun i x => (setAll a.scopes i x.fst, x.snd)) fun _ _ _ _ _ => rfl
  have h₂ := (db.mapScopeData fun i d =>
      { d with attributes := setAll a.scopes i d.attributes }).attributeTree_mapIdx
    (f := fun _ _ i _ s => (s.data, s.coverItems.mapIdx fun j ci =>
      { ci with attributes := setAll a.coveritems (i, j) ci.attributes }))
    (h := fun i x => (x.fst, x.snd.mapIdx fun j d => setAll a.coveritems (i, j) d)) <| by
      intro _ _ i _ s
      simp [List.mapIdx_eq_zipIdx_map, List.zipIdx_map, Function.comp_def]
  rw [apply]
  refine (MemUCIS.attributeTree_congr rfl).trans (h₂.trans ?_)
  have h₁ : (db.mapScopeData fun i d =>
      { d with attributes := setAll a.scopes i d.attributes }).attributeTree = _ := h₁
  rw [h₁, List.mapIdx_mapIdx]
  rfl

theorem attributeTree_applying (a : Option Attrs) (db : MemUCIS) :
    (db.applying a Attrs.apply).attributeTree = applyTree a db.attributeTree := by
  cases a
  case none   => rfl
  case some a => exact attributeTree_apply a db

end Attrs

-- The other members leave the attributes.

namespace MemUCIS

theorem attributeTree_applying {α : Type} {apply : α → MemUCIS → MemUCIS}
    (h : ∀ m db, (apply m db).attributeTree = db.attributeTree) (member : Option α) (db : MemUCIS) :
    (db.applying member apply).attributeTree = db.attributeTree := by
  cases member
  case none   => rfl
  case some m => exact h m db

theorem attributeTree_tags (entries : Tags) (db : MemUCIS) :
    (entries.apply db).attributeTree = db.attributeTree :=
  attributeTree_mapScopeData fun _ _ => rfl

theorem attributeTree_crosses (entries : Crosses) (db : MemUCIS) :
    (entries.apply db).attributeTree = db.attributeTree :=
  attributeTree_rewritten (f := fun parent siblings i _ s =>
    ({ s.data with crossed := entries.crossedOf parent siblings i s.data }, s.coverItems))
    fun _ _ _ _ _ => rfl

theorem attributeTree_types (runs : CoveritemTypes) (db : MemUCIS) :
    (runs.apply db).attributeTree = db.attributeTree := by
  refine attributeTree_mapLooseItems fun n ci => ?_
  cases runs.valuesAt n <;> rfl

theorem attributeTree_flags (flags : CoveritemFlags) (db : MemUCIS) :
    (flags.apply db).attributeTree = db.attributeTree := by
  rw [CoveritemFlags.apply]
  split
  · rfl
  · exact attributeTree_mapCoverItems fun _ _ => rfl

theorem attributeTree_sources (files : List String) (sources : CoveritemSources) (db : MemUCIS) :
    (sources.apply files db).attributeTree = db.attributeTree := by
  refine attributeTree_mapLooseItems fun n ci => ?_
  cases sources.get? n
  case none     => rfl
  case some ref => cases hf : files[ref.fileId]? <;> simp only [hf]

theorem attributeTree_contributions (members : Contributions) (db : MemUCIS) :
    (members.apply db).attributeTree = db.attributeTree :=
  attributeTree_congr (Contributions.scopes_apply ..)

theorem attributeTree_formalResults (results : FormalResults) (db : MemUCIS) :
    (results.apply db).attributeTree = db.attributeTree :=
  attributeTree_congr (FormalResults.scopes_apply ..)

end MemUCIS

namespace NcdbReader

open MemUCIS

theorem attributeTree_applyMembers (a : Archive) (db : MemUCIS) :
    (applyMembers a db).attributeTree = Attrs.applyTree a.attrs db.attributeTree := by
  rw [applyMembers, Attrs.attributeTree_applying, attributeTree_congr (scopes_createHistoryNodes ..),
    attributeTree_congr (scopes_createFileHandles ..),
    attributeTree_applying (attributeTree_sources a.sources),
    attributeTree_applying attributeTree_flags, attributeTree_applying attributeTree_types,
    attributeTree_applying attributeTree_formalResults, attributeTree_contributions,
    attributeTree_applying attributeTree_crosses, attributeTree_applying attributeTree_tags]

end NcdbReader

namespace LazyUCIS

open MemUCIS NcdbReader

theorem attributeTree_applyMembers (a : Archive) (db : MemUCIS) :
    (applyMembers a db).attributeTree = Attrs.applyTree a.attrs db.attributeTree := by
  rw [applyMembers, attributeTree_applying attributeTree_formalResults, attributeTree_contributions,
    attributeTree_applying (attributeTree_sources a.sources),
    attributeTree_applying attributeTree_types, attributeTree_applying attributeTree_crosses,
    attributeTree_applying attributeTree_tags, Attrs.attributeTree_applying,
    attributeTree_congr (scopes_createFileHandles ..)]

-- The data of an item with the types of an archive only.
def loadData (a : Archive) (n : Nat) (x : Bool × String × CoverData) : Bool × String × CoverData :=
  (x.fst, x.snd.fst, if x.fst then x.snd.snd else (a.types.getD []).retype n x.snd.snd)

theorem itemData_applyMembers (a : Archive) (db : MemUCIS) :
    (applyMembers a db).itemData = db.itemData.mapIdx (loadData a) := by
  have hd : (((((a.sources.foldl createFileHandle db).applying a.attrs Attrs.apply).applying a.tags
      Tags.apply).applying a.crosses Crosses.apply)).itemData = db.itemData := by
    rw [itemData_applying Crosses.itemData_apply, itemData_applying Tags.itemData_apply,
      itemData_applying Attrs.itemData_apply, itemData_congr (scopes_createFileHandles ..)]
  rw [applyMembers, itemData_applying fun m db => itemData_congr (FormalResults.scopes_apply m db),
    itemData_congr (Contributions.scopes_apply ..),
    itemData_applying fun m db => CoveritemSources.itemData_apply m a.sources db]
  cases ht : a.types
  case none =>
    have hl : loadData a = fun _ x => x := by
      funext n x
      rw [loadData, ht, Option.getD_none, retype_nil, ite_self]
    exact hd.trans (hl ▸ (mapIdx_snd _).symm)
  case some runs =>
    have hr := CoveritemTypes.itemData_apply runs ((((a.sources.foldl createFileHandle db).applying
      a.attrs Attrs.apply).applying a.tags Tags.apply).applying a.crosses Crosses.apply)
    have hl : loadData a = fun n x =>
        (x.fst, x.snd.fst, if x.fst then x.snd.snd else runs.retype n x.snd.snd) := by
      funext n x
      rw [loadData, ht, Option.getD_some]
    exact hr.trans (by rw [hd, hl])

theorem historyNodes_applyMembers (a : Archive) (db : MemUCIS) :
    (applyMembers a db).historyNodes = attachAttrs a.attrs db.historyNodes := by
  rw [applyMembers, historyNodes_formal, historyNodes_contributions,
    (ScopesOnly.sources _).historyNodes, ScopesOnly.types.historyNodes,
    ScopesOnly.crosses.historyNodes, ScopesOnly.tags.historyNodes]
  have hf := historyNodes_createFileHandles a.sources db
  cases ha : a.attrs
  case none       => exact hf
  case some attrs => exact congrArg attrs.applyHistory hf

end LazyUCIS

-- The attributes of the database.

namespace MemUCIS

theorem attributes_createFileHandles (files : List String) (db : MemUCIS) :
    (files.foldl createFileHandle db).attributes = db.attributes := by
  refine foldl_preserves (·.attributes) (fun db file => ?_) files db
  rw [createFileHandle]
  split <;> rfl

theorem attributes_createHistoryNodes (nodes : List HistoryNode) (db : MemUCIS) :
    (nodes.foldl createHistoryNode db).attributes = db.attributes := by
  refine foldl_preserves (·.attributes) ?_ nodes db
  exact fun _ _ => rfl

theorem attributes_contributions (members : Contributions) (db : MemUCIS) :
    (members.apply db).attributes = db.attributes := by
  refine foldl_preserves (·.attributes) (fun db e => ?_) _ db
  exact foldl_preserves (·.attributes) (f := fun db (b : Nat × Nat) =>
    recordTestAssociation db e.fst b.fst b.snd) (fun _ _ => rfl) _ db

theorem attributes_formal (results : Option FormalResults) (db : MemUCIS) :
    (db.applying results FormalResults.apply).attributes = db.attributes := by
  cases results
  case none => rfl
  case some results =>
    refine foldl_preserves (·.attributes) ?_ _ db
    exact fun _ _ => rfl

theorem attributes_attrs (a : Option Attrs) (db : MemUCIS) :
    (db.applying a Attrs.apply).attributes
      = db.attributes.update ((a.map (·.global)).getD ∅) := by
  cases a <;> rfl

end MemUCIS

open MemUCIS

theorem NcdbReader.attributes_applyMembers (a : Archive) (db : MemUCIS) :
    (applyMembers a db).attributes = db.attributes.update ((a.attrs.map (·.global)).getD ∅) := by
  rw [applyMembers, attributes_attrs, attributes_createHistoryNodes, attributes_createFileHandles,
    (ScopesOnly.sources _).attributes, ScopesOnly.flags.attributes, ScopesOnly.types.attributes,
    attributes_formal, attributes_contributions, ScopesOnly.crosses.attributes,
    ScopesOnly.tags.attributes]

theorem LazyUCIS.attributes_applyMembers (a : Archive) (db : MemUCIS) :
    (applyMembers a db).attributes = db.attributes.update ((a.attrs.map (·.global)).getD ∅) := by
  rw [applyMembers, attributes_formal, attributes_contributions, (ScopesOnly.sources _).attributes,
    ScopesOnly.types.attributes, ScopesOnly.crosses.attributes, ScopesOnly.tags.attributes,
    attributes_attrs, attributes_createFileHandles]
