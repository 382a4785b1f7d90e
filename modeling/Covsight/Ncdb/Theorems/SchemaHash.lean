import Covsight.Ncdb.Theorems.ItemValues
import Covsight.Ncdb.Theorems.MergePaths

-- What equal fingerprints say about the bins of two archives.

namespace Scope

-- A scope in a bin space. In depth-first order the shapes tell the tree.
def shape (s : Scope) : ScopeTypeT × String × Nat × Nat :=
  (s.type, s.name, s.coverItems.length, s.scopes.length)

section Rewrite

variable {f : Option ScopeTypeT → List Scope → Nat → Nat → Scope → ScopeData × List CoverIndex}

-- A rewrite that leaves the types and names of the scopes and adds or removes no items.
def KeepsShape
    (f : Option ScopeTypeT → List Scope → Nat → Nat → Scope → ScopeData × List CoverIndex) : Prop :=
  ∀ parent siblings i k s, (f parent siblings i k s).fst.type = s.type ∧
    (f parent siblings i k s).fst.name = s.name ∧
    (f parent siblings i k s).snd.length = s.coverItems.length

theorem length_rewriteAll (parent : Option ScopeTypeT) (siblings : List Scope) (i k : Nat)
    (ss : List Scope) : (rewriteAll f parent siblings i k ss).length = ss.length := by
  induction ss generalizing i k
  case nil          => rfl
  case cons s ss hi => rw [rewriteAll, List.length_cons, hi, List.length_cons]

mutual

theorem shapes_rewrite (hf : KeepsShape f) (parent : Option ScopeTypeT) (siblings : List Scope)
    (i k : Nat) : (s : Scope) → (s.rewrite f parent siblings i k).dfs.map shape = s.dfs.map shape
  | mk d is ss => by
    have ⟨ht, hn, hl⟩ := hf parent siblings i k (mk d is ss)
    rw [rewrite, dfs_eq, dfs_eq, List.map_cons, List.map_cons, scopes_mk, scopes_mk,
      shapes_rewriteAll hf]
    refine congrArg (· :: _) ?_
    simp only [shape, scopes_mk, length_rewriteAll, coverItems_mk, hl]
    exact congrArg₂ (fun t n => (t, n, is.length, ss.length)) ht hn

theorem shapes_rewriteAll (hf : KeepsShape f) (parent : Option ScopeTypeT) (siblings : List Scope)
    (i k : Nat) : (ss : List Scope) →
    (dfsAll (rewriteAll f parent siblings i k ss)).map shape = (dfsAll ss).map shape
  | []      => rfl
  | s :: ss => by
    rw [rewriteAll, dfsAll, dfsAll, List.map_append, List.map_append, shapes_rewrite hf,
      shapes_rewriteAll hf]

end

end Rewrite

theorem shape_outline (g : CoverIndex → CoverIndex) (s : Scope) : (s.outline g).shape = s.shape := by
  simp [shape, name]

theorem shapes_outline (g : CoverIndex → CoverIndex) (ss : List Scope) :
    (dfsAll (ss.map (outline g))).map shape = (dfsAll ss).map shape := by
  rw [dfsAll_outline, List.map_map]
  exact List.map_congr_left fun s _ => shape_outline g s

end Scope

namespace MemUCIS

open Scope (KeepsShape)

def scopeShapes (db : MemUCIS) : List (ScopeTypeT × String × Nat × Nat) :=
  db.dfsScopeList.map (·.shape)

variable {db db' : MemUCIS}

theorem scopeShapes_congr (h : db'.scopes = db.scopes) : db'.scopeShapes = db.scopeShapes := by
  rw [scopeShapes, dfsScopeList, h]
  rfl

theorem scopeShapes_rewritten
    {f : Option ScopeTypeT → List Scope → Nat → Nat → Scope → ScopeData × List CoverIndex}
    (hf : KeepsShape f) : (db.rewritten f).scopeShapes = db.scopeShapes :=
  Scope.shapes_rewriteAll hf none db.scopes 0 0 db.scopes

theorem scopeShapes_mapScopeData {g : Nat → ScopeData → ScopeData}
    (hg : ∀ i d, (g i d).type = d.type ∧ (g i d).name = d.name) :
    (db.mapScopeData g).scopeShapes = db.scopeShapes :=
  scopeShapes_rewritten fun _ _ i _ s => ⟨(hg i s.data).1, (hg i s.data).2, rfl⟩

theorem scopeShapes_mapScopeItems {f : Nat → Nat → Scope → List CoverIndex}
    (hf : ∀ i k s, (f i k s).length = s.coverItems.length) :
    (db.mapScopeItems f).scopeShapes = db.scopeShapes :=
  scopeShapes_rewritten fun _ _ i k s => ⟨rfl, rfl, hf i k s⟩

theorem scopeShapes_applying {α : Type} (apply : α → MemUCIS → MemUCIS)
    (h : ∀ m db, (apply m db).scopeShapes = db.scopeShapes) (member : Option α) :
    (db.applying member apply).scopeShapes = db.scopeShapes := by
  cases member
  case none   => rfl
  case some m => exact h m db

end MemUCIS

namespace NcdbReader

open MemUCIS (scopeShapes_congr scopeShapes_applying scopeShapes_mapScopeData
  scopeShapes_mapScopeItems scopeShapes_rewritten)

-- No member adds, removes or renames a scope or an item.
theorem scopeShapes_applyMembers (a : Archive) (db : MemUCIS) :
    (applyMembers a db).scopeShapes = db.scopeShapes := by
  have hi : ∀ {h : Nat → CoverIndex → CoverIndex} {db : MemUCIS},
      (db.mapCoverItems h).scopeShapes = db.scopeShapes :=
    scopeShapes_mapScopeItems fun _ _ _ => List.length_mapIdx ..
  have hl : ∀ {h : Nat → CoverIndex → CoverIndex} {db : MemUCIS},
      (db.mapLooseItems h).scopeShapes = db.scopeShapes := by
    refine scopeShapes_mapScopeItems fun _ _ _ => ?_
    split
    · rfl
    · exact List.length_mapIdx ..
  rw [applyMembers]
  rw [scopeShapes_applying Attrs.apply, scopeShapes_congr (scopes_createHistoryNodes ..),
    scopeShapes_congr (scopes_createFileHandles ..),
    scopeShapes_applying (fun sources => CoveritemSources.apply sources a.sources) fun _ _ => hl,
    scopeShapes_applying CoveritemFlags.apply,
    scopeShapes_applying CoveritemTypes.apply fun _ _ => hl,
    scopeShapes_applying FormalResults.apply fun m db =>
      scopeShapes_congr (FormalResults.scopes_apply m db),
    scopeShapes_congr (Contributions.scopes_apply ..),
    scopeShapes_applying Crosses.apply fun _ _ => scopeShapes_rewritten fun _ _ _ _ _ => ⟨rfl, rfl, rfl⟩,
    scopeShapes_applying Tags.apply fun _ _ => scopeShapes_mapScopeData fun _ _ => ⟨rfl, rfl⟩]
  · intro flags db
    rw [CoveritemFlags.apply]
    split
    · rfl
    · exact hi
  · intro attrs db
    exact (scopeShapes_mapScopeItems fun _ _ _ => List.length_mapIdx ..).trans
      (scopeShapes_mapScopeData fun _ _ => ⟨rfl, rfl⟩)

end NcdbReader

namespace NcdbReader

open Scope (outline)

-- The scopes and the item names that a scope tree describes.

def treeShapes (a : Archive) : List (ScopeTypeT × String × Nat × Nat) :=
  ((numberedScopes a.strings a.scopeTree).map fun ss =>
    MemUCIS.scopeShapes { scopes := ss }).getD []

def treeNames (a : Archive) : List String :=
  (numberedItems a.strings a.scopeTree).map (·.snd.fst)

-- The type of an item: outside of toggle pairs the one that the types member lists for it, otherwise
-- the one of the tree.
def itemType (a : Archive) (n : Nat) : Option CoverTypeT :=
  (numberedItems a.strings a.scopeTree)[n]?.map fun x => (readData a n x).snd.snd.type

namespace Read

variable {a : Archive} {runs : Option (List String)} {db : LoadedUCIS}

theorem scopeShapes_eq (rd : Read a runs db) : db.scopeShapes = treeShapes a := by
  have ⟨ns, hn, hns⟩ := exists_numberedScopes rd.tree
  have hs := congrArg (fun ss => (Scope.dfsAll ss).map Scope.shape) hns
  simp only [Scope.shapes_outline] at hs
  rw [rd.members, scopeShapes_applyMembers, treeShapes, hn]
  exact hs.symm

theorem itemData_tree (rd : Read a runs db) :
    db.itemData = ((numberedItems a.strings a.scopeTree).map
      (recountData (rd.counts.getD · 0))).mapIdx (readData a) := by
  rw [rd.itemData_eq]
  exact congrArg (List.mapIdx (readData a)) (itemData_readScopes rd.tree)

theorem names_eq (rd : Read a runs db) : db.coverItems.map (·.name) = treeNames a := by
  have hn : db.coverItems.map (·.name) = db.itemData.map (·.snd.fst) := by
    rw [← MemUCIS.markedItems_snd, MemUCIS.itemData, List.map_map, List.map_map]
    rfl
  rw [hn, rd.itemData_tree, treeNames]
  apply List.ext_getElem?
  intro n
  simp only [List.getElem?_map, List.getElem?_mapIdx, Option.map_map]
  rfl

theorem types_eq (rd : Read a runs db) (n : Nat) :
    (db.coverItems.map (·.data.type))[n]? = itemType a n := by
  have hd := congrArg (·[n]?.map CoverData.type) (MemUCIS.coverItems_data db.toMemUCIS)
  simp only [rd.itemData_tree, List.getElem?_map, List.getElem?_mapIdx, Option.map_map] at hd
  rw [List.getElem?_map, itemType]
  refine hd.trans <| congrArg (Option.map · _) <| funext fun x => ?_
  exact NcdbMerger.readData_type rfl _ n x

end Read

end NcdbReader

namespace NcdbMerger

open NcdbReader

variable {a a' : Archive} {db db' : LoadedUCIS}

-- A digest in the manifest of an archive is that of the members of the archive.
def Fingerprinted (a : Archive) : Prop :=
  match a.manifest.schemaHash with
  | .sha256 scopeTree           => scopeTree = a.scopeTree
  | .sha256v2 scopeTree strings => scopeTree = a.scopeTree ∧ strings = a.strings
  | .other _                    => True

-- Whether the hash covers the scope tree at all.
def Digested (a : Archive) : Prop :=
  match a.manifest.schemaHash with
  | .other _ => False
  | _        => True

-- One bin space: the same scopes and items, and the same cover type and merge operator for the items
-- of each index.
structure SameBinSpace (a a' : Archive) (db db' : LoadedUCIS) : Prop where
  scopes : db.scopeShapes = db'.scopeShapes
  names  : db.coverItems.map (·.name) = db'.coverItems.map (·.name)
  types  : db.coverItems.map (·.data.type) = db'.coverItems.map (·.data.type)
  ops    : ∀ n < db.coverItems.length, (a.ops.get? n = some opMax ↔ a'.ops.get? n = some opMax)

-- What the hash does not cover: the types that the items have in spite of the tree and the table of
-- operators; without a digest also the tree.
structure RestAgrees (a a' : Archive) : Prop where
  tree  : ¬Digested a → treeShapes a = treeShapes a' ∧ treeNames a = treeNames a'
  types : ∀ n, itemType a n = itemType a' n
  ops   : ∀ n < ScopeRecord.binCountAll a.scopeTree,
    (a.ops.get? n = some opMax ↔ a'.ops.get? n = some opMax)

section SameSchema

variable {sources : List Archive} (h : takesSameSchema sources)
variable (ha : a ∈ sources) (ha' : a' ∈ sources)

include h ha ha'

-- Archives that are merged as ones of one schema have one hash and, without a hash of the second
-- version, one string table.
theorem takesSameSchema_ok : a.manifest.schemaHash = a'.manifest.schemaHash ∧
    (a.manifest.schemaHash.isV2 ∨ a.strings = a'.strings) := by
  cases sources
  case nil => cases ha
  case cons first rest =>
    have ⟨hh, hs⟩ : (∀ s ∈ rest, s.manifest.schemaHash = first.manifest.schemaHash) ∧
        (first.manifest.schemaHash.isV2 ∨ ∀ s ∈ rest, s.strings = first.strings) := by
      simpa [takesSameSchema, sameSchema, namesAgree] using h
    have hh : ∀ s ∈ first :: rest, s.manifest.schemaHash = first.manifest.schemaHash :=
      List.forall_mem_cons.mpr ⟨rfl, hh⟩
    refine ⟨(hh a ha).trans (hh a' ha').symm, hs.imp (hh a ha ▸ id) fun hs => ?_⟩
    have hs : ∀ s ∈ first :: rest, s.strings = first.strings := List.forall_mem_cons.mpr ⟨rfl, hs⟩
    exact (hs a ha).trans (hs a' ha').symm

theorem takesSameSchema_digested (hd : Digested a) (hf : Fingerprinted a) (hf' : Fingerprinted a') :
    a.SameSchema a' := by
  have ⟨he, hs⟩ := takesSameSchema_ok h ha ha'
  rw [Fingerprinted, ← he] at hf'
  rw [Fingerprinted] at hf
  rw [Digested] at hd
  cases ha : a.manifest.schemaHash <;> rw [ha] at hd hf hf' hs
  case sha256 =>
    have hs := hs.resolve_left nofun
    exact ⟨hf.symm.trans hf', hs⟩
  case sha256v2 => exact ⟨hf.1.symm.trans hf'.1, hf.2.symm.trans hf'.2⟩
  case other    => exact hd.elim

-- Two archives that are merged as ones of one schema have one bin space exactly when the members
-- that the hash does not cover agree.
theorem takesSameSchema_sound_iff (hf : Fingerprinted a) (hf' : Fingerprinted a')
    (hr : read a none = .ok db) (hr' : read a' none = .ok db') :
    SameBinSpace a a' db db' ↔ RestAgrees a a' := by
  have ⟨rd⟩ := read_ok hr
  have ⟨rd'⟩ := read_ok hr'
  constructor
  case mp =>
    intro hs
    constructor
    case tree =>
      intro _
      rw [← rd.scopeShapes_eq, ← rd'.scopeShapes_eq, ← rd.names_eq, ← rd'.names_eq]
      exact ⟨hs.scopes, hs.names⟩
    case types =>
      intro n
      rw [← rd.types_eq, ← rd'.types_eq, hs.types]
    case ops => exact rd.coverItems_length ▸ hs.ops
  case mpr =>
    intro hs
    have ht : treeShapes a = treeShapes a' ∧ treeNames a = treeNames a' := by
      by_cases hd : Digested a
      case neg => exact hs.tree hd
      case pos =>
        have hs := takesSameSchema_digested h ha ha' hd hf hf'
        rw [treeShapes, treeNames, hs.scopeTree, hs.strings]
        exact ⟨rfl, rfl⟩
    constructor
    case scopes => rw [rd.scopeShapes_eq, rd'.scopeShapes_eq, ht.1]
    case names  => rw [rd.names_eq, rd'.names_eq, ht.2]
    case types  =>
      apply List.ext_getElem?
      intro n
      rw [rd.types_eq, rd'.types_eq, hs.types]
    case ops    => exact rd.coverItems_length.symm ▸ hs.ops

end SameSchema

-- Two items of a block. With a second item of another type the scope tree stays as it is.
def twoItems (type : CoverTypeT) : LoadedUCIS where
  scopes := [.mk { name := "top", type := .block } [
    { name := "s0", data := { type := .stmtBin, flags := defaultFlags .stmtBin } },
    { name := "s1", data := { type := type, flags := defaultFlags type } }
  ] []]

-- The types and the operators agree when the items do.
theorem takesSameSchema_sound_peaks : ∃ a db, NcdbWriter.write false (twoItems .peakActiveBin) = .ok a ∧
    read a none = .ok db ∧ SameBinSpace a a db db := by
  have ⟨a, hw⟩ : ∃ a, NcdbWriter.write false (twoItems .peakActiveBin) = .ok a := ⟨_, rfl⟩
  have ⟨db, hr⟩ : ∃ db, read a none = .ok db := by
    cases hw
    exact ⟨_, rfl⟩
  have hf : Fingerprinted a := by
    cases hw
    exact ⟨rfl, rfl⟩
  have hs : takesSameSchema [a, a] := by simp [takesSameSchema, sameSchema, namesAgree]
  have hm : a ∈ [a, a] := .head _
  refine ⟨a, db, hw, hr, (takesSameSchema_sound_iff hs hm hm hf hf hr hr).mpr ?_⟩
  exact ⟨fun _ => ⟨rfl, rfl⟩, fun _ => rfl, fun _ _ => Iff.rfl⟩

theorem takesSameSchema_unsound : ∃ a a' db db',
    NcdbWriter.write false (twoItems .stmtBin) = .ok a ∧
    NcdbWriter.write false (twoItems .peakActiveBin) = .ok a' ∧
    takesSameSchema [a, a'] ∧ Fingerprinted a ∧ Fingerprinted a' ∧
    read a none = .ok db ∧ read a' none = .ok db' ∧
    db.coverItems.map (·.data.type) = [.stmtBin, .stmtBin] ∧
    db'.coverItems.map (·.data.type) = [.stmtBin, .peakActiveBin] ∧
    a.ops.get? 1 = none ∧ a'.ops.get? 1 = some opMax ∧
    ¬SameBinSpace a a' db db' := by
  refine ⟨_, _, _, _, rfl, rfl, rfl, ⟨rfl, rfl⟩, ⟨rfl, rfl⟩, rfl, rfl, rfl, rfl, rfl, rfl, fun h => ?_⟩
  cases h.types

end NcdbMerger
