import Covsight.NcdbC.Attrs
import Covsight.NcdbC.Theorems.Attrs
import Covsight.NcdbC.Theorems.ScopeTreeRoundTrip
import Covsight.NcdbC.Theorems.TestsAssoc

-- What the covers of a database carry after it was written and read.

namespace NcdbScope

mutual

-- The paths of the scopes in depth-first order.
def paths (above : List String) : NcdbScope → List (List String)
  | mk d _ ss => (above ++ [d.name]) :: pathsAll (above ++ [d.name]) ss

def pathsAll (above : List String) : List NcdbScope → List (List String)
  | []      => []
  | s :: ss => s.paths above ++ pathsAll above ss

end

mutual

-- Paths are made of names only.
theorem paths_restored : (s : NcdbScope) → (above : List String) → s.restored.paths above = s.paths above
  | mk d cs ss, above => by
    rw [restored]
    split
    case isTrue ht =>
      simp only [isTogglePair, Bool.and_eq_true, List.isEmpty_iff] at ht
      have hs : ss = [] := ht.1.1.1.1.2
      rw [hs, NcdbTables.readTogglePair, paths, paths]
    case isFalse => rw [paths, paths, pathsAll_restoredAll ss]; rfl

theorem pathsAll_restoredAll : (ss : List NcdbScope) → (above : List String) →
    pathsAll above (restoredAll ss) = pathsAll above ss
  | [],      _     => rfl
  | s :: ss, above => by
    rw [restoredAll, pathsAll, pathsAll, paths_restored s, pathsAll_restoredAll ss]

end

mutual

theorem paths_putNodes : (s : NcdbScope) → (above : List String) → {new : List NcdbScopeNode} →
    (new.take s.dfs.length).map (·.data.name) = s.dfs.map (·.data.name) →
    (s.putNodes new).paths above = s.paths above
  | mk d cs ss, above, [], h => by
    rw [dfs] at h
    cases h
  | mk d cs ss, above, node :: new, h => by
    rw [dfs, List.length_cons, List.take_succ_cons, List.map_cons, List.map_cons] at h
    have ⟨hd, hss⟩ := List.cons.inj h
    change node.data.name = d.name at hd
    have hss := pathsAll_putNodesAll ss (above ++ [d.name]) hss
    rw [putNodes, paths, paths, List.headD_cons, List.tail_cons, hd, hss]

theorem pathsAll_putNodesAll : (ss : List NcdbScope) → (above : List String) →
    {new : List NcdbScopeNode} →
    (new.take (dfsAll ss).length).map (·.data.name) = (dfsAll ss).map (·.data.name) →
    pathsAll above (putNodesAll new ss) = pathsAll above ss
  | [],      above, new, h => rfl
  | s :: ss, above, new, h => by
    rw [dfsAll, List.length_append, List.take_add, List.map_append, List.map_append] at h
    have hlen : ((new.take s.dfs.length).map (·.data.name)).length = (s.dfs.map (·.data.name)).length := by
      have hl := congrArg List.length h
      simp only [List.length_append, List.length_map, List.length_take, List.length_drop] at hl ⊢
      omega
    have ⟨hs, hss⟩ := List.append_inj h hlen
    rw [putNodesAll, pathsAll, pathsAll, paths_putNodes s above hs, pathsAll_putNodesAll ss above hss]

end

mutual

theorem paths_putCovers : (s : NcdbScope) → (above : List String) → {new : List NcdbCover} →
    (s.putCovers new).paths above = s.paths above
  | mk d cs ss, above, new => by
    rw [putCovers, paths, paths, pathsAll_putCoversAll ss]

theorem pathsAll_putCoversAll : (ss : List NcdbScope) → (above : List String) →
    {new : List NcdbCover} → pathsAll above (putCoversAll new ss) = pathsAll above ss
  | [],      _,     _   => rfl
  | s :: ss, above, new => by
    rw [putCoversAll, pathsAll, pathsAll, paths_putCovers s, pathsAll_putCoversAll ss]

end

-- The covers that a scope is read back with.
def readCovers (s : NcdbScope) : List NcdbCover :=
  s.restored.covers

theorem length_readCovers (s : NcdbScope) : s.readCovers.length = s.covers.length := by
  obtain ⟨d, cs, ss⟩ := s
  rw [readCovers, restored]
  split
  case isTrue ht =>
    simp only [isTogglePair, Bool.and_eq_true, decide_eq_true_eq] at ht
    exact ht.1.1.1.2.symm
  case isFalse =>
    cases cs
    · rfl
    · exact List.length_map ..

-- Nothing is attached to covers that come from the tree.
theorem attached_readCovers (s : NcdbScope) : ∀ c ∈ s.readCovers, c.attrs = [] ∧ c.assoc = [] := by
  obtain ⟨d, cs, ss⟩ := s
  rw [readCovers, restored]
  split
  case isTrue  => simp [covers, NcdbTables.readTogglePair, NcdbCover.create]
  case isFalse =>
    cases cs
    case nil  => simp [covers, restoredCovers]
    case cons => simp [covers, restoredCovers, NcdbCover.restored]

mutual

theorem covers_dfs_restored : (s : NcdbScope) →
    s.restored.dfs.map (·.covers) = s.dfs.map (·.readCovers)
  | mk d cs ss => by
    have hr : (mk d cs ss).readCovers = (mk d cs ss).restored.covers := rfl
    rw [dfs, List.map_cons, hr, restored]
    split
    case isTrue ht =>
      simp only [isTogglePair, Bool.and_eq_true, List.isEmpty_iff] at ht
      have hs : ss = [] := ht.1.1.1.1.2
      rw [hs]
      rfl
    case isFalse => rw [dfs, List.map_cons, covers_dfsAll_restoredAll ss]

theorem covers_dfsAll_restoredAll : (ss : List NcdbScope) →
    (dfsAll (restoredAll ss)).map (·.covers) = (dfsAll ss).map (·.readCovers)
  | []      => rfl
  | s :: ss => by
    rw [restoredAll, dfsAll, dfsAll, List.map_append, List.map_append, covers_dfs_restored s,
      covers_dfsAll_restoredAll ss]

end

mutual

theorem covers_dfs_putCovers : (s : NcdbScope) → {new : List (List NcdbCover)} → (more : List NcdbCover) →
    new.map (·.length) = s.dfs.map (·.covers.length) →
    (s.putCovers (new.flatten ++ more)).dfs.map (·.covers) = new
  | mk d cs ss, [],          more, h => by
    rw [dfs] at h
    cases h
  | mk d cs ss, cs' :: new, more, h => by
    rw [dfs, List.map_cons, List.map_cons] at h
    have ⟨hc, hss⟩ := List.cons.inj h
    change cs'.length = cs.length at hc
    have hss := covers_dfsAll_putCoversAll ss more hss
    rw [List.flatten_cons, List.append_assoc, putCovers, dfs, List.map_cons, ← hc, List.take_left,
      List.drop_left, hss]
    rfl

theorem covers_dfsAll_putCoversAll : (ss : List NcdbScope) → {new : List (List NcdbCover)} →
    (more : List NcdbCover) → new.map (·.length) = (dfsAll ss).map (·.covers.length) →
    (dfsAll (putCoversAll (new.flatten ++ more) ss)).map (·.covers) = new
  | [],      new, more, h => (List.map_eq_nil_iff.mp h).symm
  | s :: ss, new, more, h => by
    rw [dfsAll, List.map_append] at h
    obtain ⟨new₁, new₂, rfl, h₁, h₂⟩ := List.map_eq_append_iff.mp h
    have hlen : new₁.flatten.length = (s.dfs.flatMap (·.covers)).length := by
      rw [List.length_flatten, h₁, List.length_flatMap]
    have hs := covers_dfs_putCovers s (new₂.flatten ++ more) h₁
    have hss := covers_dfsAll_putCoversAll ss more h₂
    rw [List.flatten_append, List.append_assoc, putCoversAll, dfsAll, List.map_append, hs, ← hlen,
      List.drop_left, hss]

end

end NcdbScope

-- What is attached to a cover goes to the cover at its position.
def NcdbScope.carried (s : NcdbScope) : List NcdbCover :=
  List.zipWith (fun c c' => (c.putAttrs c'.attrs).withAssoc c'.assoc) s.readCovers s.covers

theorem zipWith_flatten {α β γ : Type} {f : α → β → γ} {xss : List (List α)} {yss : List (List β)}
    (h : xss.map (·.length) = yss.map (·.length)) :
    List.zipWith f xss.flatten yss.flatten = (List.zipWith (List.zipWith f) xss yss).flatten := by
  induction xss generalizing yss
  case nil =>
    rw [List.map_eq_nil_iff.mp h.symm]
    rfl
  case cons xs xss hi =>
    obtain ⟨ys, yss, rfl, hy, hys⟩ := List.map_eq_cons_iff.mp h.symm
    rw [List.flatten_cons, List.flatten_cons, List.zipWith_append hy.symm, hi hys.symm,
      List.zipWith_cons_cons, List.flatten_cons]

namespace NcdbScope

mutual

theorem putCovers_self : (s : NcdbScope) → (more : List NcdbCover) →
    s.putCovers (s.dfs.flatMap (·.covers) ++ more) = s
  | mk d cs ss, more => by
    have hc : (mk d cs ss).covers = cs := rfl
    rw [putCovers, dfs, List.flatMap_cons, hc, List.append_assoc, List.take_left, List.drop_left,
      putCoversAll_self ss]

theorem putCoversAll_self : (ss : List NcdbScope) → (more : List NcdbCover) →
    putCoversAll ((dfsAll ss).flatMap (·.covers) ++ more) ss = ss
  | [],      more => rfl
  | s :: ss, more => by
    rw [dfsAll, List.flatMap_append, List.append_assoc, putCoversAll, putCovers_self s, List.drop_left,
      putCoversAll_self ss]

end

end NcdbScope

namespace Ncdb

variable {db target : Ncdb}

theorem testsAssocDeserialize_fst (hf : db.AssocFormed)
    (hl : target.flattenCovers.length = db.flattenCovers.length)
    (ht : ∀ c ∈ target.flattenCovers, c.assoc = []) :
    (target.testsAssocDeserialize db.testsAssocSerialize).fst = target.putCovers
      (List.zipWith NcdbCover.withAssoc target.flattenCovers (db.flattenCovers.map (·.assoc))) := by
  by_cases hn : db.flattenCovers.all (·.assoc.isEmpty)
  case neg =>
    have ⟨_, _, hd, _⟩ := testsAssocDeserialize_eq hf hl ht hn
    rw [hd]
  case pos =>
    have ha : ∀ c ∈ db.flattenCovers, c.assoc = [] := by simpa using hn
    have hd : target.testsAssocDeserialize [] = (target, false) := rfl
    have hz : List.zipWith NcdbCover.withAssoc target.flattenCovers (db.flattenCovers.map (·.assoc))
        = target.flattenCovers := by
      refine List.ext_getElem (by simp [hl]) fun i hi hi' => ?_
      have hc := ht _ (List.getElem_mem hi')
      rw [List.getElem_zipWith, List.getElem_map, ha _ (List.getElem_mem _), NcdbCover.withAssoc, ← hc]
    rw [testsAssocSerialize, if_pos hn, hd, hz, putCovers, flattenCovers, dfsFlatten,
      ← List.append_nil ((NcdbScope.dfsAll target.roots).flatMap _), NcdbScope.putCoversAll_self]

-- The database that is read back, as far as its covers and the kinds of its history nodes go.
structure ReadBack (db read : Ncdb) : Prop where
  paths   : NcdbScope.pathsAll [] read.roots = NcdbScope.pathsAll [] db.roots
  covers  : read.dfsFlatten.map (·.covers) = db.dfsFlatten.map (·.carried)
  history : read.historyNodes.map (·.kind) = db.historyNodes.map (·.kind.toUInt8.toUInt32)

theorem carried_eq (s : NcdbScope) :
    List.zipWith NcdbCover.withAssoc
        (List.zipWith (fun c c' => c.putAttrs c'.attrs) s.readCovers s.covers) (s.covers.map (·.assoc))
      = s.carried := by
  refine List.ext_getElem (by simp [NcdbScope.carried]) fun i hi hi' => ?_
  simp [NcdbScope.carried]

-- The attributes go to the covers at their positions, in a tree of the same form.
theorem dfsFlatten_attrsDeserialize
    (hs : target.dfsFlatten.map (·.covers) = db.dfsFlatten.map (·.readCovers))
    (hh : target.historyNodes.length = db.historyNodes.length) :
    (target.attrsDeserialize db.attrsSerialize).dfsFlatten.map (·.covers) = db.dfsFlatten.map (fun s =>
      List.zipWith (fun c c' => c.putAttrs c'.attrs) s.readCovers s.covers) ∧
    NcdbScope.pathsAll [] (target.attrsDeserialize db.attrsSerialize).roots
      = NcdbScope.pathsAll [] target.roots ∧
    (target.attrsDeserialize db.attrsSerialize).historyNodes.map (·.kind)
      = target.historyNodes.map (·.kind) := by
  have hlen : target.dfsFlatten.length = db.dfsFlatten.length := by simpa using congrArg List.length hs
  have hcount : target.dfsFlatten.map (·.covers.length) = db.dfsFlatten.map (·.covers.length) := by
    have hl := congrArg (List.map List.length) hs
    rw [List.map_map, List.map_map] at hl
    refine hl.trans <| List.map_congr_left fun s _ => ?_
    exact s.length_readCovers
  rw [attrsDeserialize_attrsSerialize hcount hh]
  generalize hnodes : List.zipWith (fun (t s : NcdbScope) => (t.node.putAttrs s.data.attrs).putCovers s.covers)
    target.dfsFlatten db.dfsFlatten = nodes
  have hn : nodes.length = (NcdbScope.dfsAll target.roots).length := by
    rw [← hnodes, List.length_zipWith, ← hlen, Nat.min_self]
    rfl
  have hall := NcdbScope.nodes_putNodesAll target.roots (Nat.le_of_eq hn.symm)
  rw [← hn, List.take_length] at hall
  refine ⟨?_, ?_, ?_⟩
  · have hz : nodes.map (·.covers) = List.zipWith (fun cs (s : NcdbScope) =>
        List.zipWith (fun c c' => c.putAttrs c'.attrs) cs s.covers)
        (target.dfsFlatten.map (·.covers)) db.dfsFlatten := by
      rw [← hnodes, List.map_zipWith, List.zipWith_map_left]
      rfl
    have hput := congrArg (List.map (·.covers)) hall
    rw [List.map_map, hz, hs, List.zipWith_map_left, List.zipWith_self] at hput
    exact hput
  · refine NcdbScope.pathsAll_putNodesAll target.roots [] ?_
    rw [← hn, List.take_length, ← hnodes, List.map_zipWith]
    change List.zipWith (fun (t s : NcdbScope) => t.data.name) target.dfsFlatten db.dfsFlatten = _
    refine List.ext_getElem (by simpa [dfsFlatten] using Nat.le_of_eq hlen) fun i hi hi' => ?_
    simp [dfsFlatten]
  · rw [List.map_zipWith]
    refine List.ext_getElem (by simp [hh]) fun i hi hi' => ?_
    simp [NcdbHistoryNode.putAttrs]

theorem readBack_of_write {m : NcdbMembers} (hf : db.AssocFormed) (hw : db.write = some m)
    (hc : db.TrailerClear m.tree.data) : ∃ read, Ncdb.read m = some read ∧ db.ReadBack read := by
  have ⟨tree, ht, hm⟩ := Option.map_eq_some_iff.mp hw
  cases hm
  have hroots := (scopeTreeDeserialize_scopeTreeSerialize ht).1 hc
  let target : Ncdb := {
    roots        := NcdbScope.restoredAll db.roots
    sources      := tree.sources
    historyNodes := (db.historyNodes.map (·.kind.toUInt8)).map fun kind => { kind := kind.toUInt32 }
  }
  refine ⟨((target.attrsDeserialize db.attrsSerialize).testsAssocDeserialize db.testsAssocSerialize).fst,
    by rw [Ncdb.read, hroots]; rfl, ?_⟩
  have hrestored : target.dfsFlatten.map (·.covers) = db.dfsFlatten.map (·.readCovers) :=
    NcdbScope.covers_dfsAll_restoredAll db.roots
  have ⟨hcovers, hpaths, hkinds⟩ := dfsFlatten_attrsDeserialize hrestored (by simp [target])
  generalize target.attrsDeserialize db.attrsSerialize = mid at hcovers hpaths hkinds ⊢
  have hflat : mid.flattenCovers = (db.dfsFlatten.map fun s =>
      List.zipWith (fun c c' => c.putAttrs c'.attrs) s.readCovers s.covers).flatten := by
    rw [flattenCovers, ← hcovers, List.flatMap_def]
  have hassoc : List.zipWith NcdbCover.withAssoc mid.flattenCovers (db.flattenCovers.map (·.assoc))
      = (db.dfsFlatten.map (·.carried)).flatten := by
    rw [hflat, flattenCovers, List.flatMap_def, List.map_flatten, List.map_map, zipWith_flatten (by
      simp [Function.comp_def, NcdbScope.length_readCovers]), List.zipWith_map_left, List.zipWith_map_right,
      List.zipWith_self]
    simp only [Function.comp_apply, carried_eq]
  have hlen : mid.flattenCovers.length = db.flattenCovers.length := by
    rw [hflat, flattenCovers, List.flatMap_def, List.length_flatten, List.length_flatten]
    simp [Function.comp_def, NcdbScope.length_readCovers]
  have hnone : ∀ c ∈ mid.flattenCovers, c.assoc = [] := by
    intro c hm
    have ⟨_, hs, hm⟩ := List.mem_flatten.mp (hflat ▸ hm)
    obtain ⟨s, _, rfl⟩ := List.mem_map.mp hs
    obtain ⟨i, hi, rfl⟩ := List.mem_iff_getElem.mp hm
    rw [List.getElem_zipWith]
    exact (s.attached_readCovers _ (List.getElem_mem _)).2
  rw [testsAssocDeserialize_fst hf hlen hnone, hassoc]
  have hcount : (db.dfsFlatten.map (·.carried)).map (·.length) = mid.dfsFlatten.map (·.covers.length) := by
    have hl := congrArg (List.map List.length) hcovers
    rw [List.map_map, List.map_map] at hl
    rw [List.map_map]
    refine Eq.trans ?_ hl.symm
    refine List.map_congr_left fun s _ => ?_
    simp [NcdbScope.carried]
  have hput := NcdbScope.covers_dfsAll_putCoversAll mid.roots [] hcount
  rw [List.append_nil] at hput
  exact ⟨(NcdbScope.pathsAll_putCoversAll mid.roots []).trans
    (hpaths.trans (NcdbScope.pathsAll_restoredAll db.roots [])), hput, hkinds.trans (by simp [target])⟩

end Ncdb
