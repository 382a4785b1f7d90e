import Covsight.NcdbC.Attrs

-- Attributes are read back on the object at the position that they were written for.

section Records

variable {σ τ κ ι : Type}

theorem attrRecords_cons (k : κ) (table : List NcdbAttr) (tables : List (κ × List NcdbAttr)) :
    attrRecords ((k, table) :: tables)
      = if table = [] then attrRecords tables else (k, table) :: attrRecords tables := by
  by_cases h : table = [] <;> simp [attrRecords, h]

theorem readAttrRecords_append {put : σ → κ → List NcdbAttr → Option σ}
    {records : List (κ × List NcdbAttr)} {x y : σ} (more : List (κ × List NcdbAttr))
    (h : readAttrRecords put records x = (y, true)) :
    readAttrRecords put (records ++ more) x = readAttrRecords put more y := by
  induction records generalizing x
  case nil =>
    cases h
    rfl
  case cons r records hi =>
    rw [readAttrRecords] at h
    rw [List.cons_append, readAttrRecords]
    cases hp : put x r.fst r.snd
    case none =>
      rw [hp] at h
      cases h
    case some x =>
      rw [hp] at h
      exact hi h

-- Reading into a part of something.
theorem readAttrRecords_part {put : σ → κ → List NcdbAttr → Option σ}
    {put' : τ → ι → List NcdbAttr → Option τ} {whole : σ → τ} {key : κ → ι}
    (h : ∀ x k entries, put' (whole x) (key k) entries = (put x k entries).map whole)
    (records : List (κ × List NcdbAttr)) (x : σ) :
    readAttrRecords put' (records.map fun (k, entries) => (key k, entries)) (whole x)
      = (whole (readAttrRecords put records x).fst, (readAttrRecords put records x).snd) := by
  induction records generalizing x
  case nil => rfl
  case cons r records hi =>
    rw [List.map_cons, readAttrRecords, readAttrRecords, h]
    cases put x r.fst r.snd
    case none   => rfl
    case some x => exact hi x

end Records

theorem modifyAt_append {α : Type} (front : List α) (x : α) (back : List α) (f : α → Option α) :
    modifyAt (front ++ x :: back) front.length f = (f x).map fun y => front ++ y :: back := by
  simp [modifyAt]

-- The tables of a list go to the objects at their positions.
theorem readAttrRecords_positions {α ω : Type} (add : α → List NcdbAttr → α) (hnil : ∀ x, add x [] = x)
    (table : ω → List NcdbAttr) (front : List α) {xs : List α} {os : List ω}
    (h : xs.length = os.length) :
    readAttrRecords (fun xs i entries => modifyAt xs i fun x => some (add x entries))
        (attrRecords ((os.zipIdx front.length).map fun (o, i) => (i, table o))) (front ++ xs)
      = (front ++ List.zipWith (fun x o => add x (table o)) xs os, true) := by
  induction os generalizing front xs
  case nil =>
    cases List.eq_nil_of_length_eq_zero h
    rfl
  case cons o os hi =>
    obtain ⟨x, xs, rfl⟩ := List.exists_cons_of_length_eq_add_one h
    have hi := hi (front ++ [add x (table o)]) (Nat.succ.inj h)
    rw [List.length_append, List.length_singleton, List.append_assoc, List.append_assoc] at hi
    rw [List.zipIdx_cons, List.map_cons, attrRecords_cons, List.zipWith_cons_cons]
    split
    case isTrue ht =>
      rw [ht, hnil] at hi
      rw [ht, hnil]
      exact hi
    case isFalse =>
      rw [readAttrRecords, modifyAt_append]
      exact hi

-- A table has one entry for a key.
def AttrsFormed (table : List NcdbAttr) : Prop :=
  (table.map (·.key)).Nodup

theorem attrTableSet_of_not_mem {table : List NcdbAttr} {a : NcdbAttr}
    (h : a.key ∉ table.map (·.key)) : attrTableSet table a = table ++ [a] := by
  rw [attrTableSet, if_neg]
  simpa using h

-- Setting an entry keeps the table formed.
theorem AttrsFormed.set {table : List NcdbAttr} (h : AttrsFormed table) (a : NcdbAttr) :
    AttrsFormed (attrTableSet table a) := by
  by_cases ha : a.key ∈ table.map (·.key)
  case neg =>
    rw [attrTableSet_of_not_mem ha, AttrsFormed, List.map_append]
    refine List.nodup_append.mpr ⟨h, List.nodup_singleton _, fun k hk k' hk' he => ?_⟩
    rw [he, List.mem_singleton.mp hk'] at hk
    exact ha hk
  case pos =>
    have hany : table.any (·.key = a.key) := by simpa using ha
    have hkeys : (table.map fun e => if e.key = a.key then a else e).map (·.key) = table.map (·.key) := by
      rw [List.map_map]
      refine List.map_congr_left fun e _ => ?_
      rw [Function.comp_apply]
      split
      case isTrue he => exact he.symm
      case isFalse   => rfl
    rwa [attrTableSet, if_pos hany, AttrsFormed, hkeys]

theorem readTableInto_append {table entries : List NcdbAttr} (h : AttrsFormed (table ++ entries)) :
    readTableInto table entries = table ++ entries := by
  induction entries generalizing table
  case nil => exact (List.append_nil table).symm
  case cons a entries hi =>
    have ha : a.key ∉ table.map (·.key) := by
      rw [AttrsFormed, List.map_append, List.map_cons] at h
      exact fun hm => (List.nodup_append.mp h).2.2 _ hm _ (.head _) rfl
    have hs := attrTableSet_of_not_mem ha
    have hi := @hi (table ++ [a]) (by rwa [List.append_assoc, List.singleton_append])
    rw [List.append_assoc, List.singleton_append] at hi
    rw [readTableInto, List.foldl_cons, hs]
    exact hi

-- The covers of the scopes of a flattened tree.

def NcdbScopeNode.putCovers (node : NcdbScopeNode) (covers : List NcdbCover) : NcdbScopeNode :=
  { node with covers := List.zipWith (fun c c' => c.putAttrs c'.attrs) node.covers covers }

theorem putCoverAttrs_append (front : List NcdbScopeNode) (d : NcdbScopeData) (back : List NcdbScopeNode)
    (covers : List NcdbCover) (j : Nat) (entries : List NcdbAttr) :
    putCoverAttrs (front ++ ⟨d, covers⟩ :: back) (front.length, j) entries
      = (modifyAt covers j fun c => some (c.putAttrs entries)).map
        fun covers => front ++ ⟨d, covers⟩ :: back := by
  rw [putCoverAttrs, modifyAt_append, Option.map_map]
  rfl

theorem attrRecords_map {κ ι : Type} (key : κ → ι) (tables : List (κ × List NcdbAttr)) :
    attrRecords (tables.map fun (k, table) => (key k, table))
      = (attrRecords tables).map fun (k, table) => (key k, table) := by
  rw [attrRecords, attrRecords, List.filter_map]
  rfl

theorem readAttrRecords_coverAttrs (front : List NcdbScopeNode) (node : NcdbScopeNode)
    (back : List NcdbScopeNode) {covers : List NcdbCover} (h : node.covers.length = covers.length) :
    readAttrRecords putCoverAttrs
        (attrRecords (covers.zipIdx.map fun (c, j) => ((front.length, j), c.attrs)))
        (front ++ node :: back)
      = (front ++ node.putCovers covers :: back, true) := by
  have hrecords : attrRecords (covers.zipIdx.map fun (c, j) => ((front.length, j), c.attrs))
      = (attrRecords (covers.zipIdx.map fun (c, j) => (j, c.attrs))).map
        fun (j, table) => ((front.length, j), table) := by
    rw [← attrRecords_map, List.map_map]
    rfl
  have hput := readAttrRecords_positions NcdbCover.putAttrs (fun _ => rfl) (·.attrs) [] h
  have hpart := readAttrRecords_part (putCoverAttrs_append front node.data back)
    (attrRecords (covers.zipIdx.map fun (c, j) => (j, c.attrs))) node.covers
  rw [hrecords, hpart]
  rw [List.length_nil, List.nil_append, List.nil_append] at hput
  rw [hput]
  rfl

-- The covers of every scope get the tables of the covers at their positions.
theorem readAttrRecords_covers (front : List NcdbScopeNode) {nodes : List NcdbScopeNode}
    {ss : List NcdbScope} (h : nodes.map (·.covers.length) = ss.map (·.covers.length)) :
    readAttrRecords putCoverAttrs
        (attrRecords ((ss.zipIdx front.length).flatMap fun (s, i) =>
          s.covers.zipIdx.map fun (c, j) => ((i, j), c.attrs)))
        (front ++ nodes)
      = (front ++ List.zipWith (fun node s => node.putCovers s.covers) nodes ss, true) := by
  induction ss generalizing front nodes
  case nil =>
    rw [List.map_eq_nil_iff.mp h]
    rfl
  case cons s ss hi =>
    obtain ⟨node, nodes, rfl, hn, hns⟩ := List.map_eq_cons_iff.mp h
    have hi := hi (front ++ [node.putCovers s.covers]) hns
    have hs := readAttrRecords_coverAttrs front node nodes hn
    rw [List.length_append, List.length_singleton, List.append_assoc, List.append_assoc] at hi
    rw [List.zipIdx_cons, List.flatMap_cons, attrRecords, List.filter_append, List.zipWith_cons_cons]
    exact (readAttrRecords_append _ hs).trans hi

namespace NcdbScope

mutual

theorem nodes_putNodes : (s : NcdbScope) → {new : List NcdbScopeNode} → s.dfs.length ≤ new.length →
    (s.putNodes new).dfs.map (·.node) = new.take s.dfs.length
  | mk d cs ss, [],          h => by
    rw [dfs] at h
    cases h
  | mk d cs ss, node :: new, h => by
    rw [dfs, List.length_cons, List.length_cons, Nat.add_le_add_iff_right] at h
    rw [putNodes, dfs, dfs, List.map_cons, List.length_cons, List.take_succ_cons]
    exact congrArg (node :: ·) (nodes_putNodesAll ss h)

theorem nodes_putNodesAll : (ss : List NcdbScope) → {new : List NcdbScopeNode} →
    (dfsAll ss).length ≤ new.length →
    (dfsAll (putNodesAll new ss)).map (·.node) = new.take (dfsAll ss).length
  | [],      new, h => rfl
  | s :: ss, new, h => by
    rw [dfsAll, List.length_append] at h
    have hs := nodes_putNodes s (Nat.le_of_add_right_le h)
    have hdrop : (dfsAll ss).length ≤ (new.drop s.dfs.length).length := by
      rw [List.length_drop]
      omega
    have hss := nodes_putNodesAll ss hdrop
    rw [putNodesAll, dfsAll, dfsAll, List.map_append, hs, hss, List.length_append, List.take_add]

end

end NcdbScope

theorem readScopeAttrs_positions {nodes : List NcdbScopeNode} {ss : List NcdbScope} (h : nodes.length = ss.length) :
    readAttrRecords putScopeAttrs (attrRecords (ss.zipIdx.map fun (s, i) => (i, s.data.attrs))) nodes
      = (List.zipWith (fun node s => node.putAttrs s.data.attrs) nodes ss, true) :=
  readAttrRecords_positions NcdbScopeNode.putAttrs (fun _ => rfl) (fun s : NcdbScope => s.data.attrs) [] h

theorem readHistoryAttrs_positions {nodes nodes' : List NcdbHistoryNode} (h : nodes.length = nodes'.length) :
    readAttrRecords putHistoryAttrs (attrRecords (nodes'.zipIdx.map fun (h, i) => (i, h.attrs))) nodes
      = (List.zipWith (fun h h' => h.putAttrs h'.attrs) nodes nodes', true) :=
  readAttrRecords_positions NcdbHistoryNode.putAttrs (fun _ => rfl) (fun h : NcdbHistoryNode => h.attrs) [] h

namespace Ncdb

variable {db target : Ncdb}

-- What reading the attributes of a database comes to, in one with as many scopes, covers and history
-- nodes.
theorem attrsDeserialize_attrsSerialize
    (hs : target.dfsFlatten.map (·.covers.length) = db.dfsFlatten.map (·.covers.length))
    (hh : target.historyNodes.length = db.historyNodes.length) :
    target.attrsDeserialize db.attrsSerialize = { target with
      attrs        := readTableInto target.attrs db.attrs
      roots        := NcdbScope.putNodesAll (List.zipWith
        (fun t s => (t.node.putAttrs s.data.attrs).putCovers s.covers) target.dfsFlatten db.dfsFlatten)
        target.roots
      historyNodes :=
        List.zipWith (fun h h' => h.putAttrs h'.attrs) target.historyNodes db.historyNodes } := by
  have hlen : (target.dfsFlatten.map (·.node)).length = db.dfsFlatten.length := by
    simpa using congrArg List.length hs
  have hscopes := readScopeAttrs_positions hlen
  have hhistory := readHistoryAttrs_positions hh
  have hcount : (List.zipWith (fun node (s : NcdbScope) => node.putAttrs s.data.attrs)
      (target.dfsFlatten.map (·.node)) db.dfsFlatten).map (·.covers.length)
      = db.dfsFlatten.map (·.covers.length) := by
    rw [List.map_zipWith, List.zipWith_map_left]
    refine Eq.trans ?_ hs
    refine List.ext_getElem (by simpa using Nat.le_of_eq hlen) fun i hi hi' => ?_
    simp [NcdbScopeNode.putAttrs, NcdbScope.node]
  have hcovers := readAttrRecords_covers [] hcount
  rw [List.length_nil, List.nil_append, List.nil_append] at hcovers
  have hzip : List.zipWith (fun node (s : NcdbScope) => node.putCovers s.covers)
      (List.zipWith (fun node (s : NcdbScope) => node.putAttrs s.data.attrs)
        (target.dfsFlatten.map (·.node)) db.dfsFlatten) db.dfsFlatten
      = List.zipWith (fun t s => (t.node.putAttrs s.data.attrs).putCovers s.covers)
        target.dfsFlatten db.dfsFlatten := by
    refine List.ext_getElem (by simp) fun i hi hi' => ?_
    simp
  have hdb : ({ target with attrs := readTableInto target.attrs db.attrs } : Ncdb).dfsFlatten
      = target.dfsFlatten := rfl
  rw [hzip] at hcovers
  rw [attrsDeserialize]
  simp only [attrsSerialize, hdb, hscopes, hcovers, hhistory, if_true]

end Ncdb
