import Covsight.Ncdb.Theorems.MergeHistory

-- Which test the contributions to the bins belong to, over writing, reading and merging.

-- The contributions to the bins that are kept for the position of a node, with the node as it is
-- described when it is read. What is kept for a position without a node belongs to no test.
def contributionsAt (node : Option HistoryNode) (binCounts : Dict Nat Nat) :
    List (HistoryNode × Nat × Nat) :=
  match node with
  | none    => []
  | some hn => binCounts.entries.map (hn.reread, ·)

def contributionsOf (nodes : List HistoryNode) (contrib : Contributions) :
    List (HistoryNode × Nat × Nat) :=
  contrib.entries.flatMap fun e => contributionsAt nodes[e.fst]? e.snd

theorem HistoryNode.reread_reread (hn : HistoryNode) : hn.reread.reread = hn.reread := by
  simp only [reread]
  congr 1 <;> split <;> simp_all

theorem contributionsAt_congr {node node' : Option HistoryNode}
    (h : node'.map (·.reread) = node.map (·.reread)) (binCounts : Dict Nat Nat) :
    contributionsAt node' binCounts = contributionsAt node binCounts := by
  cases node <;> cases node' <;> simp_all [contributionsAt]

theorem contributionsAt_empty (node : Option HistoryNode) {binCounts : Dict Nat Nat}
    (h : binCounts.entries.isEmpty) : contributionsAt node binCounts = [] := by
  cases node
  case none    => rfl
  case some hn => rw [contributionsAt, List.isEmpty_iff.mp h, List.map_nil]

-- Histories that describe the same nodes at the positions of contributions.
theorem contributionsOf_congr {nodes nodes' : List HistoryNode} {contrib : Contributions}
    (h : ∀ e ∈ contrib.entries, ¬e.snd.entries.isEmpty →
      (nodes'[e.fst]?).map (·.reread) = (nodes[e.fst]?).map (·.reread)) :
    contributionsOf nodes' contrib = contributionsOf nodes contrib := by
  refine List.flatMap_congr fun e he => ?_
  by_cases hb : e.snd.entries.isEmpty
  case pos => rw [contributionsAt_empty _ hb, contributionsAt_empty _ hb]
  case neg => exact contributionsAt_congr (h e he hb) e.snd

-- Members without entries contribute nothing.
theorem contributionsOf_filter (nodes : List HistoryNode) {contrib contrib' : Contributions}
    (h : contrib'.entries = contrib.entries.filter fun e => ¬e.snd.entries.isEmpty) :
    contributionsOf nodes contrib' = contributionsOf nodes contrib := by
  rw [contributionsOf, h, contributionsOf]
  induction contrib.entries
  case nil => rfl
  case cons e es hi =>
    by_cases he : e.snd.entries.isEmpty
    case pos => rw [List.filter_cons_of_neg (by simpa using he), hi, List.flatMap_cons,
      contributionsAt_empty _ he, List.nil_append]
    case neg => rw [List.filter_cons_of_pos (by simpa using he), List.flatMap_cons, hi, List.flatMap_cons]

-- Reading.

namespace MemUCIS

theorem recordTestAssociation_perTestData (db : MemUCIS) (h b n : Nat) :
    (db.recordTestAssociation h b n).perTestData
      = db.perTestData.set h (((db.perTestData.get? h).getD ∅).set b
          (((((db.perTestData.get? h).getD ∅).get? b).getD 0) + n)) :=
  rfl

-- Recording the bins of a node one after the other.
theorem recordAll_perTestData {h : Nat} {bins : List (Nat × Nat)} (hn : (bins.map Prod.fst).Nodup)
    {db : MemUCIS} {d : Dict Nat (Dict Nat Nat)} {old : Dict Nat Nat}
    (hd : db.perTestData = d.set h old) (hf : ∀ b ∈ bins.map Prod.fst, b ∉ old) :
    (bins.foldl (fun db (b, n) => db.recordTestAssociation h b n) db).perTestData
      = d.set h (old.setAll bins) := by
  induction bins generalizing db old
  case nil => exact hd
  case cons e bins hi =>
    have ⟨he, hn⟩ := List.nodup_cons.mp hn
    rw [List.foldl_cons, Dict.setAll_cons]
    refine hi hn ?_ ?_
    · have hz : old.get? e.fst = none := Dict.get?_eq_none_iff.mpr (hf e.fst (.head _))
      rw [recordTestAssociation_perTestData, hd, Dict.get?_set_self, Option.getD_some, hz,
        Option.getD_none, Nat.zero_add, Dict.set_set]
    · intro b hb hm
      cases Dict.mem_set_iff.mp hm
      case inl hm => exact hf b (.tail _ hb) hm
      case inr hm => exact he (hm ▸ hb)

end MemUCIS

namespace Contributions

theorem perTestData_step {db : MemUCIS} {h : Nat} (hh : h ∉ db.perTestData) {bins : Dict Nat Nat}
    (hb : bins.entries ≠ []) :
    (bins.entries.foldl (fun db (b, n) => db.recordTestAssociation h b n) db).perTestData
      = db.perTestData.set h bins := by
  have hn := bins.nodup
  have he : Dict.ofList bins.entries = bins := Dict.ext (Dict.entries_ofList hn)
  generalize bins.entries = es at hb hn he
  cases es
  case nil => contradiction
  case cons e es =>
    have ⟨hx, hn⟩ := List.nodup_cons.mp hn
    have hz : db.perTestData.get? h = none := Dict.get?_eq_none_iff.mpr hh
    have hd : (db.recordTestAssociation h e.fst e.snd).perTestData
        = db.perTestData.set h ((∅ : Dict Nat Nat).set e.fst e.snd) := by
      rw [MemUCIS.recordTestAssociation_perTestData, hz, Option.getD_none, Dict.get?_empty,
        Option.getD_none, Nat.zero_add]
    have hf : ∀ b ∈ es.map Prod.fst, b ∉ (∅ : Dict Nat Nat).set e.fst e.snd := by
      intro b hm hs
      cases Dict.mem_set_iff.mp hs
      case inl hs => exact Dict.not_mem_empty b hs
      case inr hs => exact hx (hs ▸ hm)
    rw [List.foldl_cons, MemUCIS.recordAll_perTestData hn hd hf]
    exact congrArg _ he

-- Recording the bins of nodes that have none yet.
theorem perTestData_foldl {es : List (Nat × Dict Nat Nat)} {db : MemUCIS} (hn : (es.map Prod.fst).Nodup)
    (hf : ∀ k ∈ es.map Prod.fst, k ∉ db.perTestData) :
    (es.foldl (fun db (h, bins) => bins.entries.foldl (fun db (b, n) =>
      db.recordTestAssociation h b n) db) db).perTestData.entries
      = db.perTestData.entries ++ es.filter fun e => ¬e.snd.entries.isEmpty := by
  induction es generalizing db
  case nil => simp
  case cons e es hi =>
    obtain ⟨h, bins⟩ := e
    obtain ⟨he, hn⟩ := List.nodup_cons.mp hn
    rw [List.foldl_cons]
    simp only
    by_cases hb : bins.entries.isEmpty
    case pos =>
      rw [List.filter_cons_of_neg (by simpa using hb), List.isEmpty_iff.mp hb]
      exact hi hn fun k hk => hf k (.tail _ hk)
    case neg =>
      have hs := perTestData_step (hf h (.head _)) (mt List.isEmpty_iff.mpr hb)
      rw [List.filter_cons_of_pos (by simpa using hb), hi hn ?_, hs,
        Dict.entries_set_of_not_mem (hf h (.head _)), List.append_assoc]
      · rfl
      · intro k hk hm
        rw [hs] at hm
        cases Dict.mem_set_iff.mp hm
        case inl hm => exact hf k (.tail _ hk) hm
        case inr hm => exact he (hm ▸ hk)

theorem perTestData_apply (members : Contributions) {db : MemUCIS} (hd : db.perTestData = ∅) :
    (members.apply db).perTestData.entries
      = members.entries.filter fun e => ¬e.snd.entries.isEmpty := by
  have hm := @perTestData_foldl members.entries db members.nodup (by simp [hd])
  rwa [hd, Dict.entries_empty, List.nil_append] at hm

end Contributions

-- The other members leave the contributions.

namespace NcdbReader

open MemUCIS

theorem perTestData_createFileHandles (files : List String) (db : MemUCIS) :
    (files.foldl createFileHandle db).perTestData = db.perTestData := by
  refine foldl_preserves (·.perTestData) (fun db file => ?_) files db
  rw [createFileHandle]
  split <;> rfl

theorem perTestData_createHistoryNodes (nodes : List HistoryNode) (db : MemUCIS) :
    (nodes.foldl createHistoryNode db).perTestData = db.perTestData := by
  refine foldl_preserves (·.perTestData) ?_ nodes db
  exact fun _ _ => rfl

theorem perTestData_formal (results : Option FormalResults) (db : MemUCIS) :
    (db.applying results FormalResults.apply).perTestData = db.perTestData := by
  cases results
  case none => rfl
  case some results =>
    refine foldl_preserves (·.perTestData) ?_ _ db
    exact fun _ _ => rfl

theorem perTestData_attrs (a : Option Attrs) (db : MemUCIS) :
    (db.applying a Attrs.apply).perTestData = db.perTestData := by
  cases a <;> rfl

theorem perTestData_applyMembers (a : Archive) {db : MemUCIS} (h : db.perTestData = ∅) :
    (applyMembers a db).perTestData.entries
      = a.contrib.entries.filter fun e => ¬e.snd.entries.isEmpty := by
  rw [applyMembers, perTestData_attrs, perTestData_createHistoryNodes, perTestData_createFileHandles,
    (ScopesOnly.sources _).perTestData, ScopesOnly.flags.perTestData, ScopesOnly.types.perTestData,
    perTestData_formal]
  refine Contributions.perTestData_apply a.contrib ?_
  rw [ScopesOnly.crosses.perTestData, ScopesOnly.tags.perTestData, h]

variable {a : Archive} {runs : Option (List String)} {db : LoadedUCIS}

-- A database that was read holds the contributions of its archive.
theorem Read.contributionsOf_eq (rd : Read a runs db) :
    contributionsOf db.historyNodes db.perTestData = contributionsOf a.history a.contrib := by
  have hp : db.perTestData.entries = _ := rd.members ▸ perTestData_applyMembers a rfl
  rw [contributionsOf_filter db.historyNodes hp]
  refine contributionsOf_congr fun e _ _ => ?_
  rw [rd.historyNodes_eq, readHistory_getElem?, createdNodes, List.getElem?_map, Option.map_map,
    Option.map_map]
  exact congrArg (Option.map · _) <| funext fun hn => hn.reread_reread

end NcdbReader

-- Writing regroups the history, while contributions stay at their positions. They stay with their
-- nodes if the regrouping has the same nodes at these positions.
def InPlace (db : MemUCIS) : Prop :=
  ∀ e ∈ db.perTestData.entries, ¬e.snd.entries.isEmpty → e.fst < db.historyNodes.length ∧
    (storedNodes db.historyNodes)[e.fst]? = db.historyNodes[e.fst]?

instance (db : MemUCIS) : Decidable (InPlace db) := by
  unfold InPlace; infer_instance

-- An archive whose contributions all belong to a test.
def Archive.Attributed (a : Archive) : Prop :=
  ∀ h ∈ a.contrib, h < a.history.length

section Write

variable {accel : Bool} {db : LoadedUCIS} {v2 : Option V2Members} {out : Archive}

theorem write_contrib (hw : NcdbWriter.write accel db v2 = .ok out) :
    out.history = (storedNodes db.historyNodes).map HistoryNode.store ∧
    out.contrib.entries = db.perTestData.entries.filter fun e => ¬e.snd.entries.isEmpty := by
  have ⟨⟨tree, w⟩, _, hw⟩ := bind_ok hw
  have ⟨_, _, hw⟩ := bind_ok hw
  cases hw
  have hn : ((db.perTestData.entries.filter fun e => ¬e.snd.entries.isEmpty).map Prod.fst).Nodup :=
    db.perTestData.nodup.sublist (List.filter_sublist.map Prod.fst)
  have he := Dict.entries_ofList hn
  rw [NcdbWriter.members]
  cases v2 <;> exact ⟨rfl, he⟩

theorem write_attribution (hw : NcdbWriter.write accel db v2 = .ok out) (hp : InPlace db.toMemUCIS) :
    contributionsOf out.history out.contrib = contributionsOf db.historyNodes db.perTestData ∧
    out.Attributed := by
  have ⟨hh, hc⟩ := write_contrib hw
  constructor
  case left =>
    rw [contributionsOf_filter out.history hc]
    refine contributionsOf_congr fun e he hb => ?_
    rw [hh, List.getElem?_map, (hp e he hb).2, Option.map_map]
    rfl
  case right =>
    intro h hm
    have ⟨e, he, hf⟩ := List.mem_map.mp hm
    rw [hc, List.mem_filter] at he
    have ⟨hl, hs⟩ := hp e he.1 (by simpa using he.2)
    rw [List.getElem?_eq_getElem hl] at hs
    rw [← hf, hh, List.length_map]
    exact (List.getElem?_eq_some_iff.mp hs).1

end Write

-- Merging.

section Merge

-- The contributions of some archives, moved to where the nodes of each start.
def shifted (offset : Nat) : List Archive → List (Nat × Dict Nat Nat)
  | []      => []
  | a :: as => a.contrib.entries.map (fun e => (e.fst + offset, e.snd)) ++
    shifted (offset + a.history.length) as

theorem historyOffsets_cons (a : Archive) (as : List Archive) :
    NcdbMerger.historyOffsets (a :: as)
      = 0 :: (NcdbMerger.historyOffsets as).map (a.history.length + ·) := by
  simp [NcdbMerger.historyOffsets, List.range_succ_eq_map, Function.comp_def]

theorem setAll_shift (offset : Nat) (es : List (Nat × Dict Nat Nat)) (d : Contributions) :
    es.foldl (fun out (index, binCounts) => out.set (index + offset) binCounts) d
      = d.setAll (es.map fun e => (e.fst + offset, e.snd)) := by
  induction es generalizing d
  case nil          => rfl
  case cons e es hi => exact hi _

theorem foldl_renumber (sources : List Archive) (offset : Nat) (d : Contributions) :
    ((sources.map (·.contrib)).zip ((NcdbMerger.historyOffsets sources).map (offset + ·))).foldl
      (fun out (members, offset) => members.entries.foldl (fun out (index, binCounts) =>
        out.set (index + offset) binCounts) out) d = d.setAll (shifted offset sources) := by
  induction sources generalizing offset d
  case nil => rfl
  case cons a as hi =>
    have hm : (NcdbMerger.historyOffsets (a :: as)).map (offset + ·)
        = offset :: (NcdbMerger.historyOffsets as).map (offset + a.history.length + ·) := by
      rw [historyOffsets_cons, List.map_cons, List.map_map, Nat.add_zero]
      refine congrArg _ <| List.map_congr_left fun n _ => ?_
      rw [Function.comp_apply, Nat.add_assoc]
    rw [hm, List.map_cons, List.zip_cons_cons, List.foldl_cons, hi, shifted, Dict.setAll_append]
    exact congrArg (Dict.setAll · _) (setAll_shift ..)

theorem renumberContrib_eq (sources : List Archive) :
    renumberContrib ((sources.map (·.contrib)).zip (NcdbMerger.historyOffsets sources))
      = Dict.ofList (shifted 0 sources) := by
  have h := foldl_renumber sources 0 ∅
  simp only [Nat.zero_add, List.map_id'] at h
  exact h

variable {sources : List Archive}

-- The positions of the contributions of several archives do not clash.
theorem shifted_keys (h : ∀ a ∈ sources, a.Attributed) (offset : Nat) :
    ((shifted offset sources).map Prod.fst).Nodup ∧
    ∀ e ∈ shifted offset sources, offset ≤ e.fst := by
  induction sources generalizing offset
  case nil => exact ⟨.nil, by simp [shifted]⟩
  case cons a as hi =>
    have ⟨hn, hl⟩ := hi (fun a ha => h a (.tail _ ha)) (offset + a.history.length)
    have hk : ∀ e ∈ a.contrib.entries, e.fst < a.history.length :=
      fun e he => h a (.head _) e.fst (List.mem_map_of_mem he)
    constructor
    case right =>
      intro e he
      cases List.mem_append.mp he
      case inl he =>
        have ⟨e', _, he⟩ := List.mem_map.mp he
        rw [← he]
        exact Nat.le_add_left ..
      case inr he => exact Nat.le_trans (Nat.le_add_right ..) (hl e he)
    case left =>
      rw [shifted, List.map_append, List.nodup_append]
      refine ⟨?_, hn, fun k hk₁ k' hk₂ => ?_⟩
      · rw [List.map_map]
        have hm := a.contrib.nodup.map (f := (· + offset)) fun _ _ => Nat.add_right_cancel
        rwa [List.map_map] at hm
      · have ⟨e, he, hf⟩ := List.mem_map.mp hk₁
        have ⟨e₁, he₁, hf₁⟩ := List.mem_map.mp he
        have ⟨e₂, he₂, hf₂⟩ := List.mem_map.mp hk₂
        have h₁ := hk e₁ he₁
        have h₂ := hl e₂ he₂
        rw [← hf, ← hf₁, ← hf₂]
        simp only
        omega

theorem shifted_lt (h : ∀ a ∈ sources, a.Attributed) (offset : Nat) :
    ∀ e ∈ shifted offset sources, e.fst < offset + (sources.flatMap (·.history)).length := by
  induction sources generalizing offset
  case nil => simp [shifted]
  case cons a as hi =>
    intro e he
    rw [List.flatMap_cons, List.length_append]
    cases List.mem_append.mp he
    case inl he =>
      have ⟨e', he', he⟩ := List.mem_map.mp he
      have hl := h a (.head _) e'.fst (List.mem_map_of_mem he')
      rw [← he]
      simp only
      omega
    case inr he =>
      have hl := hi (fun a ha => h a (.tail _ ha)) _ e he
      omega

-- In the merged history every contribution is at the node it was at in its source.
theorem contributions_shifted (h : ∀ a ∈ sources, a.Attributed) (before : List HistoryNode)
    (node : HistoryNode) :
    (shifted before.length sources).flatMap (fun e => contributionsAt
        ((before ++ (sources.flatMap (·.history) ++ [node])).map HistoryNode.store)[e.fst]? e.snd)
      = sources.flatMap fun a => contributionsOf a.history a.contrib := by
  induction sources generalizing before
  case nil => rfl
  case cons a as hi =>
    have hi := hi (fun a ha => h a (.tail _ ha)) (before ++ a.history)
    rw [List.length_append] at hi
    rw [shifted, List.flatMap_append, List.flatMap_cons, List.flatMap_cons, List.append_assoc,
      ← List.append_assoc before, hi, List.flatMap_map]
    refine congrArg (· ++ _) <| List.flatMap_congr fun e he => ?_
    have hl : e.fst < a.history.length := h a (.head _) e.fst (List.mem_map_of_mem he)
    refine contributionsAt_congr ?_ e.snd
    rw [List.getElem?_map, List.append_assoc, List.getElem?_append_right (by simp),
      Nat.add_sub_cancel, List.getElem?_append_left hl, Option.map_map]
    rfl

variable {accel : Bool} {node : HistoryNode} {first out : Archive} {rest : List Archive}

theorem merge_attribution (hm : NcdbMerger.mergeSameSchema accel node first rest = .ok out)
    (h : ∀ a ∈ first :: rest, a.Attributed) :
    contributionsOf out.history out.contrib
      = (first :: rest).flatMap (fun a => contributionsOf a.history a.contrib) ∧
    out.Attributed := by
  have ⟨m⟩ := NcdbMerger.mergeSameSchema_ok hm
  have ⟨hn, _⟩ := shifted_keys h 0
  have hc : out.contrib.entries = shifted 0 (first :: rest) := by
    rw [m.contrib, renumberContrib_eq, Dict.entries_ofList hn]
  constructor
  case left =>
    rw [contributionsOf, hc, m.history]
    exact contributions_shifted h [] node
  case right =>
    intro p hp
    have ⟨e, he, hf⟩ := List.mem_map.mp hp
    rw [hc] at he
    have hl := shifted_lt h 0 e he
    rw [← hf, m.history, NcdbMerger.mergedHistory, List.length_map, List.length_append]
    omega

end Merge

-- What comes out of databases by writing them, by reading and writing an archive again and by merging
-- archives, as far as the databases that are written are allowed.
inductive Chain (allowed : LoadedUCIS → Prop) : List LoadedUCIS → Archive → Prop
  | write {accel db v2 out} :
    allowed db → NcdbWriter.write accel db v2 = .ok out → Chain allowed [db] out
  | rewrite {accel dbs a runs db v2 out} :
    Chain allowed dbs a → NcdbReader.read a runs = .ok db → allowed db →
    NcdbWriter.write accel db v2 = .ok out → Chain allowed dbs out
  | merge {accel node first rest out} {sources : List (List LoadedUCIS × Archive)} :
    (∀ s ∈ sources, Chain allowed s.fst s.snd) → sources.map Prod.snd = first :: rest →
    NcdbMerger.mergeSameSchema accel node first rest = .ok out →
    Chain allowed (sources.flatMap Prod.fst) out

namespace Chain

variable {dbs : List LoadedUCIS} {out : Archive}

theorem attributed (h : Chain (fun db => InPlace db.toMemUCIS) dbs out) :
    contributionsOf out.history out.contrib
      = dbs.flatMap (fun db => contributionsOf db.historyNodes db.perTestData) ∧
    out.Attributed := by
  induction h
  case write hp hw =>
    rw [List.flatMap_singleton]
    exact write_attribution hw hp
  case rewrite hr hp hw hi =>
    have ⟨rd⟩ := NcdbReader.read_ok hr
    have ⟨hc, ha⟩ := write_attribution hw hp
    exact ⟨hc.trans (rd.contributionsOf_eq.trans hi.1), ha⟩
  case merge sources _ he hm hi =>
    have ha : ∀ a ∈ sources.map Prod.snd, a.Attributed := by
      intro a ha
      have ⟨s, hs, ha⟩ := List.mem_map.mp ha
      exact ha ▸ (hi s hs).2
    rw [he] at ha
    have ⟨hc, ha⟩ := merge_attribution hm ha
    refine ⟨hc.trans ?_, ha⟩
    rw [← he, List.flatMap_map, List.flatMap_assoc]
    exact List.flatMap_congr fun s hs => (hi s hs).1

-- Every contribution is at the node that describes its test, in the archive and in what is read from
-- it, if no write of the chain moves a node that has contributions.
theorem keeps_attribution (h : Chain (fun db => InPlace db.toMemUCIS) dbs out) :
    (contributionsOf out.history out.contrib).Perm
      (dbs.flatMap fun db => contributionsOf db.historyNodes db.perTestData) ∧
    ∀ runs db, NcdbReader.read out runs = .ok db →
      (contributionsOf db.historyNodes db.perTestData).Perm
        (dbs.flatMap fun db => contributionsOf db.historyNodes db.perTestData) := by
  have ⟨hc, _⟩ := h.attributed
  refine ⟨.of_eq hc, fun runs db hr => ?_⟩
  have ⟨rd⟩ := NcdbReader.read_ok hr
  exact .of_eq (rd.contributionsOf_eq.trans hc)

-- A database with a test, and one where a merge comes before the test.
def testDb : LoadedUCIS where
  historyNodes := [{ logicalName := "t", kind := some .test }]
  perTestData  := Dict.empty.set 0 (Dict.empty.set 0 1)

def mergedDb : LoadedUCIS where
  historyNodes := [{ logicalName := "m", kind := some .merge }, { logicalName := "t", kind := some .test }]
  perTestData  := Dict.empty.set 1 (Dict.empty.set 0 1)

theorem keeps_attribution_test : ∃ a out,
    NcdbWriter.write false testDb = .ok a ∧
    NcdbMerger.mergeSameSchema false (NcdbMerger.mergeNode "out.cdb" ["a.cdb", "a.cdb"] 0) a [a]
      = .ok out ∧
    (contributionsOf out.history out.contrib).Perm
      ([testDb, testDb].flatMap fun db => contributionsOf db.historyNodes db.perTestData) := by
  have ⟨a, hw⟩ : ∃ a, NcdbWriter.write false testDb = .ok a := ⟨_, rfl⟩
  have ⟨out, hm⟩ : ∃ out, NcdbMerger.mergeSameSchema false
      (NcdbMerger.mergeNode "out.cdb" ["a.cdb", "a.cdb"] 0) a [a] = .ok out := by
    cases hw
    exact ⟨_, rfl⟩
  refine ⟨a, out, hw, hm, ?_⟩
  have hc : ∀ s ∈ [([testDb], a), ([testDb], a)],
      Chain (fun db => InPlace db.toMemUCIS) s.fst s.snd := by
    have hc : Chain (fun db => InPlace db.toMemUCIS) [testDb] a := .write (by decide) hw
    simpa using hc
  exact (keeps_attribution (.merge hc rfl hm)).1

-- Written and read back, the contribution of the test is held by the merge.
theorem moves_attribution : ∃ out db,
    NcdbWriter.write false mergedDb = .ok out ∧ NcdbReader.read out = .ok db ∧
    (contributionsOf mergedDb.historyNodes mergedDb.perTestData).map (·.fst.logicalName) = ["t"] ∧
    (contributionsOf db.historyNodes db.perTestData).map (·.fst.logicalName) = ["m"] :=
  ⟨_, _, rfl, rfl, rfl, rfl⟩

end Chain
