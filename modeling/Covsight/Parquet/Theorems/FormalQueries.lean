import Covsight.Parquet.Theorems.FlatBins

-- Formal results by flat bin index, in memory and read from a dataset.

namespace FormalData

-- What a result shows. A field that was never set shows its default, as a missing result does.
def shown (fd : Option FormalData) : Nat × Nat × Option String :=
  ((fd.bind (·.status)).getD formalNone, (fd.bind (·.radius)).getD 0, fd.bind (·.witness))

-- The results that a dataset gives back: the status is a known one, and a witness has a status that it
-- is the witness of. The witness of a conflict has to say something.
structure Readable (fd : FormalData) : Prop where
  known     : fd.status.getD formalNone ≤ formalConflict
  witnessed : fd.witness ≠ none → fd.status ≠ none
  conflict  : fd.status = some formalConflict → fd.witness ≠ some ""

-- How a dataset shows a result of its own.
def reread (fd : FormalData) : Nat × Nat × Option String :=
  shown (some (ParquetDataset.mergedFormal [fd]))

theorem mergeFormalStatuses_singleton (s : Nat) :
    mergeFormalStatuses [s] = if s ≤ formalConflict then s else formalNone := by
  rw [FormalStatus.mergeFormalStatuses_eq_tally, List.map_singleton, tally.singleton, FormalStatus.of]
  have hlt : s < 7 ↔ s ≤ formalConflict := Nat.lt_succ_iff
  by_cases h : s < 7
  case pos => rw [dif_pos h, if_pos (hlt.mp h)]
  case neg => rw [dif_neg h, if_neg (h ∘ hlt.mpr)]; rfl

variable {fd : FormalData}

theorem reread_radius (fd : FormalData) : fd.reread.snd.fst = fd.radius.getD 0 := by
  simp only [reread, shown, ParquetDataset.mergedFormal, Option.bind_some]
  grind

theorem reread_of_none (h : fd.status = none) : fd.reread = (formalNone, fd.radius.getD 0, none) := by
  refine Prod.ext ?_ (Prod.ext (reread_radius fd) ?_)
  · simp [reread, shown, ParquetDataset.mergedFormal, h]; rfl
  · simp [reread, shown, ParquetDataset.mergedFormal, ParquetDataset.mergedWitness, h,
      show mergeFormalStatuses [] ≠ formalConflict by decide]

theorem reread_of_some {s : Nat} (h : fd.status = some s) (hs : s < formalConflict) :
    fd.reread = (s, fd.radius.getD 0, fd.witness) := by
  have hm := mergeFormalStatuses_singleton s
  rw [if_pos (Nat.le_of_lt hs)] at hm
  refine Prod.ext ?_ (Prod.ext (reread_radius fd) ?_)
  · simp [reread, shown, ParquetDataset.mergedFormal, h, hm]
  · simp [reread, shown, ParquetDataset.mergedFormal, ParquetDataset.mergedWitness, h, hm,
      Nat.ne_of_lt hs]

theorem reread_of_conflict (h : fd.status = some formalConflict) :
    fd.reread = (formalConflict, fd.radius.getD 0, fd.witness.filter (· ≠ "")) := by
  have hm := mergeFormalStatuses_singleton formalConflict
  rw [if_pos (Nat.le_refl _)] at hm
  have hfirst : ParquetDataset.mergedWitness [fd] formalConflict = fd.witness.filter (· ≠ "") := by
    rw [ParquetDataset.mergedWitness, if_pos rfl]
    cases hw : fd.witness
    case none   => rw [List.filterMap_cons_none hw]; rfl
    case some w =>
      rw [List.filterMap_cons_some hw, List.filterMap_nil]
      by_cases he : w = ""
      case pos => rw [he]; rfl
      case neg =>
        let p (x : String) : Bool := x ≠ ""
        have hp : p w := decide_eq_true he
        exact (List.find?_cons_of_pos (p := p) hp).trans (Option.filter_some_pos (p := p) hp).symm
  have hstatus : mergeFormalStatuses ([fd].filterMap (·.status)) = formalConflict := by
    rw [List.filterMap_cons_some h, List.filterMap_nil, hm]
  refine Prod.ext ?_ (Prod.ext (reread_radius fd) ?_)
  · rw [reread, ParquetDataset.mergedFormal, hstatus]; rfl
  · rw [reread, ParquetDataset.mergedFormal, hstatus, ← hfirst]; rfl

theorem reread_of_unknown {s : Nat} (h : fd.status = some s) (hs : formalConflict < s) :
    fd.reread = (formalNone, fd.radius.getD 0, none) := by
  have hm := mergeFormalStatuses_singleton s
  rw [if_neg (Nat.not_le_of_lt hs)] at hm
  have hne : s ≠ formalNone := by
    intro he
    rw [he] at hs
    exact absurd hs (by decide)
  refine Prod.ext ?_ (Prod.ext (reread_radius fd) ?_)
  · simp [reread, shown, ParquetDataset.mergedFormal, h, hm]
  · simp [reread, shown, ParquetDataset.mergedFormal, ParquetDataset.mergedWitness, h, hm, hne,
      show formalNone ≠ formalConflict by decide]

-- The kinds of statuses.
theorem status_cases (fd : FormalData) : fd.status = none ∨ (∃ s < formalConflict, fd.status = some s) ∨
    fd.status = some formalConflict ∨ ∃ s > formalConflict, fd.status = some s := by
  cases hs : fd.status
  case none => exact .inl rfl
  case some s =>
    obtain h | h | h := Nat.lt_trichotomy s formalConflict
    · exact .inr (.inl ⟨s, h, rfl⟩)
    · exact .inr (.inr (.inl (congrArg some h)))
    · exact .inr (.inr (.inr ⟨s, h, rfl⟩))

theorem filter_eq_self_iff {w : Option String} : w.filter (· ≠ "") = w ↔ w ≠ some "" := by
  cases w
  case none   => simp
  case some w => simp [Option.filter]

theorem reread_eq_iff : fd.reread = shown (some fd) ↔ fd.Readable := by
  have hshown : shown (some fd) = (fd.status.getD formalNone, fd.radius.getD 0, fd.witness) := rfl
  rw [hshown]
  obtain hs | ⟨s, hlt, hs⟩ | hs | ⟨s, hlt, hs⟩ := fd.status_cases
  · rw [reread_of_none hs, hs]
    constructor
    case mp =>
      intro h
      have hw : none = fd.witness := congrArg (·.snd.snd) h
      exact ⟨by rw [hs]; decide, fun hn => absurd hw.symm hn, by rw [hs]; exact fun h => nomatch h⟩
    case mpr =>
      intro h
      have hw : fd.witness = none := by
        by_contra hn
        exact h.witnessed hn hs
      rw [hw]
      rfl
  · rw [reread_of_some hs hlt, hs]
    refine iff_of_true rfl ⟨?_, fun _ => ?_, fun he => ?_⟩
    · rw [hs]; exact Nat.le_of_lt hlt
    · rw [hs]; exact Option.some_ne_none s
    · rw [hs] at he; exact absurd (Option.some.inj he) (Nat.ne_of_lt hlt)
  · rw [reread_of_conflict hs, hs]
    constructor
    case mp =>
      intro h
      have hw : fd.witness.filter (· ≠ "") = fd.witness := congrArg (·.snd.snd) h
      refine ⟨by rw [hs]; exact Nat.le_refl _, fun _ => ?_, fun _ => filter_eq_self_iff.mp hw⟩
      rw [hs]; exact Option.some_ne_none _
    case mpr =>
      intro h
      rw [filter_eq_self_iff.mpr (h.conflict hs)]
      rfl
  · rw [reread_of_unknown hs hlt, hs]
    refine iff_of_false (fun h => ?_) fun h => ?_
    · have hne : formalNone = s := congrArg (·.fst) h
      exact absurd (hne ▸ hlt) (by decide)
    · have hle := h.known
      rw [hs] at hle
      exact absurd hlt (Nat.not_lt_of_le hle)

-- A dataset shows nothing that it could not give back.
theorem reread_le (fd : FormalData) : fd.reread.fst ≤ formalConflict := by
  obtain hs | ⟨s, hlt, hs⟩ | hs | ⟨s, hlt, hs⟩ := fd.status_cases
  · rw [reread_of_none hs]; exact Nat.zero_le _
  · rw [reread_of_some hs hlt]; exact Nat.le_of_lt hlt
  · rw [reread_of_conflict hs]
  · rw [reread_of_unknown hs hlt]; exact Nat.zero_le _

-- Results that are shown in each other's place can be given back.
theorem Readable.of_swapped {fd fd' : FormalData} (h : fd.reread = shown (some fd'))
    (h' : fd'.reread = shown (some fd)) : fd.Readable := by
  have hw : fd.reread.snd.snd = fd'.witness := congrArg (·.snd.snd) h
  have hw' : fd'.reread.snd.snd = fd.witness := congrArg (·.snd.snd) h'
  have ht : fd.reread.fst = fd'.status.getD formalNone := congrArg (·.fst) h
  have ht' : fd'.reread.fst = fd.status.getD formalNone := congrArg (·.fst) h'
  refine ⟨ht' ▸ fd'.reread_le, fun hn hs => hn ?_, fun hs he => ?_⟩
  · rw [reread_of_none hs] at hw
    obtain hs' | ⟨s, hlt, hs'⟩ | hs' | ⟨s, hlt, hs'⟩ := fd'.status_cases
    · rw [reread_of_none hs'] at hw'; exact hw'.symm
    · rw [reread_of_some hs' hlt] at hw'; exact hw'.symm.trans hw.symm
    · rw [reread_of_conflict hs', ← hw] at hw'; exact hw'.symm
    · rw [reread_of_unknown hs' hlt] at hw'; exact hw'.symm
  · rw [hs] at ht'
    obtain hs' | ⟨s, hlt, hs'⟩ | hs' | ⟨s, hlt, hs'⟩ := fd'.status_cases
    · rw [reread_of_none hs'] at ht'; exact absurd (show (0 : Nat) = 6 from ht') (by decide)
    · rw [reread_of_some hs' hlt] at ht'; exact absurd ht' (Nat.ne_of_lt hlt)
    · rw [reread_of_conflict hs', he] at hw'
      have hf := Option.filter_eq_some_iff.mp hw'
      simp at hf
    · rw [reread_of_unknown hs' hlt] at ht'; exact absurd (show (0 : Nat) = 6 from ht') (by decide)

end FormalData

namespace LinkedUCIS

open Walk (visited itemKeys)

variable {db : LinkedUCIS} {d : ParquetDataset} {runId : String}

theorem length_itemKeys (db : LinkedUCIS) : (itemKeys (visited db.api)).length = db.totalBinCount := by
  have h := congrArg List.sum db.lengths_visited
  simpa [itemKeys, List.length_flatMap, MemUCIS.totalBinCount] using h

-- The result of a bin, as it was written: no result where none was set.
def resultAt (db : LinkedUCIS) (i : Nat) : FormalData :=
  (db.formalData.get? i).getD {}

theorem shown_resultAt (db : LinkedUCIS) (i : Nat) :
    FormalData.shown (some (db.resultAt i)) = FormalData.shown (db.formalData.get? i) := by
  rw [resultAt]
  cases db.formalData.get? i <;> rfl

-- The rows of a table that is keyed by ids, where the ids are those of the bins.
theorem rows_of_id {α : Type} {g : Nat → Option α} {i j : Nat} (hj : db.binIds[j]? = some i) :
    ((db.binIds.zipIdx.filterMap fun (id, b) => (g b).map (id, ·)).filter (·.fst = i)).map Prod.snd
      = (g j).toList := by
  have hn : ((db.binIds.zipIdx.filterMap fun (id, b) => (g b).map (id, ·)).map Prod.fst).Nodup := by
    have hs : ∀ xs : List (Nat × Nat),
        ((xs.filterMap fun (id, b) => (g b).map (id, ·)).map Prod.fst).Sublist (xs.map Prod.fst) := by
      intro xs
      induction xs
      case nil => exact .slnil
      case cons x xs hi =>
        cases hg : g x.snd
        case none   => simpa [hg] using hi.cons x.fst
        case some a => simpa [hg] using hi.cons_cons x.fst
    have hz := hs db.binIds.zipIdx
    rw [List.zipIdx_map_fst] at hz
    exact hz.nodup binIds_nodup
  let rows : Dict Nat α := ⟨_, hn⟩
  have hget : rows.get? i = g j := by
    ext a
    rw [Dict.get?_eq_some_iff, List.mem_filterMap]
    constructor
    case mp =>
      intro ⟨⟨id, b⟩, hm, ha⟩
      have hb := List.mem_zipIdx_iff_getElem?.mp hm
      have ⟨a', ha', he⟩ := Option.map_eq_some_iff.mp ha
      cases he
      have hbj : b = j := by
        have hlt := (List.getElem?_eq_some_iff.mp hb).1
        exact (List.getElem?_inj hlt binIds_nodup).mp (hb.trans hj.symm)
      exact hbj ▸ ha'
    case mpr =>
      intro ha
      exact ⟨(i, j), List.mem_zipIdx_iff_getElem?.mpr hj, by simp [ha]⟩
  exact (rows.filter_entries i).trans (congrArg Option.toList hget)

end LinkedUCIS

namespace Holds

open LinkedUCIS

variable {db : LinkedUCIS} {d : ParquetDataset} {runId : String} (h : Holds d db.api runId)
  (hids : Walk.flatCoveritemIds db.api (Walk.visited db.api) = db.binIds)

include h hids

-- The dataset shows the result of the bin that has the id.
theorem shown_getFormalData {i j : Nat} (hi : i < db.totalBinCount) (hj : db.binIds[j]? = some i) :
    FormalData.shown (d.getFormalData i) = (db.resultAt j).reread := by
  have hflat : d.flatCoveritemIds[i]? = some i := by
    rw [h.flatCoveritemIds, length_itemKeys, List.getElem?_range hi]
  have hrows : d.formalRows = db.binIds.zipIdx.filterMap fun (id, b) =>
      ((db.formalData.get? b).filter (· ≠ {})).map (id, ·) := by
    rw [ParquetDataset.formalRows, h.measurement, List.map_map, ← hids]
    exact List.map_id _
  have hone := rows_of_id (g := fun b => (db.formalData.get? b).filter (· ≠ {})) hj
  rw [← hrows] at hone
  have hempty : (({} : FormalData)).reread = FormalData.shown none := by decide
  rw [ParquetDataset.getFormalData, hflat, Option.bind_some, ParquetDataset.get?_formalData]
  have hm : i ∈ d.formalRows.map Prod.fst ↔ (d.formalRows.filter (·.fst = i)).map Prod.snd ≠ [] := by
    simp [List.filter_eq_nil_iff]
  simp only [hm, hone]
  cases hg : db.formalData.get? j
  case none => simp [resultAt, hg, hempty]
  case some fd =>
    by_cases hfd : fd = {}
    case pos => simp [resultAt, hg, hfd, hempty]
    case neg => simp [resultAt, hg, Option.filter, hfd, FormalData.reread]

end Holds
