import Covsight.Lib.Call
import Covsight.Ncdb.Theorems.MergeCounts
import Mathlib.Algebra.Order.BigOperators.Group.List
import Mathlib.Algebra.Order.Group.Nat
import Mathlib.Data.List.Induction

-- Merging files in several steps, each of them writing a file that is merged again.

abbrev MergePlan := Plan Archive HistoryNode

namespace NcdbMerger

open NcdbReader

variable {accel : Bool} {sources rest : List Archive} {node : HistoryNode} {first out : Archive}
variable {bin : Nat}

-- What the operator table of the merge says of a bin.

theorem mergedOps_concat (sources : List Archive) (a : Archive) :
    (mergedOps (sources ++ [a])).get? bin = (a.ops.get? bin).or ((mergedOps sources).get? bin) := by
  rw [mergedOps, List.filterMap_append, List.foldl_append, ← mergedOps, RunMembers.ops, MergeOps.read]
  cases h : a.mergeOps
  case none     => simp [h, Dict.get?_empty]
  case some ops => simp [h, Dict.get?_update]

theorem mergedOps_ne_max (h : ∀ a ∈ sources, a.ops.get? bin ≠ some opMax) :
    (mergedOps sources).get? bin ≠ some opMax := by
  induction sources using List.reverseRecOn
  case nil => simp [mergedOps, Dict.get?_empty]
  case append_singleton sources a hi =>
    have ha := h a (by simp)
    have hs := hi fun a' ha' => h a' (by simp [ha'])
    rw [mergedOps_concat]
    cases ho : a.ops.get? bin
    case none   => exact hs
    case some o => simpa [ho] using ha

theorem mergedOps_max (h : ∀ a ∈ sources, a.ops.get? bin = some opMax ∨ a.ops.get? bin = none)
    (hm : ∃ a ∈ sources, a.ops.get? bin = some opMax) :
    (mergedOps sources).get? bin = some opMax := by
  induction sources using List.reverseRecOn
  case nil => simp at hm
  case append_singleton sources a hi =>
    rw [mergedOps_concat]
    cases h a (by simp)
    case inl ho => simp [ho]
    case inr ho =>
      rw [ho, Option.none_or]
      refine hi (fun a' ha' => h a' (by simp [ha'])) ?_
      have ⟨a', ha', hm⟩ := hm
      cases List.mem_append.mp ha'
      case inl ha' => exact ⟨a', ha', hm⟩
      case inr ha' => simp [List.mem_singleton.mp ha', ho] at hm

theorem mergedOps_eq_none_iff :
    (mergedOps sources).get? bin = none ↔ ∀ a ∈ sources, a.ops.get? bin = none := by
  induction sources using List.reverseRecOn
  case nil => simp [mergedOps, Dict.get?_empty]
  case append_singleton sources a hi =>
    rw [mergedOps_concat, Option.or_eq_none_iff, hi]
    simp [or_imp, forall_and, and_comm]

-- A source that lists no operators.
def bare (a : Archive) : Bool :=
  a.ops.entries.isEmpty

theorem mergedOps_isEmpty_iff :
    (mergedOps sources).entries.isEmpty ↔ ∀ a ∈ sources, bare a := by
  simp only [bare, Dict.isEmpty_iff, mergedOps_eq_none_iff]
  exact ⟨fun h a ha k => h k a ha, fun h k a ha => h a ha k⟩

theorem wraps_iff : wraps accel sources ↔ accel ∧ sources.length = 2 ∧ ∀ a ∈ sources, bare a := by
  rw [← mergedOps_isEmpty_iff]
  simp [wraps]

theorem mergedOps_of_wraps (h : wraps accel sources) : (mergedOps sources).get? bin = none := by
  simp only [wraps, decide_eq_true_eq] at h
  exact Dict.isEmpty_iff.mp h.2.2 bin

-- The count of a bin in a source as a merge sees it.
def countIn (bin : Nat) (a : Archive) : Nat :=
  a.baseline.getD bin 0

theorem addUint32Arrays_lt {a b counts : Counts} (h : addUint32Arrays a b = .ok counts) :
    ∀ row ∈ [a, b], row.getD bin 0 < 2 ^ 32 := by
  rw [addUint32Arrays] at h
  split at h <;> cases h
  case isFalse hn =>
    have hn : ∀ x ∈ a ++ b, x < 2 ^ 32 := by simpa [or_imp, forall_and] using hn
    intro row hr
    by_cases hb : bin < row.length
    case neg => rw [Counts.getD_of_length_le (Nat.le_of_not_lt hb)]; decide
    case pos =>
      have hm : row[bin] ∈ a ++ b := by
        cases List.mem_pair.mp hr
        case inl hr => exact List.mem_append_left _ (hr ▸ List.getElem_mem _)
        case inr hr => exact List.mem_append_right _ (hr ▸ List.getElem_mem _)
      rw [List.getD_eq_getElem _ _ hb]
      exact hn _ hm

theorem combineCounts_lt {counts : Counts} (hw : wraps accel sources)
    (h : combineCounts accel sources = .ok counts) : ∀ a ∈ sources, countIn bin a < 2 ^ 32 := by
  simp only [wraps, decide_eq_true_eq] at hw
  obtain ⟨a, b, hab⟩ := List.length_eq_two.mp hw.2.1
  have hc := (combineCounts_ok h).2
  subst hab
  simp only [mergeSourceCounts, hw.1, hw.2.2, List.map_cons, List.map_nil, not_true_eq_false,
    if_false] at hc
  have hl := @addUint32Arrays_lt bin _ _ _ hc
  simpa [countIn] using hl

-- The count of a bin after a merge that adds with 32 bits, and after any other.
inductive MergedCount (accel : Bool) (bin : Nat) (sources : List Archive) (out : Archive) : Prop
  | wrapped (hw : wraps accel sources) (hl : ∀ a ∈ sources, countIn bin a < 2 ^ 32)
    (hc : countIn bin out = (sources.map (countIn bin)).sum % 2 ^ 32)
  | exact (hw : ¬wraps accel sources)
    (hc : countIn bin out
      = tally ((mergedOps sources).binOp bin) 0 (sources.map (countIn bin)))

theorem mergeSameSchema_count (h : mergeSameSchema accel node first rest = .ok out) (bin : Nat) :
    MergedCount accel bin (first :: rest) out := by
  have ⟨m⟩ := mergeSameSchema_ok h
  have hb : out.baseline = m.counts := by rw [RunMembers.baseline, m.out_runs]; rfl
  have hc := combineCounts_getD (by simp) m.combined bin
  rw [column, List.map_map, ← hb] at hc
  by_cases hw : wraps accel (first :: rest)
  case neg =>
    rw [if_neg hw] at hc
    exact .exact hw hc
  case pos =>
    rw [if_pos hw] at hc
    exact .wrapped hw (combineCounts_lt hw m.combined) hc

section Plans

variable {ls : List (List Archive)} {as l : List Archive}

-- The result of a plan has the operator table and the shape of its first source.
def Leads (l : List Archive) (out : Archive) : Prop :=
  ∃ a, l.head? = some a ∧ out.mergeOps = a.mergeOps ∧ out.SameSchema a

theorem leads_preserved : Plan.Preserved (mergeSameSchema accel) Leads where
  source a := ⟨a, rfl, rfl, rfl, rfl⟩
  merge {_ first rest ls out} hl h := by
    have ⟨m⟩ := mergeSameSchema_ok h
    have ⟨l, ls', ⟨a, ha, ho, hs⟩, _, he⟩ := List.forall₂_cons_right_iff.mp hl
    refine ⟨a, by simp [he, ha], ?_, m.schema.scopeTree.trans hs.scopeTree,
      m.schema.strings.trans hs.strings⟩
    rw [← ho, m.out_runs]

theorem Leads.ops (h : Leads l out) : ∃ a ∈ l, out.ops = a.ops := by
  have ⟨a, ha, ho, _⟩ := h
  exact ⟨a, List.mem_of_mem_head? ha, by rw [RunMembers.ops, ho]; rfl⟩

-- Results with some operators come from as many sources with these.
theorem countP_leads (p : MergeOps → Bool) (h : List.Forall₂ Leads ls as) :
    as.countP (p ·.ops) ≤ ls.flatten.countP (p ·.ops) := by
  induction h
  case nil => exact Nat.le_refl _
  case cons l a ls as ha _ hi =>
    have ⟨a', hm, ho⟩ := ha.ops
    rw [List.flatten_cons, List.countP_append, List.countP_cons, Nat.add_comm]
    refine Nat.add_le_add ?_ hi
    split
    case isFalse => exact Nat.zero_le _
    case isTrue hp => exact List.countP_pos_iff.mpr ⟨a', hm, ho ▸ hp⟩

-- What holds of the operators of all sources holds of those of all results.
theorem forall_leads {p : MergeOps → Prop} (h : List.Forall₂ Leads ls as)
    (hp : ∀ a ∈ ls.flatten, p a.ops) : ∀ a ∈ as, p a.ops := by
  induction h
  case nil => simp
  case cons l a ls as ha _ hi =>
    have ⟨a', hm, ho⟩ := ha.ops
    refine List.forall_mem_cons.mpr ⟨ho ▸ hp a' ?_, hi fun b hb => hp b ?_⟩
    · exact List.mem_append_left _ hm
    · exact List.mem_append_right _ hb

-- The counts of results from those of their sources.
theorem map_countIn {P : List Archive → Archive → Prop} {g : List Nat → Nat}
    (h : List.Forall₂ P ls as)
    (hp : ∀ l ∈ ls, ∀ a, P l a → countIn bin a = g (l.map (countIn bin))) :
    as.map (countIn bin) = (ls.map (·.map (countIn bin))).map g := by
  induction h
  case nil => rfl
  case cons l a ls as ha _ hi =>
    rw [List.map_cons, List.map_cons, List.map_cons, hp l (.head _) a ha,
      hi fun l hl => hp l (.tail _ hl)]

-- Without maxima and without overflow the counts are added.
def Adds (accel : Bool) (bin : Nat) (l : List Archive) (out : Archive) : Prop :=
  (∀ a ∈ l, a.ops.get? bin ≠ some opMax) →
    (accel → l.countP bare ≤ 1 ∨ (l.map (countIn bin)).sum < 2 ^ 32) →
    countIn bin out = (l.map (countIn bin)).sum

theorem sum_countIn_flatten (bin : Nat) (ls : List (List Archive)) :
    ((ls.map (·.map (countIn bin))).map List.sum).sum = (ls.flatten.map (countIn bin)).sum := by
  rw [List.map_flatten, List.sum_flatten]

theorem adds_preserved :
    Plan.Preserved (mergeSameSchema accel) fun l out => Leads l out ∧ Adds accel bin l out where
  source a := ⟨(@leads_preserved accel).source a, fun _ _ => by simp⟩
  merge hall h := by
    have hle := hall.imp fun _ _ h => h.1
    refine ⟨leads_preserved.merge hle h, fun hn ho => ?_⟩
    have hv := map_countIn (g := List.sum) hall fun l hl a ha => ha.2
      (fun a hm => hn a (List.mem_flatten.mpr ⟨l, hl, hm⟩))
      (fun hacc => (ho hacc).imp
        (Nat.le_trans (List.sublist_flatten_of_mem hl).countP_le)
        (Nat.lt_of_le_of_lt (((List.sublist_flatten_of_mem hl).map _).sum_le_sum (by simp))))
    cases mergeSameSchema_count h bin
    case exact hw hc =>
      rw [hc, hv, MergeOps.binOp, if_neg, ← sum_countIn_flatten]
      · rfl
      · exact mergedOps_ne_max (forall_leads (p := (·.get? bin ≠ some opMax)) hle hn)
    case wrapped hw hl hc =>
      rw [hc, hv, sum_countIn_flatten]
      obtain ⟨ha, hlen, hb⟩ := wraps_iff.mp hw
      cases ho ha
      case inr ho => exact Nat.mod_eq_of_lt ho
      case inl ho =>
        have hb := List.countP_eq_length.mpr hb
        have hc := countP_leads (·.entries.isEmpty) hle
        have hc : List.countP bare _ ≤ List.countP bare _ := hc
        omega

theorem MergedCount.single {a : Archive} (h : MergedCount accel bin [a] out) :
    countIn bin out = countIn bin a := by
  cases h
  case wrapped hw _ _ => simp [wraps_iff] at hw
  case exact hw hc    => rw [hc]; exact tally.singleton _

theorem Leads.length_pos (h : Leads l out) : 0 < l.length := by
  have ⟨a, ha, _⟩ := h
  cases l
  case nil       => cases ha
  case cons a' l => exact Nat.succ_pos _

-- Two sources without operators are added with 32 bits by the accelerated addition.
def AddsTwo (accel : Bool) (bin : Nat) (l : List Archive) (out : Archive) : Prop :=
  (∀ a ∈ l, bare a) → accel → l.length = 2 →
    countIn bin out = (l.map (countIn bin)).sum % 2 ^ 32

theorem addsTwo_preserved :
    Plan.Preserved (mergeSameSchema accel)
      fun l out => (Leads l out ∧ Adds accel bin l out) ∧ AddsTwo accel bin l out where
  source a := ⟨(@adds_preserved accel bin).source a, fun _ _ h => by simp at h⟩
  merge {_ first rest ls out} hall h := by
    refine ⟨adds_preserved.merge (hall.imp fun _ _ h => h.1) h, fun hb ha hl => ?_⟩
    have hn : ∀ a ∈ ls.flatten, a.ops.get? bin ≠ some opMax := by
      intro a hm
      simp [Dict.isEmpty_iff.mp (hb a hm) bin]
    have hm := mergeSameSchema_count h bin
    have ⟨l₁, ls', ⟨⟨hle₁, had₁⟩, htw₁⟩, hall', he⟩ := List.forall₂_cons_right_iff.mp hall
    have hp₁ := hle₁.length_pos
    cases hall'
    case nil =>
      rw [he, List.flatten_singleton] at hl hb ⊢
      rw [hm.single, htw₁ hb ha hl]
    case cons l₂ b ls'' rest' h₂ hall' =>
      have hp₂ := h₂.1.1.length_pos
      rw [he, List.flatten_cons, List.flatten_cons] at hl hb hn ⊢
      simp only [List.length_append] at hl
      cases hall'
      case cons l₃ _ _ _ h₃ _ =>
        have hp₃ := h₃.1.1.length_pos
        simp only [List.flatten_cons, List.length_append] at hl
        omega
      case nil =>
        simp only [List.flatten_nil, List.append_nil, List.length_nil] at hl hb hn ⊢
        have hc₁ := had₁ (fun a hm => hn a (by simp [hm])) fun _ =>
          .inl <| Nat.le_trans List.countP_le_length (by omega)
        have hc₂ := h₂.1.2 (fun a hm => hn a (by simp [hm])) fun _ =>
          .inl <| Nat.le_trans List.countP_le_length (by omega)
        have hle : List.Forall₂ Leads [l₁, l₂] [first, b] := .cons hle₁ (.cons h₂.1.1 .nil)
        have hba := forall_leads (p := (·.entries.isEmpty)) hle
          fun a hm => hb a (by simpa using hm)
        cases hm
        case exact hw _     => exact absurd (wraps_iff.mpr ⟨ha, rfl, hba⟩) hw
        case wrapped _ _ hc => simp [hc, hc₁, hc₂]

-- Adding and taking the maximum are the same for at most one number that is not zero.
theorem foldr_max_eq_sum_iff (xs : List Nat) :
    xs.foldr max 0 = xs.sum ↔ xs.countP (· ≠ 0) ≤ 1 := by
  induction xs
  case nil => simp
  case cons x xs hi =>
    have hle : xs.foldr max 0 ≤ xs.sum := by
      refine foldr_max_le_iff.mpr fun y hy => List.single_le_sum (by simp) y hy
    rw [List.foldr_cons, List.sum_cons, List.countP_cons]
    by_cases hx : x = 0
    case pos => simpa [hx] using hi
    case neg =>
      have hz : xs.sum = 0 ↔ xs.countP (· ≠ 0) = 0 := by
        rw [List.countP_eq_zero, List.sum_eq_zero_iff]
        simp
      have hd : (if decide (x ≠ 0) then 1 else 0) = 1 := by simp [hx]
      rw [hd]
      omega

theorem countP_sums (xss : List (List Nat)) :
    (xss.map List.sum).countP (· ≠ 0) ≤ xss.flatten.countP (· ≠ 0) := by
  induction xss
  case nil => exact Nat.le_refl _
  case cons xs xss hi =>
    rw [List.map_cons, List.countP_cons, List.flatten_cons, List.countP_append, Nat.add_comm]
    refine Nat.add_le_add ?_ hi
    split
    case isFalse => exact Nat.zero_le _
    case isTrue hp =>
      rw [Nat.one_le_iff_ne_zero, Ne, List.countP_eq_zero]
      intro hz
      have hz : xs.sum = 0 := List.sum_eq_zero_iff.mpr (by simpa using hz)
      simp [hz] at hp

theorem tally_binOp_eq_sum {xs : List Nat} (h : xs.countP (· ≠ 0) ≤ 1) (ops : MergeOps) :
    tally (ops.binOp bin) 0 xs = xs.sum := by
  rw [MergeOps.binOp]
  split
  case isTrue  => exact (foldr_max_eq_sum_iff xs).mpr h
  case isFalse => rfl

-- A count that only one source has is kept by any operator.
def Keeps (bin : Nat) (l : List Archive) (out : Archive) : Prop :=
  (l.map (countIn bin)).countP (· ≠ 0) ≤ 1 → countIn bin out = (l.map (countIn bin)).sum

theorem keeps_preserved : Plan.Preserved (mergeSameSchema accel) (Keeps bin) where
  source a := fun _ => by simp
  merge {_ first rest ls out} hall h := by
    intro hz
    have hv := map_countIn (g := List.sum) hall fun l hl a ha => ha <| Nat.le_trans
      (((List.sublist_flatten_of_mem hl).map _).countP_le) hz
    have hz' : (((first :: rest).map (countIn bin))).countP (· ≠ 0) ≤ 1 := by
      rw [hv]
      exact Nat.le_trans (countP_sums _) (List.map_flatten ▸ hz)
    cases mergeSameSchema_count h bin
    case exact hw hc => rw [hc, tally_binOp_eq_sum hz', hv, sum_countIn_flatten]
    case wrapped hw hl hc =>
      rw [hc, ← sum_countIn_flatten, ← hv]
      refine Nat.mod_eq_of_lt ?_
      have hm : ((first :: rest).map (countIn bin)).foldr max 0 ≤ 2 ^ 32 - 1 :=
        foldr_max_le_iff.mpr <| List.forall_mem_map.mpr fun a ha => Nat.le_sub_one_of_lt (hl a ha)
      rw [(foldr_max_eq_sum_iff _).mpr hz'] at hm
      omega

-- Whether the table of a source lists a bin.
def unlistedIn (bin : Nat) (a : Archive) : Bool :=
  (a.ops.get? bin).isNone

-- When all sources but one list the bin as a maximum, every step of a plan takes the maximum.
def TakesMax (bin : Nat) (l : List Archive) (out : Archive) : Prop :=
  (∀ a ∈ l, a.ops.get? bin = some opMax ∨ a.ops.get? bin = none) → l.countP (unlistedIn bin) ≤ 1 →
    countIn bin out = (l.map (countIn bin)).foldr max 0

theorem takesMax_preserved :
    Plan.Preserved (mergeSameSchema accel) fun l out => Leads l out ∧ TakesMax bin l out where
  source a := ⟨(@leads_preserved accel).source a, fun _ _ => by simp⟩
  merge {_ first rest ls out} hall h := by
    have hle := hall.imp fun _ _ h => h.1
    refine ⟨leads_preserved.merge hle h, fun ho hn => ?_⟩
    have hv := map_countIn (g := (·.foldr max 0)) hall fun l hl a ha => ha.2
      (fun a hm => ho a (List.mem_flatten.mpr ⟨l, hl, hm⟩))
      (Nat.le_trans (List.sublist_flatten_of_mem hl).countP_le hn)
    have hf : (ls.flatten.map (countIn bin)).foldr max 0
        = ((first :: rest).map (countIn bin)).foldr max 0 := by
      rw [hv, List.map_flatten]
      exact tally.flatten (f := max) (e := 0) _
    have hm := mergeSameSchema_count h bin
    rw [hf]
    cases rest
    case nil => rw [hm.single]; exact (Nat.max_zero _).symm
    case cons b rest =>
      have hos := forall_leads (p := fun o => o.get? bin = some opMax ∨ o.get? bin = none) hle ho
      have hc := countP_leads (fun o => (o.get? bin).isNone) hle
      have hx : ∃ a ∈ first :: b :: rest, a.ops.get? bin = some opMax := by
        by_contra hx
        have hn' : ∀ a ∈ first :: b :: rest, (a.ops.get? bin).isNone := by
          intro a ha
          cases hos a ha
          case inl h => exact absurd ⟨a, ha, h⟩ hx
          case inr h => simp [h]
        rw [List.countP_eq_length.mpr hn', List.length_cons, List.length_cons] at hc
        have hn : ls.flatten.countP (fun a => (a.ops.get? bin).isNone) ≤ 1 := hn
        omega
      have hmax := mergedOps_max hos hx
      cases hm
      case exact hw hc => rw [hc, MergeOps.binOp, if_pos hmax]; rfl
      case wrapped hw _ _ => exact absurd hmax (by simp [mergedOps_of_wraps hw])

-- When a bin has the same count after every plan: only one source counts it; no source lists it as
-- a maximum and the accelerated addition of plans of different shape does not overflow; or all
-- sources but one list it as a maximum.
def Regroupable (accel : Bool) (sources : List Archive) (bin : Nat) : Prop :=
  (sources.map (countIn bin)).countP (· ≠ 0) ≤ 1 ∨
  ((∀ a ∈ sources, a.ops.get? bin ≠ some opMax) ∧ (accel →
    sources.length ≤ 2 ∨ sources.countP bare ≤ 1 ∨ (sources.map (countIn bin)).sum < 2 ^ 32)) ∨
  ((∀ a ∈ sources, a.ops.get? bin = some opMax ∨ a.ops.get? bin = none) ∧
    sources.countP (unlistedIn bin) ≤ 1)

theorem Regroupable.perm {sources' : List Archive} (hp : sources.Perm sources')
    (h : Regroupable accel sources bin) : Regroupable accel sources' bin := by
  simpa only [Regroupable, (hp.map _).countP_eq, hp.mem_iff, hp.length_eq, hp.countP_eq,
    (hp.map _).sum_eq] using h

-- The count after a plan depends on the sources of the plan only.
theorem Regroupable.countIn_eq {p p' : MergePlan} {out' : Archive}
    (h : Regroupable accel p.sources bin) (hp : p.sources.Perm p'.sources)
    (hr : p.run (mergeSameSchema accel) = .ok out)
    (hr' : p'.run (mergeSameSchema accel) = .ok out') : countIn bin out = countIn bin out' := by
  have h' := h.perm hp
  cases h
  case inl h =>
    have h' := (hp.map (countIn bin)).countP_eq (· ≠ 0) ▸ h
    rw [keeps_preserved.run p hr h, keeps_preserved.run p' hr' h', (hp.map _).sum_eq]
  case inr h =>
  cases h
  case inr h =>
    have ho := fun a ha => h.1 a (hp.mem_iff.mpr ha)
    rw [(takesMax_preserved.run p hr).2 h.1 h.2,
      (takesMax_preserved.run p' hr').2 ho (hp.countP_eq _ ▸ h.2)]
    exact tally.perm (f := max) (hp.map _)
  case inl h =>
    have hn := fun a ha => h.1 a (hp.mem_iff.mpr ha)
    have ha := (@addsTwo_preserved accel bin).run p hr
    have ha' := (@addsTwo_preserved accel bin).run p' hr'
    by_cases hw : accel ∧ p.sources.length = 2 ∧ ∀ a ∈ p.sources, bare a
    case pos =>
      have hb := fun a ha => hw.2.2 a (hp.mem_iff.mpr ha)
      rw [ha.2 hw.2.2 hw.1 hw.2.1, ha'.2 hb hw.1 (hp.length_eq ▸ hw.2.1), (hp.map _).sum_eq]
    case neg =>
      have hs : accel → p.sources.countP bare ≤ 1 ∨ (p.sources.map (countIn bin)).sum < 2 ^ 32 := by
        refine fun hacc => (h.2 hacc).elim (fun hl => .inl ?_) id
        have hne : p.sources.length = 2 → p.sources.countP bare ≠ p.sources.length :=
          fun hl he => hw ⟨hacc, hl, List.countP_eq_length.mp he⟩
        have hle := List.countP_le_length (p := bare) (l := p.sources)
        omega
      have hs' := fun hacc => (hp.map (countIn bin)).sum_eq ▸ hp.countP_eq bare ▸ hs hacc
      rw [ha.1.2 h.1 hs, ha'.1.2 hn hs', (hp.map _).sum_eq]

-- Every plan over the sources gives a bin the same count.
def Uniform (accel : Bool) (sources : List Archive) (bin v : Nat) : Prop :=
  ∀ (node : HistoryNode) (first : MergePlan) (rest : List MergePlan),
    (Plan.merge node first rest).sources.Perm sources →
    ∃ out, (Plan.merge node first rest).run (mergeSameSchema accel) = .ok out ∧ countIn bin out = v

namespace Uniform

variable {v : Nat}

-- One merge of all sources in some order.
theorem flat (h : Uniform accel sources bin v) (hl : l.Perm sources) (hn : l ≠ []) :
    ∃ out, MergedCount accel bin l out ∧ countIn bin out = v := by
  have ⟨a, as, he⟩ := List.exists_cons_of_ne_nil hn
  rw [he] at hl ⊢
  have ⟨out, hr, hc⟩ := h (mergeNode "" [] 0) (.source a) (as.map .source)
    (Plan.sources_flat (mergeNode "" [] 0) a as ▸ hl)
  exact ⟨out, mergeSameSchema_count (Plan.run_flat .. ▸ hr) bin, hc⟩

-- Two merges of some sources each, and a merge of the results.
theorem pair {x y : Archive} {A B : List Archive} (h : Uniform accel sources bin v)
    (hl : (x :: A ++ y :: B).Perm sources) :
    ∃ o₁ o₂ out, MergedCount accel bin (x :: A) o₁ ∧ o₁.ops = x.ops ∧
      MergedCount accel bin (y :: B) o₂ ∧ o₂.ops = y.ops ∧
      MergedCount accel bin [o₁, o₂] out ∧ countIn bin out = v := by
  obtain ⟨out, hr, hc⟩ := h (mergeNode "" [] 0) (.flat (mergeNode "" [] 0) x A)
    [.flat (mergeNode "" [] 0) y B] (by simpa [Plan.sources, Plan.sourcesAll] using hl)
  rw [Plan.run, Plan.run_flat] at hr
  obtain ⟨o₁, h₁, hr⟩ := bind_ok hr
  obtain ⟨os, hs, hr⟩ := bind_ok hr
  rw [Plan.runAll, Plan.run_flat] at hs
  obtain ⟨o₂, h₂, hs⟩ := bind_ok hs
  cases hs
  have ho : ∀ {a as o}, mergeSameSchema accel (mergeNode "" [] 0) a as = .ok o → o.ops = a.ops := by
    intro a as o h
    obtain ⟨m⟩ := mergeSameSchema_ok h
    rw [RunMembers.ops, m.out_runs]
    rfl
  exact ⟨o₁, o₂, out, mergeSameSchema_count h₁ bin, ho h₁, mergeSameSchema_count h₂ bin, ho h₂,
    mergeSameSchema_count hr bin, hc⟩

end Uniform

theorem exists_perm_of_countP {p : Archive → Bool} {n : Nat} (h : n + 1 ≤ l.countP p) :
    ∃ a l', l.Perm (a :: l') ∧ p a ∧ n ≤ l'.countP p := by
  have ⟨a, ha, hp⟩ := List.countP_pos_iff.mp (Nat.lt_of_lt_of_le (Nat.succ_pos n) h)
  have ⟨l₁, l₂, he⟩ := List.append_of_mem ha
  have hl : l.Perm (a :: (l₁ ++ l₂)) := he ▸ List.perm_middle
  refine ⟨a, l₁ ++ l₂, hl, hp, ?_⟩
  rw [hl.countP_eq, List.countP_cons_of_pos hp] at h
  omega

theorem exists_perm_of_mem {a : Archive} (h : a ∈ l) : ∃ l', l.Perm (a :: l') := by
  have ⟨l₁, l₂, he⟩ := List.append_of_mem h
  exact ⟨l₁ ++ l₂, he ▸ List.perm_middle⟩

theorem MergedCount.sum (h : MergedCount accel bin l out) (hw : ¬wraps accel l)
    (hn : (mergedOps l).get? bin ≠ some opMax) : countIn bin out = (l.map (countIn bin)).sum := by
  cases h
  case wrapped hw' _ _ => exact absurd hw' hw
  case exact hc        => rw [hc, MergeOps.binOp, if_neg hn]; rfl

theorem MergedCount.max (h : MergedCount accel bin l out)
    (hm : (mergedOps l).get? bin = some opMax) :
    countIn bin out = (l.map (countIn bin)).foldr max 0 := by
  cases h
  case wrapped hw _ _ => exact absurd hm (by simp [mergedOps_of_wraps hw])
  case exact hc       => rw [hc, MergeOps.binOp, if_pos hm]; rfl

namespace Uniform

variable {v : Nat}

-- One merge of three or more sources does not overflow, merging a last one in a second step does.
theorem no_overflow (h : Uniform accel sources bin v)
    (hn : ∀ a ∈ sources, a.ops.get? bin ≠ some opMax) (ha : accel) :
    sources.length ≤ 2 ∨ sources.countP bare ≤ 1 ∨ (sources.map (countIn bin)).sum < 2 ^ 32 := by
  by_contra hc
  have ⟨x, l₁, hp₁, hx, hc₁⟩ := exists_perm_of_countP (l := sources) (p := bare) (n := 1) (by omega)
  have ⟨y, l₂, hp₂, hy, _⟩ := exists_perm_of_countP hc₁
  have hl : l₂.length + 2 = sources.length := by
    rw [hp₁.length_eq, List.length_cons, hp₂.length_eq, List.length_cons]
  have ⟨o₁, o₂, out, _, ho₁, _, ho₂, hm, hv⟩ := h.pair (x := x) (A := l₂) (y := y) (B := []) <| by
    refine .trans ?_ hp₁.symm
    exact .cons x (List.perm_append_comm.trans hp₂.symm)
  have hb : ∀ a ∈ [o₁, o₂], bare a := by
    simpa [bare, ho₁, ho₂] using And.intro hx hy
  have hlt : v < 2 ^ 32 := by
    cases hm
    case exact hw _     => exact absurd (wraps_iff.mpr ⟨ha, rfl, hb⟩) hw
    case wrapped _ _ hc => exact hv ▸ hc ▸ Nat.mod_lt _ (by decide)
  have hne : sources ≠ [] := by
    intro he
    simp [he] at hl
  have ⟨out', hm', hv'⟩ := h.flat (.refl _) hne
  have hw : ¬wraps accel sources := fun hw => by
    have := (wraps_iff.mp hw).2.1
    omega
  have hs := hm'.sum hw (mergedOps_ne_max hn)
  omega

-- The last source to list a bin decides about its operator.
theorem no_other_op (h : Uniform accel sources bin v) {m o : Archive} {op : Nat}
    (hm : m ∈ sources) (hmo : m.ops.get? bin = some opMax) (ho : o ∈ sources)
    (hoo : o.ops.get? bin = some op) (hop : op ≠ opMax) :
    (sources.map (countIn bin)).countP (· ≠ 0) ≤ 1 := by
  have ⟨l₁, hp₁⟩ := exists_perm_of_mem hm
  have hne : o ≠ m := fun he => hop <| Option.some.inj <| hoo.symm.trans (he ▸ hmo)
  have ⟨l₂, hp₂⟩ := exists_perm_of_mem <| List.mem_of_ne_of_mem hne (hp₁.mem_iff.mp ho)
  have hp : (l₂ ++ [o] ++ [m]).Perm sources :=
    (List.perm_append_singleton ..).trans <| (((List.perm_append_singleton ..).trans
      hp₂.symm).cons m).trans hp₁.symm
  have hp' : (l₂ ++ [m] ++ [o]).Perm sources := by
    refine List.Perm.trans ?_ hp
    rw [List.append_assoc, List.append_assoc]
    exact (List.Perm.swap o m []).append_left l₂
  have ⟨out, hc, hv⟩ := h.flat hp (by simp)
  have ⟨out', hc', hv'⟩ := h.flat hp' (by simp)
  have hmax := hc.max (by rw [mergedOps_concat, hmo]; rfl)
  have hop' : (mergedOps (l₂ ++ [m] ++ [o])).get? bin = some op := by
    rw [mergedOps_concat, hoo]
    rfl
  have hsum := hc'.sum (fun hw => nomatch hop'.symm.trans (mergedOps_of_wraps hw))
    (by rw [hop']; simpa using hop)
  rw [← foldr_max_eq_sum_iff]
  have hm' : ((l₂ ++ [o] ++ [m]).map (countIn bin)).foldr max 0
      = (sources.map (countIn bin)).foldr max 0 := tally.perm (f := max) (hp.map _)
  rw [← hm', ← (hp'.map _).sum_eq, ← hmax, ← hsum, hv, hv']

section Unlisted

variable {m : Archive} (h : Uniform accel sources bin v) (hm : m ∈ sources)
variable (hmo : m.ops.get? bin = some opMax)
variable (ho : ∀ a ∈ sources, a.ops.get? bin = some opMax ∨ a.ops.get? bin = none)

include h hm hmo ho

-- Two groups that start with sources that do not list the bin are added in the end.
theorem split {x y : Archive} {A B : List Archive} (hl : (x :: A ++ y :: B).Perm sources)
    (hx : x.ops.get? bin = none) (hy : y.ops.get? bin = none)
    (hA : A = [] ∨ ∃ a ∈ A, a.ops.get? bin = some opMax)
    (hB : B = [] ∨ ∃ a ∈ B, a.ops.get? bin = some opMax) :
    ((x :: A).map (countIn bin)).foldr max 0 = 0 ∨ ((y :: B).map (countIn bin)).foldr max 0 = 0 := by
  have ⟨o₁, o₂, out, hc₁, ho₁, hc₂, ho₂, hc, hv⟩ := h.pair hl
  have ⟨out', hc', hv'⟩ := h.flat hl (by simp)
  have hgroup : ∀ {z : Archive} {C : List Archive} {o : Archive},
      (∀ a ∈ z :: C, a ∈ sources) → (C = [] ∨ ∃ a ∈ C, a.ops.get? bin = some opMax) →
      MergedCount accel bin (z :: C) o →
      countIn bin o = ((z :: C).map (countIn bin)).foldr max 0 := by
    intro z C o hs hC hc
    cases hC
    case inl hC =>
      rw [hC] at hc ⊢
      rw [hc.single]
      exact (Nat.max_zero _).symm
    case inr hC =>
      have ⟨a, ha, hao⟩ := hC
      exact hc.max <| mergedOps_max (fun a ha => ho a (hs a ha)) ⟨a, .tail _ ha, hao⟩
  have hv₁ := hgroup (fun a ha => hl.mem_iff.mp (List.mem_append_left _ ha)) hA hc₁
  have hv₂ := hgroup (fun a ha => hl.mem_iff.mp (List.mem_append_right _ ha)) hB hc₂
  have hmax := hc'.max <| mergedOps_max (fun a ha => ho a (hl.mem_iff.mp ha))
    ⟨m, hl.mem_iff.mpr hm, hmo⟩
  have happ : ((x :: A ++ y :: B).map (countIn bin)).foldr max 0
      = max (countIn bin o₁) (countIn bin o₂) := by
    rw [hv₁, hv₂, List.map_append]
    exact tally.append (f := max) ..
  rw [← hv₁, ← hv₂]
  rw [happ, hv'] at hmax
  cases hc
  case wrapped hw hlt hc =>
    have hlt₁ := hlt o₁ (by simp)
    have hlt₂ := hlt o₂ (by simp)
    simp only [List.map_cons, List.map_nil, List.sum_cons, List.sum_nil] at hc
    omega
  case exact hw hc =>
    have hn : (mergedOps [o₁, o₂]).get? bin = none := by
      simp [mergedOps_eq_none_iff, ho₁, ho₂, hx, hy]
    rw [MergeOps.binOp, if_neg (by simp [hn])] at hc
    simp only [List.map_cons, List.map_nil, tally.cons, tally.nil] at hc
    omega

-- At most one source may leave open how the bin is merged.
theorem unlisted_le (hz : ¬(sources.map (countIn bin)).countP (· ≠ 0) ≤ 1) :
    sources.countP (unlistedIn bin) ≤ 1 := by
  have hzero : ∀ {l : List Archive}, (l.map (countIn bin)).foldr max 0 = 0 →
      ∀ a ∈ l, countIn bin a = 0 := by
    intro l hl a ha
    exact Nat.le_zero.mp <| foldr_max_le_iff.mp (Nat.le_of_eq hl) _ (List.mem_map_of_mem ha)
  have hun : ∀ {a}, unlistedIn bin a → a.ops.get? bin = none := by
    intro a ha
    simpa [unlistedIn] using ha
  have hne : ∀ {a}, unlistedIn bin a → a ≠ m := by
    intro a ha he
    simp [unlistedIn, he, hmo] at ha
  by_contra hc
  -- Every source that does not list the bin counts nothing there.
  have hnone : ∀ z ∈ sources, unlistedIn bin z → countIn bin z = 0 := by
    intro z hzm hzu
    have ⟨l₁, hp₁⟩ := exists_perm_of_mem hzm
    have hc₁ : 1 ≤ l₁.countP (unlistedIn bin) := by
      rw [hp₁.countP_eq, List.countP_cons_of_pos hzu] at hc
      omega
    have ⟨w, l₂, hp₂, hwu, _⟩ := exists_perm_of_countP hc₁
    have hml : m ∈ l₂ := by
      have hm₁ := List.mem_of_ne_of_mem (hne hzu).symm (hp₁.mem_iff.mp hm)
      exact List.mem_of_ne_of_mem (hne hwu).symm (hp₂.mem_iff.mp hm₁)
    have hl : (w :: l₂ ++ [z]).Perm sources :=
      (List.perm_append_singleton ..).trans <| (hp₂.symm.cons z).trans hp₁.symm
    cases h.split hm hmo ho hl (hun hwu) (hun hzu) (.inr ⟨m, hml, hmo⟩) (.inl rfl)
    case inr hzz => exact hzero hzz z (by simp)
    case inl hzw =>
      refine absurd ?_ hz
      rw [← (hl.map _).countP_eq, List.map_append, List.countP_append]
      have hw : ((w :: l₂).map (countIn bin)).countP (· ≠ 0) = 0 := by
        rw [List.countP_eq_zero]
        simpa using hzero hzw
      have hz' := List.countP_le_length (p := (· ≠ 0)) (l := [z].map (countIn bin))
      rw [hw]
      simpa using hz'
  -- So two sources that list it count something, and each of them can go into a group of its own.
  have hlisted : ∀ z ∈ sources, countIn bin z ≠ 0 → z.ops.get? bin = some opMax := by
    intro z hzm hzn
    refine (ho z hzm).resolve_right fun hn => hzn <| hnone z hzm ?_
    simp [unlistedIn, hn]
  have ⟨x, l₁, hp₁, hxu, hc₁⟩ := exists_perm_of_countP (l := sources) (p := unlistedIn bin) (n := 1)
    (by omega)
  have ⟨y, l₂, hp₂, hyu, _⟩ := exists_perm_of_countP hc₁
  have hp : sources.Perm (x :: y :: l₂) := hp₁.trans (hp₂.cons x)
  have hmem : ∀ a ∈ l₂, a ∈ sources := fun a ha => hp.mem_iff.mpr (by simp [ha])
  have hnz : 2 ≤ l₂.countP (countIn bin · ≠ 0) := by
    have hx := hnone x (hp.mem_iff.mpr (by simp)) hxu
    have hy := hnone y (hp.mem_iff.mpr (by simp)) hyu
    rw [List.countP_map, hp.countP_eq] at hz
    simp only [Function.comp_def, List.countP_cons, hx, hy] at hz
    refine Nat.lt_of_not_le ?_
    simpa using hz
  have ⟨j, l₃, hp₃, hj, hc₃⟩ := exists_perm_of_countP hnz
  have ⟨k, l₄, hp₄, hk, _⟩ := exists_perm_of_countP hc₃
  have hj' : countIn bin j ≠ 0 := by simpa using hj
  have hk' : countIn bin k ≠ 0 := by simpa using hk
  have hjl := hlisted j (hmem j (hp₃.mem_iff.mpr (by simp))) hj'
  have hkl := hlisted k (hmem k (hp₃.mem_iff.mpr (.tail _ (hp₄.mem_iff.mpr (by simp))))) hk'
  have hl : (x :: k :: l₄ ++ y :: [j]).Perm sources := by
    refine .trans (.cons x ?_) hp.symm
    refine List.perm_append_comm.trans <| .cons y <| .trans ?_ hp₃.symm
    exact .cons j hp₄.symm
  cases h.split hm hmo ho hl (hun hxu) (hun hyu) (.inr ⟨k, by simp, hkl⟩) (.inr ⟨j, by simp, hjl⟩)
  case inl he => exact hk' (hzero he k (by simp))
  case inr he => exact hj' (hzero he j (by simp))

end Unlisted

theorem regroupable (h : Uniform accel sources bin v) : Regroupable accel sources bin := by
  by_cases hz : (sources.map (countIn bin)).countP (· ≠ 0) ≤ 1
  case pos => exact .inl hz
  case neg =>
    by_cases hm : ∃ m ∈ sources, m.ops.get? bin = some opMax
    case neg =>
      have hn : ∀ a ∈ sources, a.ops.get? bin ≠ some opMax := fun a ha hao => hm ⟨a, ha, hao⟩
      exact .inr <| .inl ⟨hn, h.no_overflow hn⟩
    case pos =>
      have ⟨m, hm, hmo⟩ := hm
      have ho : ∀ a ∈ sources, a.ops.get? bin = some opMax ∨ a.ops.get? bin = none := by
        intro a ha
        cases hao : a.ops.get? bin
        case none    => exact .inr rfl
        case some op =>
          refine .inl <| congrArg some <| by_contra fun hop => ?_
          exact hz <| h.no_other_op hm hmo ha hao hop
      exact .inr <| .inr ⟨ho, h.unlisted_le hm hmo ho hz⟩

end Uniform

end Plans

-- All plans over the sources that succeed give an item the same count.
def CountsAgree (accel : Bool) (sources : List Archive) (n : Nat) : Prop :=
  ∀ (node node' : HistoryNode) (first first' : MergePlan) (rest rest' : List MergePlan)
    (out out' : Archive) (db db' : LoadedUCIS),
    (Plan.merge node first rest).sources.Perm sources →
    (Plan.merge node' first' rest').sources.Perm sources →
    (Plan.merge node first rest).run (mergeSameSchema accel) = .ok out →
    (Plan.merge node' first' rest').run (mergeSameSchema accel) = .ok out' →
    read out = .ok db → read out' = .ok db' → countAt n db = countAt n db'

-- Every plan over the sources succeeds.
def AllSucceed (accel : Bool) (sources : List Archive) : Prop :=
  ∀ (node : HistoryNode) (first : MergePlan) (rest : List MergePlan),
    (Plan.merge node first rest).sources.Perm sources →
    ∃ out db, (Plan.merge node first rest).run (mergeSameSchema accel) = .ok out ∧
      read out = .ok db

theorem countAt_plan {p : MergePlan} {rest : List MergePlan} {db : LoadedUCIS} {a : Archive}
    {n : Nat} (hs : ∀ a' ∈ sources, a'.SameSchema a)
    (hp : (Plan.merge node p rest).sources.Perm sources)
    (hr : (Plan.merge node p rest).run (mergeSameSchema accel) = .ok out)
    (ho : read out = .ok db) (hn : n < ScopeRecord.binCountAll a.scopeTree) :
    countAt n db = countIn (binAt n a) out := by
  have ⟨rd⟩ := read_ok ho
  have ⟨a', ha', _, hso⟩ := (@leads_preserved accel).run _ hr
  have hsa := hs a' (hp.mem_iff.mp (List.mem_of_mem_head? ha'))
  have hso : out.SameSchema a :=
    ⟨hso.scopeTree.trans hsa.scopeTree, hso.strings.trans hsa.strings⟩
  have ⟨first, _, hr⟩ := bind_ok hr
  have ⟨rest', _, hr⟩ := bind_ok hr
  have ⟨m⟩ := mergeSameSchema_ok hr
  rw [rd.countAt_eq (by rwa [rd.coverItems_length, hso.scopeTree]), m.read_counts rd,
    binAt_congr hso, countIn, RunMembers.baseline, m.out_runs]
  rfl

-- Merging in any order and any grouping gives an item the same count if its bin is regroupable, and
-- only then when all these merges succeed.
theorem merge_algebra (a : Archive) (hs : ∀ a' ∈ sources, a'.SameSchema a) {n : Nat}
    (hn : n < ScopeRecord.binCountAll a.scopeTree) :
    (Regroupable accel sources (binAt n a) → CountsAgree accel sources n) ∧
    (AllSucceed accel sources →
      (CountsAgree accel sources n ↔ Regroupable accel sources (binAt n a))) := by
  have hagree : Regroupable accel sources (binAt n a) → CountsAgree accel sources n := by
    intro h node node' first first' rest rest' out out' db db' hp hp' hr hr' ho ho'
    rw [countAt_plan hs hp hr ho hn, countAt_plan hs hp' hr' ho' hn]
    exact (h.perm hp.symm).countIn_eq (hp.trans hp'.symm) hr hr'
  refine ⟨hagree, fun hsucc => ⟨fun h => ?_, hagree⟩⟩
  by_cases hne : sources = []
  case pos => exact .inl (by simp [hne])
  case neg =>
    have ⟨a₀, as, he⟩ := List.exists_cons_of_ne_nil hne
    have hp₀ : (Plan.merge (mergeNode "" [] 0) (.source a₀) (as.map .source)).sources.Perm sources := by
      rw [he]
      exact .of_eq (Plan.sources_flat ..)
    have ⟨out₀, db₀, hr₀, ho₀⟩ := hsucc _ _ _ hp₀
    refine Uniform.regroupable (v := countIn (binAt n a) out₀) fun node first rest hp => ?_
    have ⟨out, db, hr, ho⟩ := hsucc _ _ _ hp
    refine ⟨out, hr, ?_⟩
    rw [← countAt_plan hs hp hr ho hn, ← countAt_plan hs hp₀ hr₀ ho₀ hn]
    exact h _ _ _ _ _ _ _ _ _ _ hp hp₀ hr hr₀ ho ho₀

-- A high-water mark with and without an operator table.
def peakRun (count : Nat) (mergeOps : Option MergeOps) : Archive where
  counts    := some [count]
  mergeOps  := mergeOps
  manifest  := { pathSeparator := "/" }
  strings   := ["assert", "peak"]
  scopeTree := [.regular
    { type := .assertScope, nameRef := 0, coverType := some .peakActiveBin } [1] []]

def peakTable : MergeOps :=
  Dict.empty.set 0 opMax

theorem merge_algebra_tables : CountsAgree true [peakRun 5 none, peakRun 6 (some peakTable)] 0 := by
  have hs : ∀ a ∈ [peakRun 5 none, peakRun 6 (some peakTable)], a.SameSchema (peakRun 5 none) := by
    intro a ha
    cases List.mem_pair.mp ha
    case inl ha => exact ha ▸ ⟨rfl, rfl⟩
    case inr ha => exact ha ▸ ⟨rfl, rfl⟩
  apply (merge_algebra (peakRun 5 none) hs (by decide)).1
  exact .inr <| .inr <| by decide

theorem merge_algebra_lost_table : ∃ out out' db db',
    (Plan.merge (mergeNode "out.cdb" ["a.cdb", "b.cdb", "c.cdb"] 0) (.source (peakRun 5 none))
      [.source (peakRun 6 (some peakTable)), .source (peakRun 7 none)]).run (mergeSameSchema false)
      = .ok out ∧
    (Plan.merge (mergeNode "out.cdb" ["ab.cdb", "c.cdb"] 0)
      (.merge (mergeNode "ab.cdb" ["a.cdb", "b.cdb"] 0) (.source (peakRun 5 none))
        [.source (peakRun 6 (some peakTable))])
      [.source (peakRun 7 none)]).run (mergeSameSchema false) = .ok out' ∧
    read out = .ok db ∧ read out' = .ok db' ∧ countAt 0 db = 7 ∧ countAt 0 db' = 13 :=
  ⟨_, _, _, _, rfl, rfl, rfl, rfl, rfl, rfl⟩

end NcdbMerger
