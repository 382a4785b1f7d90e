import Covsight.Lib.Interning
import Covsight.UcisWriter.Tables
import Covsight.UcisXml.Theorems.Text
import Mathlib.Data.List.Nodup

-- The table of source files against the paths that it stands for.

open Xml

namespace Registration

-- The path that a registration means.
def resolved (r : Registration) : List UInt8 :=
  match r.workdir with
  | none         => r.filename
  | some workdir =>
    if workdir = [] ∨ r.filename.head? = some '/'.toUInt8 then r.filename
    else if workdir.getLast? = some '/'.toUInt8 then workdir ++ r.filename
    else workdir ++ '/'.toUInt8 :: r.filename

def AtRoot (r : Registration) : Prop :=
  r.workdir = some ['/'.toUInt8] ∧ r.filename.head? ≠ some '/'.toUInt8

variable {r : Registration}

theorem joined_of_atRoot (h : r.AtRoot) : r.joined = r.filename ∧ r.resolved = '/'.toUInt8 :: r.filename := by
  simp [joined, prefixed, resolved, h.left, h.right]

theorem joined_eq (h : ¬r.AtRoot) : r.joined = r.resolved := by
  rw [joined, prefixed, resolved]
  cases hw : r.workdir with
  | none         => rfl
  | some workdir =>
    simp only
    by_cases hn : workdir = [] ∨ r.filename.head? = some '/'.toUInt8
    case pos =>
      have hc : ¬(workdir ≠ [] ∧ r.filename.head? ≠ some '/'.toUInt8) := by
        simpa only [ne_eq, not_and_or, not_not] using hn
      rw [if_neg hc, if_pos hn, if_neg (not_not.mpr rfl)]
    case neg =>
      have hc := not_or.mp hn
      rw [if_pos hc, if_neg hn]
      split
      case isTrue hl =>
        have hd := List.dropLast_append_getLast? _ hl
        have hne : workdir.dropLast ≠ [] := by
          intro he
          rw [he, List.nil_append] at hd
          exact h ⟨hw.trans (congrArg some hd.symm), hc.right⟩
        rw [if_pos hne]
        nth_rewrite 2 [← hd]
        rw [List.append_assoc, List.singleton_append]
      case isFalse hl => rw [if_pos hc.left]

end Registration

namespace UwFiletab

variable {t : UwFiletab} {r : Registration}

def names (t : UwFiletab) : List (List UInt8) :=
  t.byid.map (·.name)

structure Good (t : UwFiletab) : Prop where
  chains : t.buckets = [] ∧ t.byid = [] ∨ Chaining.Holds UwFile.home t.buckets t.byid
  ids    : ∀ (i : Nat) f, t.byid[i]? = some f → f.id = i + 1
  names  : t.names.Nodup

theorem good_empty : Good {} where
  chains := .inl ⟨rfl, rfl⟩
  ids    := by simp
  names  := .nil

theorem good_grow (h : t.Good) : t.grow.Good ∧ t.grow.byid = t.byid ∧ t.grow.isSealed = t.isSealed ∧
    Chaining.Holds UwFile.home t.grow.buckets t.byid := by
  have hs : 0 < if t.buckets.length ≠ 0 then t.buckets.length * 2 else initBuckets := by
    split
    case isTrue hn => omega
    case isFalse   => decide
  have hb := @Chaining.holds_build _ UwFile.home _ hs t.byid
  exact ⟨⟨.inr hb, h.ids, h.names⟩, rfl, rfl, hb⟩

-- A file that is known has the number of its name.
theorem file_eq (h : t.Good) {f : UwFile} (hf : f ∈ t.byid) : f = ⟨t.names.idxOf f.name + 1, f.name⟩ := by
  have ⟨i, hi, he⟩ := List.mem_iff_getElem.mp hf
  have hid := h.ids i f (List.getElem?_eq_some_iff.mpr ⟨hi, he⟩)
  have hil : i < t.names.length := by rwa [names, List.length_map]
  have hn : t.names[i] = f.name := by simp [names, he]
  have hidx := h.names.idxOf_getElem i hil
  rw [hn] at hidx
  cases f
  simp only [UwFile.mk.injEq, and_true]
  rw [hidx]
  exact hid

def file (names : List (List UInt8)) (name : List UInt8) : UwFile :=
  ⟨names.idxOf name + 1, name⟩

-- The table as it is searched: there are buckets.
theorem good_ready (h : t.Good) : ∃ t' : UwFiletab, (if t.buckets.length = 0 then t.grow else t) = t' ∧
    t'.byid = t.byid ∧ t'.isSealed = t.isSealed ∧ t'.Good ∧ Chaining.Holds UwFile.home t'.buckets t'.byid := by
  have ⟨hg, hb, hs, hh⟩ := good_grow h
  by_cases hl : t.buckets.length = 0
  case pos => exact ⟨_, if_pos hl, hb, hs, hg, hb ▸ hh⟩
  case neg =>
    rcases h.chains with ⟨he, _⟩ | hc
    case inl => exact absurd (List.length_eq_zero_iff.mpr he) hl
    case inr => exact ⟨_, if_neg hl, rfl, rfl, h, hc⟩

theorem good_add {name : List UInt8} (h : t.Good) (hc : Chaining.Holds UwFile.home t.buckets t.byid)
    (hn : name ∉ t.names) :
    let f := ⟨t.byid.length + 1, name⟩
    Good { t with byid := t.byid ++ [f], buckets := Chaining.put UwFile.home t.buckets f } where
  chains := .inr <| (Chaining.holds_put hc _).congr fun e => by simp [or_comm]
  ids    := by
    intro i f hf
    rw [List.getElem?_append] at hf
    split at hf
    case isTrue    => exact h.ids i f hf
    case isFalse hl =>
      have ⟨hi, hf⟩ := List.getElem?_eq_some_iff.mp hf
      have hi : i = t.byid.length := by simp only [List.length_singleton] at hi; omega
      simp only [hi, Nat.sub_self, List.getElem_cons_zero] at hf
      rw [← hf, hi]
  names  := by
    simp only [names, List.map_append, List.map_cons, List.map_nil]
    exact List.nodup_append.mpr ⟨h.names, List.nodup_singleton _, fun a ha b hb he =>
      hn <| List.mem_singleton.mp hb ▸ he ▸ ha⟩

-- One registration, by the names that are known.
structure Interned (t : UwFiletab) (r : Registration) (f : Option UwFile) (t' : UwFiletab) : Prop where
  good     : t'.Good
  isSealed : t'.isSealed = t.isSealed
  known    : r.joined ∈ t.names → t'.names = t.names ∧ f = some (file t.names r.joined)
  closed   : r.joined ∉ t.names → t.isSealed → t'.names = t.names ∧ f = none
  new      : r.joined ∉ t.names → t.isSealed = false →
    t'.names = t.names ++ [r.joined] ∧ f = some (file (t.names ++ [r.joined]) r.joined)

theorem intern_spec (h : t.Good) (r : Registration) : Interned t r (t.intern r).fst (t.intern r).snd := by
  have ⟨t', ht, hb, hs, hg, hh⟩ := good_ready h
  have hn : t'.names = t.names := by rw [names, hb, names]
  rw [intern]
  simp only [ht]
  cases hf : Chaining.find t'.buckets (fun f => f.name = r.joined) (uwHash r.joined).toNat with
  | some cur =>
    have ⟨hm, he⟩ := Chaining.find_some hh hf
    have he : cur.name = r.joined := by simpa using he
    have hk : r.joined ∈ t.names := hn ▸ he ▸ List.mem_map_of_mem hm
    have hc : cur = file t.names r.joined := by rw [file_eq hg hm, he, hn, file]
    exact ⟨hg, hs, fun _ => ⟨hn, congrArg some hc⟩, fun hc => absurd hk hc, fun hc => absurd hk hc⟩
  | none =>
    have hnot : r.joined ∉ t'.names := by
      intro hm
      have ⟨f, hm, he⟩ := List.mem_map.mp hm
      have hd := Chaining.find_none hh (fun e he => by
        rw [UwFile.home, show e.name = r.joined by simpa using he]) hf f hm
      simp [he] at hd
    by_cases hse : t'.isSealed
    case pos =>
      simp only [if_pos hse]
      refine ⟨hg, hs, fun hk => absurd (hn ▸ hk) hnot, fun _ _ => ⟨hn, rfl⟩, fun _ ho => ?_⟩
      exact absurd hse <| by rw [hs, ho]; nofun
    case neg =>
      have ha := good_add hg hh hnot
      have hfile : file (t.names ++ [r.joined]) r.joined = ⟨t'.byid.length + 1, r.joined⟩ := by
        rw [file, List.idxOf_append_of_notMem (hn ▸ hnot), List.idxOf_cons_self, Nat.add_zero, ← hn, names,
          List.length_map]
      simp only [if_neg hse]
      constructor
      case good =>
        split
        case isTrue  => exact (good_grow ha).left
        case isFalse => exact ha
      case isSealed => split <;> exact hs
      case known    => exact fun hk => absurd (hn ▸ hk) hnot
      case closed   => exact fun _ ho => absurd (hs.trans ho) hse
      case new      =>
        refine fun _ _ => ⟨?_, congrArg some hfile.symm⟩
        split <;> simp [names, grow, hb]

-- The number of a name stays while the table grows.
theorem file_eq_of_prefix {names names' : List (List UInt8)} {name : List UInt8} (hp : names <+: names')
    (hm : name ∈ names) : file names' name = file names name := by
  have ⟨_, he⟩ := hp
  rw [file, file, ← he, List.idxOf_append_of_mem hm]

theorem internAll_cons (t : UwFiletab) (r : Registration) (rs : List Registration) : t.internAll (r :: rs) =
    ((t.intern r).fst :: ((t.intern r).snd.internAll rs).fst, ((t.intern r).snd.internAll rs).snd) :=
  rfl

theorem internAll_open (h : t.Good) (ho : t.isSealed = false) (rs : List Registration) :
    (t.internAll rs).snd.Good ∧ (t.internAll rs).snd.names = internInto t.names (rs.map (·.joined)) ∧
    (t.internAll rs).fst = rs.map fun r => some (file (internInto t.names (rs.map (·.joined))) r.joined) := by
  induction rs generalizing t with
  | nil          => exact ⟨h, rfl, rfl⟩
  | cons r rs hi =>
    have hr := intern_spec h r
    have ⟨hn, hm, hf⟩ : (t.intern r).snd.names = internInto t.names [r.joined] ∧
        r.joined ∈ internInto t.names [r.joined] ∧
        (t.intern r).fst = some (file (internInto t.names [r.joined]) r.joined) := by
      by_cases hk : r.joined ∈ t.names
      case pos => rw [internInto_of_mem hk]; exact ⟨(hr.known hk).left, hk, (hr.known hk).right⟩
      case neg =>
        rw [internInto_of_not_mem hk]
        exact ⟨(hr.new hk ho).left, by simp, (hr.new hk ho).right⟩
    have ⟨hg, hns, hfs⟩ := hi hr.good (hr.isSealed.trans ho)
    rw [hn] at hns hfs
    have hp := internInto_extends_table (internInto t.names [r.joined]) (rs.map (·.joined))
    rw [internAll_cons]
    refine ⟨hg, hns, ?_⟩
    rw [hf, hfs, ← file_eq_of_prefix hp hm]
    rfl

theorem internAll_closed (h : t.Good) (hc : t.isSealed) (rs : List Registration) : (t.internAll rs).fst =
    rs.map fun r => if r.joined ∈ t.names then some (file t.names r.joined) else none := by
  induction rs generalizing t with
  | nil          => rfl
  | cons r rs hi =>
    have hr := intern_spec h r
    obtain ⟨hn, hf⟩ : (t.intern r).snd.names = t.names ∧
        (t.intern r).fst = if r.joined ∈ t.names then some (file t.names r.joined) else none := by
      by_cases hk : r.joined ∈ t.names
      case pos => rw [if_pos hk]; exact hr.known hk
      case neg => rw [if_neg hk]; exact hr.closed hk hc
    rw [internAll_cons, List.map_cons, hi hr.good (hr.isSealed.trans hc), hn, hf]

-- What the table gives for registrations.
def recorded (regs : List Registration) : List (Registration × Option UwFile) :=
  regs.zip (internAll {} regs).fst

def recordedAfter (t : UwFiletab) (later : List Registration) : List (Registration × Option UwFile) :=
  later.zip (t.flush.snd.internAll later).fst

-- The table stands for the paths of the registrations, and for these only once it is closed.
structure FilesRight (regs later : List Registration) (t : UwFiletab) : Prop where
  given  : ∀ r f, (r, f) ∈ recorded regs → f.isSome
  same   : ∀ p f, (p, some f) ∈ recorded regs → ∀ q g, (q, some g) ∈ recorded regs →
    (f.id = g.id ↔ p.resolved = q.resolved)
  dense  : ∀ n, (∃ p f, (p, some f) ∈ recorded regs ∧ f.id = n) ↔ 1 ≤ n ∧ n ≤ t.byid.length
  kept   : ∀ p f, (p, some f) ∈ recorded regs → t.byId f.id = some f
  listed : regs ≠ [] → t.emitSourceFiles.map (·.snd) = List.range' 1 t.byid.length
  paths  : ∀ p f, (p, some f) ∈ recorded regs → ∀ text, (text, f.id) ∈ t.emitSourceFiles →
    unescape text = some (sanitize p.resolved)
  found  : ∀ q g, (q, g) ∈ recordedAfter t later → ∀ n,
    (g.map (·.id) = some n ↔ ∃ p f, (p, some f) ∈ recorded regs ∧ p.resolved = q.resolved ∧ f.id = n)

-- The table that the registrations leave, by the names as the writer joins them.
structure Leaves (regs : List Registration) (known : List (List UInt8)) (t : UwFiletab) : Prop where
  good  : t.Good
  names : t.names = known
  mem   : ∀ name, name ∈ known ↔ ∃ r ∈ regs, r.joined = name
  given : ∀ r f, (r, f) ∈ recorded regs ↔ r ∈ regs ∧ f = some (file known r.joined)
  after : ∀ later q g, (q, g) ∈ recordedAfter t later ↔
    q ∈ later ∧ g = if q.joined ∈ known then some (file known q.joined) else none

theorem leaves (regs : List Registration) :
    Leaves regs (internInto [] (regs.map (·.joined))) (internAll {} regs).snd := by
  obtain ⟨hg, hn, hf⟩ := internAll_open good_empty rfl regs
  refine ⟨hg, hn, fun name => ?_, fun r f => ?_, fun later q g => ?_⟩
  case refine_1 => exact mem_internAll_iff.trans List.mem_map
  case refine_2 =>
    rw [recorded, hf, ← List.map_prod_left_eq_zip, List.mem_map]
    constructor
    case mp =>
      rintro ⟨_, hm, he⟩
      cases he
      exact ⟨hm, rfl⟩
    case mpr =>
      rintro ⟨hm, he⟩
      exact ⟨r, hm, by rw [he]; rfl⟩
  case refine_3 =>
    have hc : ((internAll {} regs).snd.flush).snd.Good := ⟨hg.chains, hg.ids, hg.names⟩
    rw [recordedAfter, internAll_closed hc rfl, ← List.map_prod_left_eq_zip, List.mem_map]
    have hn : (internAll {} regs).snd.flush.snd.names = internInto [] (regs.map (·.joined)) := hn
    rw [hn]
    constructor
    case mp =>
      rintro ⟨_, hm, he⟩
      cases he
      exact ⟨hm, rfl⟩
    case mpr =>
      rintro ⟨hm, he⟩
      exact ⟨q, hm, by rw [he]⟩

section

variable {regs : List Registration} {known : List (List UInt8)}

namespace Leaves

theorem length_byid (h : Leaves regs known t) : t.byid.length = known.length := by
  rw [← h.names, UwFiletab.names, List.length_map]

theorem getElem?_byid (h : Leaves regs known t) {name : List UInt8} (hm : name ∈ known) :
    t.byid[known.idxOf name]? = some (file known name) := by
  have hl : known.idxOf name < t.byid.length := by
    rw [h.length_byid]
    exact List.idxOf_lt_length_of_mem hm
  have hf := file_eq h.good (List.getElem_mem hl)
  have hn : (t.byid[known.idxOf name]).name = name := by
    have hk : t.names[known.idxOf name]? = some name := by
      rw [h.names]
      exact List.getElem?_eq_some_iff.mpr ⟨List.idxOf_lt_length_of_mem hm, by simp⟩
    rw [UwFiletab.names, List.getElem?_map, List.getElem?_eq_getElem hl] at hk
    exact Option.some.inj hk
  rw [List.getElem?_eq_getElem hl, hf, hn, h.names, file]

theorem mem_of_given (h : Leaves regs known t) {r : Registration} {f : UwFile} (hg : (r, some f) ∈ recorded regs) :
    r ∈ regs ∧ r.joined ∈ known ∧ f = file known r.joined := by
  have ⟨hm, hf⟩ := (h.given _ _).mp hg
  exact ⟨hm, (h.mem _).mpr ⟨r, hm, rfl⟩, Option.some.inj hf⟩

theorem ids (h : Leaves regs known t) : t.byid.map (·.id) = List.range' 1 t.byid.length := by
  apply List.ext_getElem?
  intro i
  rw [List.getElem?_map]
  by_cases hi : i < t.byid.length
  case pos =>
    rw [List.getElem?_eq_getElem hi, List.getElem?_range' hi, Option.map_some,
      h.good.ids i _ (List.getElem?_eq_getElem hi), Nat.one_mul, Nat.add_comm]
  case neg => rw [List.getElem?_eq_none (Nat.not_lt.mp hi), List.getElem?_eq_none (by simpa using hi), Option.map_none]

theorem id_eq_iff {a b : List UInt8} (ha : a ∈ known) : (file known a).id = (file known b).id ↔ a = b := by
  rw [file, file]
  simp only [Nat.add_right_cancel_iff]
  exact List.idxOf_inj ha

-- The element of a file shows the name as it was joined.
theorem text_eq (h : Leaves regs known t) {name text : List UInt8} (hm : name ∈ known)
    (ht : (text, (file known name).id) ∈ t.emitSourceFiles) : unescape text = some (sanitize name) := by
  have hpos : t.byid.length ≠ 0 := by
    rw [h.length_byid]
    exact Nat.ne_of_gt <| List.length_pos_of_mem hm
  rw [emitSourceFiles, if_neg hpos, List.mem_map] at ht
  have ⟨f, hf, he⟩ := ht
  rw [Prod.mk.injEq] at he
  have hfn := file_eq h.good hf
  have hk : f.name ∈ known := h.names ▸ List.mem_map_of_mem hf
  have hid : (file known f.name).id = (file known name).id := by
    rw [← he.right, hfn, h.names, file]
  have hn := (id_eq_iff hk).mp hid
  rw [← he.left, ← hn]
  exact (scansChars_uwScan.escapeWith_exact trivial 0).left

-- Without a registration that loses its slash, the table is right for what is asked of it later too.
theorem filesRight (h : Leaves regs known t) {later : List Registration} (hr : ∀ r ∈ regs, ¬r.AtRoot)
    (hl : ∀ q ∈ later, q.AtRoot → ∀ r ∈ regs, r.resolved ≠ q.filename ∧ r.resolved ≠ q.resolved) :
    FilesRight regs later t where
  given r f hg := by rw [((h.given r f).mp hg).right]; rfl
  same p f hf q g hg := by
    obtain ⟨hp, hpk, hfe⟩ := h.mem_of_given hf
    obtain ⟨hq, _, hge⟩ := h.mem_of_given hg
    rw [hfe, hge, id_eq_iff hpk, Registration.joined_eq (hr p hp), Registration.joined_eq (hr q hq)]
  dense n := by
    rw [h.length_byid]
    constructor
    case mp =>
      rintro ⟨p, f, hf, hn⟩
      obtain ⟨_, hk, he⟩ := h.mem_of_given hf
      have hlt := List.idxOf_lt_length_of_mem hk
      rw [he] at hn
      simp only [file] at hn
      omega
    case mpr =>
      rintro ⟨h1, hn⟩
      have hlt : n - 1 < known.length := by omega
      obtain ⟨r, hm, hj⟩ := (h.mem _).mp <| List.getElem_mem hlt
      refine ⟨r, _, (h.given _ _).mpr ⟨hm, rfl⟩, ?_⟩
      have hnd : known.Nodup := h.names ▸ h.good.names
      simp only [file, hj, hnd.idxOf_getElem]
      omega
  kept p f hf := by
    obtain ⟨_, hk, he⟩ := h.mem_of_given hf
    have hlt := List.idxOf_lt_length_of_mem hk
    have hb := h.getElem?_byid hk
    rw [byId, he, if_neg, file, Nat.add_sub_cancel, hb, file]
    rw [file, h.length_byid]
    simp only
    omega
  listed hne := by
    have hpos : t.byid.length ≠ 0 := by
      obtain ⟨r, hm⟩ := List.exists_mem_of_ne_nil _ hne
      rw [h.length_byid]
      exact Nat.ne_of_gt <| List.length_pos_of_mem <| (h.mem _).mpr ⟨r, hm, rfl⟩
    rw [emitSourceFiles, if_neg hpos, List.map_map, ← h.ids]
    rfl
  paths p f hf text ht := by
    obtain ⟨hp, hk, he⟩ := h.mem_of_given hf
    rw [← Registration.joined_eq (hr p hp)]
    exact h.text_eq hk (he ▸ ht)
  found q g hg n := by
    obtain ⟨hq, he⟩ := (h.after _ _ _).mp hg
    have hgiven : (∃ p f, (p, some f) ∈ recorded regs ∧ p.resolved = q.resolved ∧ f.id = n) ↔
        q.resolved ∈ known ∧ (file known q.resolved).id = n := by
      constructor
      case mp =>
        rintro ⟨p, f, hf, hpq, hn⟩
        obtain ⟨hp, hk, hfe⟩ := h.mem_of_given hf
        rw [Registration.joined_eq (hr p hp), hpq] at hk hfe
        exact ⟨hk, hfe ▸ hn⟩
      case mpr =>
        rintro ⟨hk, hn⟩
        obtain ⟨p, hp, hj⟩ := (h.mem _).mp hk
        exact ⟨p, _, (h.given _ _).mpr ⟨hp, rfl⟩, Registration.joined_eq (hr p hp) ▸ hj, hj.symm ▸ hn⟩
    have hname : q.joined ∈ known ∧ (file known q.joined).id = n ↔
        q.resolved ∈ known ∧ (file known q.resolved).id = n := by
      by_cases ha : q.AtRoot
      case pos =>
        have hno := hl q hq ha
        have hnot (name : List UInt8) (hd : ∀ r ∈ regs, r.resolved ≠ name) : name ∉ known := by
          intro hk
          obtain ⟨r, hm, hj⟩ := (h.mem _).mp hk
          exact hd r hm <| Registration.joined_eq (hr r hm) ▸ hj
        have hj := hnot q.joined fun r hm => (Registration.joined_of_atRoot ha).left ▸ (hno r hm).left
        have hs := hnot q.resolved fun r hm => (hno r hm).right
        exact ⟨fun hk => absurd hk.left hj, fun hk => absurd hk.left hs⟩
      case neg => rw [Registration.joined_eq ha]
    rw [hgiven, ← hname, he]
    split
    case isTrue hk  => simp [hk]
    case isFalse hk => simp [hk]

end Leaves

-- A name with a slash before it is another one.
theorem ne_slashed {r : Registration} (ha : r.AtRoot) : sanitize r.joined ≠ sanitize r.resolved := by
  have ⟨hj, hs⟩ := Registration.joined_of_atRoot ha
  intro he
  have hl := congrArg List.length he
  rw [length_sanitize, length_sanitize, hj, hs, List.length_cons] at hl
  omega

-- The table is right if and only if no relative name is registered with the root as its directory,
-- and none that would be mistaken is asked for later.
theorem filesRight_iff (regs later : List Registration) : FilesRight regs later (internAll {} regs).snd ↔
    (∀ r ∈ regs, ¬r.AtRoot) ∧
    ∀ q ∈ later, q.AtRoot → ∀ r ∈ regs, r.resolved ≠ q.filename ∧ r.resolved ≠ q.resolved := by
  have hleaves := leaves regs
  refine ⟨fun h => ?_, fun ⟨hr, hl⟩ => hleaves.filesRight hr hl⟩
  have hr : ∀ r ∈ regs, ¬r.AtRoot := by
    intro r hm ha
    have hg := (hleaves.given r _).mpr ⟨hm, rfl⟩
    have hk := (hleaves.mem _).mpr ⟨r, hm, rfl⟩
    have hid := h.dense _ |>.mp ⟨r, _, hg, rfl⟩
    have hlisted := h.listed (List.ne_nil_of_mem hm)
    have hin : (file (internInto [] (regs.map (·.joined))) r.joined).id ∈
        (internAll {} regs).snd.emitSourceFiles.map (·.snd) := by
      rw [hlisted, List.mem_range'_1]
      omega
    have ⟨e, he, hi⟩ := List.mem_map.mp hin
    have ht : (e.fst, (file (internInto [] (regs.map (·.joined))) r.joined).id) ∈
        (internAll {} regs).snd.emitSourceFiles := hi ▸ he
    have hp := h.paths r _ hg e.fst ht
    rw [hleaves.text_eq hk ht] at hp
    exact ne_slashed ha (Option.some.inj hp)
  refine ⟨hr, fun q hq ha r hm => ?_⟩
  have ⟨hj, hs⟩ := Registration.joined_of_atRoot ha
  have hne : q.joined ≠ q.resolved := fun he => ne_slashed ha (congrArg sanitize he)
  have hf := h.found q _ ((hleaves.after later q _).mpr ⟨hq, rfl⟩)
  constructor
  case left =>
    intro he
    have hk : q.joined ∈ internInto [] (regs.map (·.joined)) :=
      (hleaves.mem _).mpr ⟨r, hm, by rw [Registration.joined_eq (hr r hm), he, hj]⟩
    have hq := (hf (file (internInto [] (regs.map (·.joined))) q.joined).id).mp (by rw [if_pos hk]; rfl)
    have ⟨p, f, hp, hpq, hn⟩ := hq
    have ⟨hpm, hpk, hfe⟩ := hleaves.mem_of_given hp
    rw [hfe, Leaves.id_eq_iff hpk, Registration.joined_eq (hr p hpm), hpq] at hn
    exact hne hn.symm
  case right =>
    intro he
    have hg := (hleaves.given r _).mpr ⟨hm, rfl⟩
    have hk := (hleaves.mem _).mpr ⟨r, hm, rfl⟩
    have hn := (hf _).mpr ⟨r, _, hg, he, rfl⟩
    split at hn
    case isTrue  =>
      have hid := Option.some.inj hn
      rw [eq_comm, Leaves.id_eq_iff hk, Registration.joined_eq (hr r hm), he] at hid
      exact hne hid.symm
    case isFalse => cases hn

-- A name below the root directory is not the path that it means.
theorem root_loses_slash : ¬FilesRight [⟨ascii "a.v".toList, some (ascii "/".toList)⟩, ⟨ascii "/a.v".toList, none⟩] []
    (internAll {} [⟨ascii "a.v".toList, some (ascii "/".toList)⟩, ⟨ascii "/a.v".toList, none⟩]).snd := by
  intro h
  have hs := h.same ⟨ascii "a.v".toList, some (ascii "/".toList)⟩ ⟨1, ascii "a.v".toList⟩ (by decide +kernel)
    ⟨ascii "/a.v".toList, none⟩ ⟨2, ascii "/a.v".toList⟩ (by decide +kernel)
  exact absurd (hs.mpr (by decide +kernel)) (by decide)

end

end UwFiletab
