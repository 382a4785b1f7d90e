import Covsight.Lib.DepthFirst
import Covsight.Lib.Rearrangement
import Covsight.UcisXml.Branch
import Mathlib.Data.List.Forall2

-- The branch statements of a scope against the arms that were recorded.

open Forest

structure EmittedArm where
  id    : SLoc
  name  : Text
  count : Nat

structure EmittedStatement where
  id   : SLoc
  arms : List EmittedArm

namespace BranchXml

def ownArm : BranchXml → Option EmittedArm
  | branch id _ name count => some ⟨id, name, count⟩
  | statement ..           => none

-- Every statement of a document, with the arms directly in it

mutual

def statements : BranchXml → List EmittedStatement
  | statement _ _ _ id branches => ⟨id, branches.filterMap ownArm⟩ :: statementsIn branches
  | branch _ nested _ _         => statementsIn nested

def statementsIn : List BranchXml → List EmittedStatement
  | []      => []
  | x :: xs => statements x ++ statementsIn xs

end

theorem statementsIn_filterMap {α : Type*} (xs : List α) (f : α → Option BranchXml) :
    statementsIn (xs.filterMap f) = xs.flatMap fun x => (f x).elim [] statements := by
  induction xs with
  | nil          => rw [List.filterMap_nil, List.flatMap_nil, statementsIn]
  | cons x xs hi =>
    rw [List.flatMap_cons, ← hi]
    cases hx : f x with
    | none   => rw [List.filterMap_cons_none hx, Option.elim_none, List.nil_append]
    | some _ => rw [List.filterMap_cons_some hx, statementsIn, Option.elim_some]

end BranchXml

theorem sortInto_perm (n : Nat) (less : Nat → Nat → Bool) : (Stage.sortInto n less).Perm (List.range n) :=
  List.mergeSort_perm ..

-- A list of positions, in another order
theorem perm_map_getD {α : Type*} (xs : List α) (d : α) {order : List Nat} (h : order.Perm (List.range xs.length)) :
    (order.map (xs.getD · d)).Perm xs := by
  refine (h.map _).trans (.of_eq ?_)
  apply List.ext_getElem?
  intro i
  rw [List.getElem?_map]
  by_cases hi : i < xs.length
  case pos => simp [hi]
  case neg => simp [hi]

theorem filterMap_getElem?_filter {α : Type*} (xs : List α) (d : α) (p : α → Bool) :
    ((List.range xs.length).filter fun i => p (xs.getD i d)).filterMap (xs[·]?) = xs.filter p := by
  induction xs with
  | nil          => rfl
  | cons x xs hi =>
    rw [List.length_cons, List.range_succ_eq_map, List.filter_cons, List.filter_cons, List.filter_map]
    have hs : (List.map Nat.succ ((List.range xs.length).filter ((fun i => p ((x :: xs).getD i d)) ∘ Nat.succ))).filterMap
        ((x :: xs)[·]?) = xs.filter p := by
      rw [List.filterMap_map]
      exact hi
    rw [List.getD_cons_zero]
    split
    case isTrue hp  => rw [List.filterMap_cons, hs]; rfl
    case isFalse hp => exact hs

namespace Stage

variable {sg : Stage} {si : Nat} {sord : List Nat}

theorem armOrder_perm (sg : Stage) (si : Nat) : (sg.armOrder si).Perm
    ((List.range sg.brArms.length).filter fun i => (sg.brArms.getD i ⟨0, ⟨1, 1, 1⟩, [], 0⟩).stmt = si) :=
  perm_map_getD _ _ (sortInto_perm ..)

-- The arms of a statement as they are written
def armsOf (sg : Stage) (si : Nat) : List RBrArm :=
  (sg.armOrder si).filterMap (sg.brArms[·]?)

theorem armsOf_perm (sg : Stage) (si : Nat) : (sg.armsOf si).Perm (sg.brArms.filter (·.stmt = si)) :=
  ((sg.armOrder_perm si).filterMap _).trans <| .of_eq <|
    filterMap_getElem?_filter sg.brArms ⟨0, ⟨1, 1, 1⟩, [], 0⟩ (·.stmt = si)

theorem mem_armOrder {ai : Nat} : ai ∈ sg.armOrder si ↔ ∃ a, sg.brArms[ai]? = some a ∧ a.stmt = si := by
  rw [(sg.armOrder_perm si).mem_iff, List.mem_filter, List.mem_range]
  constructor
  case mp =>
    rintro ⟨hl, hs⟩
    exact ⟨sg.brArms[ai], List.getElem?_eq_getElem hl, by simpa [hl] using hs⟩
  case mpr =>
    rintro ⟨a, ha, hs⟩
    have ⟨hl, _⟩ := List.getElem?_eq_some_iff.mp ha
    exact ⟨hl, by simp [List.getD_eq_getElem?_getD, ha, hs]⟩

def inside (sg : Stage) (sord : List Nat) (parent : Option Nat) : List Nat :=
  sord.filter fun sj => (sg.brStmts[sj]?).any (·.parentArm = parent)

def children (sg : Stage) (sord : List Nat) (si : Nat) : List Nat :=
  (sg.armOrder si).flatMap fun ai => sg.inside sord (some ai)

def emitted (a : RBrArm) : EmittedArm :=
  ⟨a.loc.id, a.name, a.count⟩

def own (sg : Stage) (si : Nat) : EmittedStatement :=
  ⟨(sg.brStmts.getD si ⟨⟨1, 1, 1⟩, [], [], none⟩).loc.id, (sg.armsOf si).map emitted⟩

-- A statement is written with what is inside its arms.
theorem statements_render (depth : Nat) {nested : Bool} (h : si < sg.brStmts.length) :
    (sg.renderBranchStatement sord depth si nested).elim [] BranchXml.statements =
      (preorder (sg.children sord) depth si).map sg.own := by
  induction depth generalizing si nested with
  | zero          => rfl
  | succ depth hi =>
    have hs := List.getElem?_eq_getElem h
    rw [renderBranchStatement, hs, Option.map_some, Option.elim_some, BranchXml.statements,
      BranchXml.statementsIn_filterMap, preorder]
    rw [List.map_cons]
    congr 1
    case e_head =>
      rw [own, List.getD_eq_getElem?_getD, hs, Option.getD_some]
      congr 1
      rw [armsOf, List.map_filterMap, List.filterMap_filterMap]
      refine List.filterMap_congr fun ai _ => ?_
      cases sg.brArms[ai]? <;> rfl
    case e_tail =>
      rw [List.map_flatMap, children, List.flatMap_assoc]
      refine List.flatMap_congr fun ai hm => ?_
      obtain ⟨a, ha, _⟩ := mem_armOrder.mp hm
      rw [ha, Option.map_some, Option.elim_some, BranchXml.statements, BranchXml.statementsIn_filterMap]
      refine List.flatMap_congr fun sj hj => ?_
      have hj : sj < sg.brStmts.length := by
        obtain ⟨_, hj⟩ := List.mem_filter.mp hj
        by_contra hn
        rw [List.getElem?_eq_none (Nat.not_lt.mp hn)] at hj
        cases hj
      exact hi hj

end Stage

-- What was recorded, by source locations: a line in a file. There is no line 0, and no file is the unknown one.
structure Site where
  file : Text
  line : Nat
  deriving DecidableEq

def siteAt (file : Text) (line : Nat) : Site :=
  ⟨if file = [] then unknownFileName else file, positive line⟩

structure RecordedArm where
  site  : Site
  name  : Text
  count : Nat

structure Recorded where
  sites : List Site        := []
  arms  : List RecordedArm := []

namespace Recorded

def addSite (r : Recorded) (file : Text) (line : Nat) : Recorded :=
  { r with sites := r.sites ++ [siteAt file line] }

def addArm (r : Recorded) (branch : Nat) (name : Text) (count : Nat) : Recorded :=
  match r.sites[branch]? with
  | none   => r
  | some s => { r with arms := r.arms ++ [⟨s, name, count⟩] }

def next (r : Recorded) : Record → Recorded
  | .branch file line _ _         => r.addSite file line
  | .nestedBranch _ file line _ _ => r.addSite file line
  | .arm branch name count        => r.addArm branch name count
  | .point file line name count   => (r.addSite file line).addArm r.sites.length name count
  | .other _                      => r

-- The handles that a record names were given out before.
def Allows (r : Recorded) : Record → Prop
  | .nestedBranch (some a) .. => a < r.arms.length
  | .arm branch _ _           => branch < r.sites.length
  | _                         => True

end Recorded

def AllowedFrom (r : Recorded) : List Record → Prop
  | []      => True
  | x :: xs => r.Allows x ∧ AllowedFrom (r.next x) xs

namespace FileTable

variable {t : FileTable} {path : Text}

def locOf (t : FileTable) (s : Site) : SLoc :=
  ⟨t.order.idxOf s.file + 1, s.line, 1⟩

theorem idxOf_unknown (t : FileTable) : t.order.idxOf unknownFileName = 0 := by
  have hu := t.unknown
  cases ho : t.order with
  | nil          => rw [ho] at hu; cases hu
  | cons x order =>
    rw [ho] at hu
    cases hu
    exact List.idxOf_cons_self

theorem unknown_mem (t : FileTable) : unknownFileName ∈ t.order :=
  List.mem_of_mem_head? t.unknown

theorem declare_spec (h : path ≠ []) : t.order <+: (t.declare path).snd.order ∧ path ∈ (t.declare path).snd.order ∧
    (t.declare path).fst = (t.declare path).snd.order.idxOf path + 1 := by
  rw [declare, if_neg h]
  refine ⟨intern.extends_table .., intern.mem_iff.mpr (.inr rfl), ?_⟩
  have ⟨hl, hx⟩ := List.getElem?_eq_some_iff.mp <| intern.get? t.order path
  have hi := (intern.nodup (x := path) t.nodup).idxOf_getElem _ hl
  rw [hx] at hi
  exact congrArg (· + 1) hi.symm

-- A path has its number, and keeps it.
theorem resolve_spec (hok : (t.resolve path).snd.fst = true) (line : Nat) : t.order <+: (t.resolve path).snd.snd.order ∧
    (siteAt path line).file ∈ (t.resolve path).snd.snd.order ∧
    (t.resolve path).fst = (t.resolve path).snd.snd.order.idxOf (siteAt path line).file + 1 := by
  rw [siteAt]
  rw [resolve] at hok ⊢
  by_cases he : path = []
  case pos =>
    simp only [if_pos he]
    exact ⟨List.prefix_rfl, t.unknown_mem, by rw [t.idxOf_unknown]⟩
  case neg =>
    simp only [if_neg he] at hok ⊢
    by_cases hm : path ∈ t.order
    case pos =>
      simp only [if_pos hm]
      exact ⟨List.prefix_rfl, hm, trivial⟩
    case neg =>
      simp only [if_neg hm] at hok ⊢
      split at hok
      case isTrue hd =>
        simp only [if_pos hd]
        exact declare_spec he
      case isFalse => cases hok

end FileTable

def RecordedArm.emitted (t : FileTable) (a : RecordedArm) : EmittedArm :=
  ⟨t.locOf a.site, a.name, a.count⟩

namespace Stage

variable {sg sg' : Stage} {r : Recorded} {file : Text} {line : Nat}

-- The stage keeps what was recorded. A statement is inside an arm of an earlier one.
structure Sim (sg : Stage) (r : Recorded) : Prop where
  known  : ∀ site ∈ r.sites, site.file ∈ sg.files.order
  stmts  : sg.brStmts.map (·.loc.id) = r.sites.map sg.files.locOf
  arms   : List.Forall₂ (fun a x => r.sites[a.stmt]? = some x.site ∧ emitted a = x.emitted sg.files) sg.brArms r.arms
  nested : ∀ (j : Nat) (s : RBrStmt), sg.brStmts[j]? = some s → ∀ a, s.parentArm = some a →
    ∃ b : RBrArm, sg.brArms[a]? = some b ∧ b.stmt < j

theorem locOf_eq {t t' : FileTable} (h : t.order <+: t'.order) {site : Site} (hm : site.file ∈ t.order) :
    t'.locOf site = t.locOf site := by
  have ⟨_, he⟩ := h
  rw [FileTable.locOf, FileTable.locOf, ← he, List.idxOf_append_of_mem hm]

theorem Sim.length_stmts (h : Sim sg r) : sg.brStmts.length = r.sites.length := by
  simpa using congrArg List.length h.stmts

-- More files change nothing.
theorem Sim.grow (h : Sim sg r) (hf : sg.files.order <+: sg'.files.order) (hs : sg'.brStmts = sg.brStmts)
    (ha : sg'.brArms = sg.brArms) : Sim sg' r where
  known site hm := hf.subset <| h.known site hm
  stmts := by
    rw [hs, h.stmts]
    exact List.map_congr_left fun site hm => (locOf_eq hf <| h.known site hm).symm
  arms := by
    rw [ha]
    refine h.arms.imp fun a x ⟨hx, he⟩ => ⟨hx, he.trans ?_⟩
    rw [RecordedArm.emitted, RecordedArm.emitted, locOf_eq hf <| h.known _ <| List.mem_of_getElem? hx]
  nested := by rw [hs, ha]; exact h.nested

theorem loc_spec (line : Nat) (hok : (sg.loc file line 1).snd.ok = true) : sg.ok = true ∧
    sg.files.order <+: (sg.loc file line 1).snd.files.order ∧
    (siteAt file line).file ∈ (sg.loc file line 1).snd.files.order ∧
    (sg.loc file line 1).fst.id = (sg.loc file line 1).snd.files.locOf (siteAt file line) := by
  have hok := Bool.and_eq_true_iff.mp hok
  have ⟨hp, hm, he⟩ := FileTable.resolve_spec hok.right line
  refine ⟨hok.left, hp, hm, ?_⟩
  have he' : (sg.loc file line 1).fst.file = (sg.loc file line 1).snd.files.order.idxOf (siteAt file line).file + 1 := he
  rw [SLoc.id, FileTable.locOf, he']
  rfl

theorem Sim.other (h : Sim sg r) (hok : (sg.loc file line 1).snd.ok = true) : Sim (sg.loc file line 1).snd r :=
  h.grow (loc_spec line hok).right.left rfl rfl

theorem Sim.addSite (h : Sim sg r) {parent : Option Nat} {stmtType expr : Text}
    (hp : ∀ a, parent = some a → a < r.arms.length)
    (hok : (sg.nestedBranch parent file line stmtType expr).snd.ok = true) :
    Sim (sg.nestedBranch parent file line stmtType expr).snd (r.addSite file line) ∧
    (sg.nestedBranch parent file line stmtType expr).fst = r.sites.length := by
  have hok : (sg.loc file line 1).snd.ok = true := hok
  have ⟨_, hf, hm, hl⟩ := loc_spec line hok
  have h' := h.other hok
  refine ⟨⟨fun site hs => ?_, ?_, ?_, fun j s hj a ha => ?_⟩, h.length_stmts⟩
  case refine_1 =>
    rcases List.mem_append.mp hs with hs | hs
    case inl => exact h'.known site hs
    case inr => exact List.mem_singleton.mp hs ▸ hm
  case refine_2 =>
    rw [nestedBranch, Recorded.addSite]
    simp only [List.map_append, List.map_cons, List.map_nil]
    exact congrArg₂ _ h'.stmts (congrArg (fun x => [x]) hl)
  case refine_3 =>
    refine h'.arms.imp fun a x ⟨hx, he⟩ => ⟨?_, he⟩
    rw [Recorded.addSite, List.getElem?_append_left (List.getElem?_eq_some_iff.mp hx).fst, hx]
  case refine_4 =>
    rw [nestedBranch] at hj
    simp only [List.getElem?_append] at hj
    split at hj
    case isTrue    => exact h'.nested j s hj a ha
    case isFalse hn =>
      have ⟨hj, he⟩ := List.getElem?_eq_some_iff.mp hj
      simp only [List.length_singleton] at hj
      simp only [Nat.lt_one_iff.mp hj, List.getElem_cons_zero] at he
      have ha : parent = some a := by rw [← ha, ← he]
      have hlt := h.arms.length_eq ▸ hp a ha
      have hb := List.getElem?_eq_getElem hlt
      refine ⟨sg.brArms[a], hb, ?_⟩
      have hx := (List.forall₂_iff_get.mp h.arms).right a hlt (hp a ha)
      have hl := (List.getElem?_eq_some_iff.mp hx.left).fst
      rw [← h.length_stmts] at hl
      exact Nat.lt_of_lt_of_le hl (Nat.not_lt.mp hn)

theorem Sim.addArm (h : Sim sg r) (branch : Nat) (name : Text) (count : Nat) :
    Sim (sg.arm branch name count) (r.addArm branch name count) := by
  have hs : (sg.brStmts[branch]?).map (·.loc.id) = (r.sites[branch]?).map sg.files.locOf := by
    rw [← List.getElem?_map, ← List.getElem?_map, h.stmts]
  rw [arm, Recorded.addArm]
  cases hst : sg.brStmts[branch]? with
  | none =>
    rw [hst] at hs
    rw [Option.map_eq_none_iff.mp hs.symm]
    exact h
  | some s =>
    rw [hst] at hs
    have ⟨site, hsite, hid⟩ := Option.map_eq_some_iff.mp hs.symm
    rw [hsite]
    refine ⟨h.known, h.stmts, ?_, fun j s hj a ha => ?_⟩
    case refine_1 =>
      refine List.rel_append h.arms (.cons ⟨hsite, ?_⟩ .nil)
      rw [emitted, RecordedArm.emitted]
      exact congrArg (EmittedArm.mk · name count) hid.symm
    case refine_2 =>
      have ⟨b, hb, hlt⟩ := h.nested j s hj a ha
      exact ⟨b, (List.getElem?_append_left (List.getElem?_eq_some_iff.mp hb).fst).trans hb, hlt⟩

theorem ok_arm {branch count : Nat} {name : Text} : (sg.arm branch name count).ok = sg.ok := by
  rw [arm]
  split <;> rfl

theorem Sim.record (h : Sim sg r) {x : Record} (hx : r.Allows x) (hok : (sg.record x).ok = true) :
    Sim (sg.record x) (r.next x) := by
  cases x with
  | branch file line stmtType expr => exact (h.addSite (fun _ ha => by cases ha) hok).left
  | nestedBranch parent file line stmtType expr =>
    refine (h.addSite (fun a ha => ?_) hok).left
    subst ha
    exact hx
  | arm branch name count => exact h.addArm branch name count
  | point file line name count =>
    have hok' : (sg.branch file line (Xml.ascii "if".toList) []).snd.ok = true := ok_arm.symm.trans hok
    have ⟨hs, hi⟩ := h.addSite (fun _ ha => by cases ha) hok'
    have he : r.next (.point file line name count) = (r.addSite file line).addArm
        (sg.branch file line (Xml.ascii "if".toList) []).fst name count := by
      rw [branch, hi]
      rfl
    rw [he]
    exact hs.addArm _ name count
  | other file => exact h.other hok

theorem sim_begin (files : FileTable) : Sim { files } {} where
  known  := nofun
  stmts  := rfl
  arms   := .nil
  nested := by simp

-- An error stays.
theorem ok_of_record {x : Record} (hok : (sg.record x).ok = true) : sg.ok = true := by
  cases x with
  | branch _ line _ _         => exact (loc_spec line hok).left
  | nestedBranch _ _ line _ _ => exact (loc_spec line hok).left
  | arm _ _ _                 => exact ok_arm ▸ hok
  | point file line _ _       =>
    have hok : (sg.branch file line (Xml.ascii "if".toList) []).snd.ok = true := ok_arm.symm.trans hok
    exact (loc_spec line hok).left
  | other _                   => exact (loc_spec 1 hok).left

theorem ok_of_foldl {xs : List Record} (hok : (xs.foldl Stage.record sg).ok = true) : sg.ok = true := by
  induction xs generalizing sg with
  | nil          => exact hok
  | cons x xs hi => exact ok_of_record (hi hok)

theorem Sim.foldl {xs : List Record} (h : Sim sg r) (hx : AllowedFrom r xs) (hok : (xs.foldl Stage.record sg).ok = true) :
    Sim (xs.foldl Stage.record sg) (xs.foldl Recorded.next r) := by
  induction xs generalizing sg r with
  | nil          => exact h
  | cons x xs hi => exact hi (h.record hx.left <| ok_of_foldl hok) hx.right hok

theorem stmtOrder_perm (sg : Stage) : sg.stmtOrder.Perm (List.range sg.brStmts.length) :=
  sortInto_perm ..

-- The arm that a statement is inside
def parentArm (sg : Stage) (j : Nat) : Option Nat :=
  (sg.brStmts[j]?).bind (·.parentArm)

theorem count_inside (j : Nat) (p : Option Nat) : (sg.inside sg.stmtOrder p).count j =
    if j < sg.brStmts.length ∧ sg.parentArm j = p then 1 else 0 := by
  have hn : (sg.inside sg.stmtOrder p).Nodup := (sg.stmtOrder_perm.nodup_iff.mpr List.nodup_range).filter _
  rw [hn.count]
  refine if_congr ?_ rfl rfl
  rw [inside, List.mem_filter, sg.stmtOrder_perm.mem_iff, List.mem_range]
  refine and_congr_right fun hj => ?_
  rw [parentArm, List.getElem?_eq_getElem hj]
  simp

-- Every statement has its place in the forest.
theorem grown (h : Sim sg r) : Grown (sg.children sg.stmtOrder)
    (fun j => (sg.parentArm j).bind fun a => (sg.brArms[a]?).map (·.stmt))
    (sg.inside sg.stmtOrder none) sg.brStmts.length := by
  have harm (j a : Nat) (hp : sg.parentArm j = some a) : j < sg.brStmts.length ∧
      ∃ b, sg.brArms[a]? = some b ∧ b.stmt < j := by
    have ⟨s, hs, ha⟩ := Option.bind_eq_some_iff.mp hp
    exact ⟨(List.getElem?_eq_some_iff.mp hs).fst, h.nested j s hs a ha⟩
  constructor
  case roots =>
    intro j
    rw [count_inside]
    refine if_congr (and_congr_right fun _ => ?_) rfl rfl
    cases hp : sg.parentArm j with
    | none   => simp
    | some a =>
      have ⟨_, b, hb, _⟩ := harm j a hp
      simp [hb]
  case children =>
    intro i j
    have hc (ai : Nat) : (sg.inside sg.stmtOrder (some ai)).count j = if sg.parentArm j = some ai then 1 else 0 := by
      rw [count_inside]
      exact if_congr (and_iff_right_of_imp fun hp => (harm j ai hp).left) rfl rfl
    rw [children, count_flatMap hc]
    cases hp : sg.parentArm j with
    | none   => simp
    | some a =>
      have ⟨_, b, hb, _⟩ := harm j a hp
      have hn : (sg.armOrder i).Nodup := (sg.armOrder_perm i).nodup_iff.mpr (List.nodup_range.filter _)
      rw [Option.elim_some, hn.count]
      refine if_congr ?_ rfl rfl
      rw [mem_armOrder, hb]
      simp [hb]
  case smaller =>
    intro i j hp
    have ⟨a, ha, hi⟩ := Option.bind_eq_some_iff.mp hp
    have ⟨hj, b, hb, hlt⟩ := harm j a ha
    rw [hb] at hi
    cases hi
    exact ⟨hlt, hj⟩

-- The statements of the document, in some order
theorem statements_perm (h : Sim sg r) :
    (BranchXml.statementsIn sg.renderBranch).Perm ((List.range sg.brStmts.length).map sg.own) := by
  have hr : BranchXml.statementsIn sg.renderBranch = ((sg.inside sg.stmtOrder none).flatMap
      (preorder (sg.children sg.stmtOrder) sg.brStmts.length)).map sg.own := by
    rw [renderBranch, BranchXml.statementsIn_filterMap, List.map_flatMap]
    refine List.flatMap_congr fun si hs => statements_render _ ?_
    exact List.mem_range.mp <| sg.stmtOrder_perm.mem_iff.mp (List.mem_filter.mp hs).left
  rw [hr]
  exact (preorder_perm (grown h) (Nat.le_refl _)).map _

theorem map_id_own (h : Sim sg r) :
    ((List.range sg.brStmts.length).map sg.own).map (·.id) = r.sites.map sg.files.locOf := by
  rw [← h.stmts, List.map_map]
  apply List.ext_getElem?
  intro i
  rw [List.getElem?_map, List.getElem?_map]
  by_cases hi : i < sg.brStmts.length
  case pos => simp [hi, own]
  case neg => simp [hi]

theorem nodup_ids_iff (h : Sim sg r) : ((BranchXml.statementsIn sg.renderBranch).map (·.id)).Nodup ↔
    (r.sites.map sg.files.locOf).Nodup :=
  ((statements_perm h).map _).nodup_iff.trans <| .of_eq <| congrArg List.Nodup <| map_id_own h

-- The arms of the statements at a site
theorem filter_arms (h : Sim sg r) (hn : r.sites.Nodup) {i : Nat} {site : Site} (hs : r.sites[i]? = some site) :
    (sg.brArms.filter (·.stmt = i)).map emitted = (r.arms.filter (·.site = site)).map (·.emitted sg.files) := by
  have harms := h.arms
  generalize sg.brArms = as at harms
  generalize r.arms = xs at harms
  induction harms with
  | nil => rfl
  | @cons a x as xs hax _ hi =>
    have ⟨hx, he⟩ := hax
    have hiff : a.stmt = i ↔ x.site = site := by
      constructor
      case mp =>
        rintro rfl
        exact Option.some.inj (hx.symm.trans hs)
      case mpr =>
        rintro rfl
        exact (List.getElem?_inj (List.getElem?_eq_some_iff.mp hx).fst hn).mp (hx.trans hs.symm)
    by_cases ha : a.stmt = i
    case pos =>
      rw [List.filter_cons_of_pos (by simpa using ha), List.filter_cons_of_pos (by simpa using hiff.mp ha),
        List.map_cons, List.map_cons, hi, he]
    case neg =>
      rw [List.filter_cons_of_neg (by simpa using ha), List.filter_cons_of_neg (by simpa using fun hx => ha (hiff.mpr hx)),
        hi]

theorem map_emitted (h : Sim sg r) : sg.brArms.map emitted = r.arms.map (·.emitted sg.files) := by
  have harms := h.arms
  generalize sg.brArms = as at harms
  generalize r.arms = xs at harms
  induction harms with
  | nil             => rfl
  | cons hax _ hi => rw [List.map_cons, List.map_cons, hi, hax.right]

theorem flatMap_own (h : Sim sg r) : (((List.range sg.brStmts.length).map sg.own).flatMap (·.arms)).Perm
    (r.arms.map (·.emitted sg.files)) := by
  have hlt : ∀ a ∈ sg.brArms, a.stmt < sg.brStmts.length := by
    intro a ha
    have ⟨i, hi, he⟩ := List.mem_iff_getElem.mp ha
    have hx := (List.forall₂_iff_get.mp h.arms).right i hi (h.arms.length_eq ▸ hi)
    have hl := (List.getElem?_eq_some_iff.mp hx.left).fst
    rw [← h.length_stmts] at hl
    exact he ▸ hl
  rw [List.flatMap_map, ← map_emitted h]
  have hf := (flatMap_filter_perm List.nodup_range fun x hx => List.mem_range.mpr (hlt x hx)).map emitted
  rw [List.map_flatMap] at hf
  exact (List.Perm.flatMap_left _ fun i _ => (sg.armsOf_perm i).map emitted).trans hf

end Stage

-- One statement for every location, with the arms that were recorded there, and no other arms.
structure Grouped (files : FileTable) (r : Recorded) (doc : List EmittedStatement) : Prop where
  once     : (doc.flatMap (·.arms)).Perm (r.arms.map (·.emitted files))
  apart    : (doc.map (·.id)).Nodup
  together : ∀ a ∈ r.arms, ∃ e ∈ doc, e.id = files.locOf a.site ∧
    e.arms.Perm ((r.arms.filter (·.site = a.site)).map (·.emitted files))

def GroupsBranches (files : FileTable) (records : List Record) : Prop :=
  ∃ doc, (records.foldl Stage.record { files }).endScope = some doc ∧
    Grouped (records.foldl Stage.record { files }).files (records.foldl Recorded.next {}) (BranchXml.statementsIn doc)

-- Branches are grouped if and only if no two of them were opened at one location.
theorem groupsBranches_iff (files : FileTable) (records : List Record) (h : AllowedFrom {} records)
    (hok : (records.foldl Stage.record { files }).ok = true) :
    GroupsBranches files records ↔ (records.foldl Recorded.next {}).sites.Nodup := by
  rw [GroupsBranches]
  have hsim := (Stage.sim_begin files).foldl h hok
  generalize records.foldl Stage.record { files } = sg at hsim hok
  generalize records.foldl Recorded.next {} = r at hsim
  have hp := Stage.statements_perm hsim
  have hids := Stage.nodup_ids_iff hsim
  have hdoc : sg.endScope = some sg.renderBranch := if_pos hok
  constructor
  case mp =>
    rintro ⟨doc, hd, hg⟩
    rw [hdoc, Option.some.injEq] at hd
    exact .of_map _ <| hids.mp (hd ▸ hg.apart)
  case mpr =>
    intro hn
    refine ⟨_, hdoc, (hp.flatMap_right _).trans (Stage.flatMap_own hsim), hids.mpr ?_, fun a ha => ?_⟩
    case refine_1 =>
      refine hn.map_on fun x hx y hy he => ?_
      have he := SLoc.mk.inj he
      have hf := (List.idxOf_inj (hsim.known x hx)).mp (Nat.add_right_cancel he.left)
      cases x
      cases y
      exact congrArg₂ Site.mk hf he.right.left
    case refine_2 =>
      have ⟨k, hk, hka⟩ := List.mem_iff_getElem.mp ha
      have hx := (List.forall₂_iff_get.mp hsim.arms).right k (hsim.arms.length_eq.symm ▸ hk) hk
      have hs : r.sites[(sg.brArms.get ⟨k, hsim.arms.length_eq.symm ▸ hk⟩).stmt]? = some a.site := hka ▸ hx.left
      generalize (sg.brArms.get ⟨k, _⟩).stmt = i at hs
      have hi := (List.getElem?_eq_some_iff.mp hs).fst
      rw [← hsim.length_stmts] at hi
      refine ⟨sg.own i, hp.mem_iff.mpr (List.mem_map_of_mem (List.mem_range.mpr hi)), ?_, ?_⟩
      case refine_1 =>
        have hid := congrArg (·[i]?) (Stage.map_id_own hsim)
        simpa [hi, hs] using hid
      case refine_2 =>
        rw [← Stage.filter_arms hsim hn hs]
        exact (sg.armsOf_perm i).map _

-- An arm between a branch inside the arm before it and that branch's own arm
theorem groups_nested : GroupsBranches { deferred := true } [.branch [97] 10 [] [], .arm 0 [116] 1,
    .nestedBranch (some 0) [97] 11 [] [], .arm 0 [102] 3, .arm 1 [116] 2] := by
  refine (groupsBranches_iff _ _ ?_ rfl).mpr (by decide)
  exact ⟨trivial, Nat.one_pos, Nat.one_pos, Nat.two_pos, Nat.one_lt_two, trivial⟩

-- Two points at one location get a statement each.
theorem points_apart : ¬GroupsBranches { deferred := true } [.point [97] 10 [116] 1, .point [97] 10 [102] 2] := by
  rintro ⟨doc, hd, hg⟩
  have hx : AllowedFrom {} [.point [97] 10 [116] 1, .point [97] 10 [102] 2] := ⟨trivial, trivial, trivial⟩
  have hsim := (Stage.sim_begin { deferred := true }).foldl hx rfl
  have hn := (Stage.nodup_ids_iff hsim).mp (Option.some.inj hd ▸ hg.apart)
  exact absurd hn (by decide)
