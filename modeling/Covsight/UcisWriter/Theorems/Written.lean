import Covsight.UcisWriter.Theorems.Emit

-- What can be written: the steps that the calls take, with what they look at first.

open Xml Markup

-- What an element opens, and what it gets as a whole, as long as nothing was refused

variable {c : UwDb} {stack : List UwElem}

inductive Opens (p : UwElem) : UwElem → Prop
  | branch (ht : p.tag = some .branchCoverage) (file line : UInt32) :
    Opens p (.withId file line 1 (.of .statement ucisBranch))
  | toggle (ht : p.tag = some .toggleCoverage) (file line : UInt32) :
    Opens p (.withId file line 1 (.of .toggleObject ucisToggle))
  | bit (hp : p.isToggleObject) : Opens p (.of .toggleBit ucisToggle)
  | expr (ht : p.tag = some .conditionCoverage) (file line exprIndex : UInt32) :
    Opens p (.withId file line 1 { UwElem.of .expr ucisExpr with needsExpr := true, exprIndex })
  | cginst (hp : p.type = ucisCovergroup) (owned : Bool) (idFile idLine : UInt32) :
    Opens p { UwElem.of .cgInstance ucisCoverinstance with owned, needsOptions := .cginst, needsCgid := true, idFile, idLine }
  | coverpoint (hp : p.type = ucisCoverinstance) (hs : p.stage = 1) :
    Opens p { UwElem.of .coverpoint ucisCoverpoint with needsOptions := .coverpoint }
  | cross (hp : p.type = ucisCoverinstance) (hs : p.stage = 2) :
    Opens p { UwElem.of .cross ucisCross with needsOptions := .cross }

inductive OpensVirtual (p : UwElem) : UcisScopeType → Prop
  | covergroup (ht : p.tag = some .covergroupCoverage) : OpensVirtual p ucisCovergroup
  | expr (hp : p.type = ucisExpr ∨ p.type = ucisCond) : OpensVirtual p p.type

inductive Emits (p : UwElem) : UwShape → Prop
  | statement (ht : p.tag = some .blockCoverage) (name : Option (List UInt8)) (data : UwCoverData)
      (srcinfo : Option UwSourceInfo) : Emits p (statementShape name data srcinfo)
  | arm (hp : p.type = ucisBranch) (top : UwElem) (name : Option (List UInt8)) (data : UwCoverData)
      (srcinfo : Option UwSourceInfo) : Emits p (armShape top name data srcinfo)
  | toggle (hp : p.type = ucisToggle) (hn : ¬p.isToggleObject) (name : Option (List UInt8)) (data : UwCoverData) :
    Emits p (toggleShape name data)
  | exprBin (hp : p.type = ucisExpr ∨ p.type = ucisCond) (name metric : Option (List UInt8)) (data : UwCoverData) :
    Emits p (binShape .bin name metric data)
  | coverpointBin (hp : p.type = ucisCoverpoint) (index : UInt32) (name : Option (List UInt8)) (data : UwCoverData) :
    Emits p (coverpointBinShape index name data)
  | crossBin (hp : p.type = ucisCross) (name : Option (List UInt8)) (data : UwCoverData) :
    Emits p (crossBinShape name data)

-- How deep an element can be
def UwElem.reach (e : UwElem) : Nat :=
  if e.type = ucisInstance then 2
  else if e.type = ucisBranch ∨ e.isToggleObject ∨ e.type = ucisCovergroup then 4
  else if e.type = ucisToggle ∨ e.type = ucisCoverinstance then 5
  else if e.type = ucisCoverpoint ∨ e.type = ucisCross then 6
  else uwMaxDepth

-- What was put off is written with room to spare, and an expression always has a place.
structure UwElem.Fits (e : UwElem) (depth : Nat) : Prop where
  reach    : depth ≤ e.reach
  root     : depth = 1 → e.tag = some .ucis ∧ e.type = 0 ∧ ¬e.Deferred
  base     : depth = 2 → e.tag = some .instanceCoverages ∧ e.type = ucisInstance
  deferred : e.Deferred → depth ≤ 6
  expr     : e.needsExpr → e.needsId

def UwElem.own (e : UwElem) : UwElem :=
  { e with owned := true }

def UwElem.atStage (stage : Nat) (e : UwElem) : UwElem :=
  { e with stage }

-- What a bin shows that only its call decides
def binShown (tag : UwTag) (attrs : UwAttrs) : List UwAttrs :=
  if tag = .contents then [attrs.filter (·.fst ≠ .typeComponent)] else []

def UwDb.openKind (c : UwDb) (kind : UwKind) : UwDb :=
  { c with curKind := kind, blockMode := 0 }.push (.of kind.tag 0)

def UwDb.openInstance (c : UwDb) (file line : UInt32) : UwDb :=
  { c.push (.withId file line 1 (.of .instanceCoverages ucisInstance)) with
    instCount := c.instCount + 1, instDepth := 2, curKind := .none, blockMode := 0 }

-- The bins are those of what was written so far.
inductive Written : List UwAttrs → UwDb → UwOutline → Prop
  | new {c : UwDb} (hs : c.stack = [.of .ucis 0]) (hp : c.phase = .tables) (hd : c.instDepth = 0)
      (hi : c.instCount = 0) : Written [] c ((⟨[], []⟩ : UwOutline).start .ucis)
  | same {bins : List UwAttrs} {c c' : UwDb} {o : UwOutline} (h : Written bins c o) (hs : c'.stack = c.stack)
      (hp : c'.phase = c.phase) (hd : c'.instDepth = c.instDepth) (hk : c'.curKind = c.curKind)
      (hi : c'.instCount = c.instCount) (he : c'.err = .ok → c.err = .ok) : Written bins c' o
  | refused {bins : List UwAttrs} {c : UwDb} {o : UwOutline} (h : Written bins c o) (he : c.err ≠ .ok)
      (bins' : List UwAttrs) : Written bins' c o
  | settle {bins : List UwAttrs} {c : UwDb} {o : UwOutline} (h : Written bins c o) :
    Written bins c.settle (c.settled o)
  | attrs {bins : List UwAttrs} {c : UwDb} {o : UwOutline} (h : Written bins c o) (hp : c.Pending) (attrs : UwAttrs) :
    Written bins c (o.attrs attrs)
  | own {bins : List UwAttrs} {c : UwDb} {o : UwOutline} (h : Written bins c o) :
    Written bins (c.withStack (c.stack.modifyHead UwElem.own)) o
  | stage {bins : List UwAttrs} {c : UwDb} {o : UwOutline} (h : Written bins c o) (stage : Nat)
      (hs : ∀ e ∈ c.stack.head?, e.stage ≤ stage) :
    Written bins (c.withStack (c.stack.modifyHead (UwElem.atStage stage))) o
  | opened {bins : List UwAttrs} {c : UwDb} {o : UwOutline} (h : Written bins c o) (hs : c.Settled)
      (hl : 1 < c.stack.length) {e : UwElem} {tag : UwTag} (ht : e.tag = some tag) (hp : e.pending = true) (hf : e.Fits (c.stack.length + 1))
      (hn : tag ≠ .contents) (ho : c.err = .ok → ∃ p ∈ c.stack.head?, Opens p e) :
    Written bins (c.push e) (o.start tag)
  | virtual {bins : List UwAttrs} {c : UwDb} {o : UwOutline} (h : Written bins c o) (hs : c.Settled)
      (hl : 1 < c.stack.length) {type : UcisScopeType} (hf : UwElem.Fits { tag := none, type } (c.stack.length + 1))
      (ho : c.err = .ok → ∃ p ∈ c.stack.head?, OpensVirtual p type) : Written bins (c.push { tag := none, type }) o
  | kind {bins : List UwAttrs} {c : UwDb} {o : UwOutline} (h : Written bins c o) (hs : c.Settled) (kind : UwKind)
      (hk : kind ≠ .none) (hd : c.instDepth ≠ 0) (hl : c.stack.length ≤ 2)
      (ho : c.err = .ok → ∃ p ∈ c.stack.head?, p.type = ucisInstance ∧ p.stage = kind.place) :
    Written bins (c.openKind kind) (o.start kind.tag)
  | inst {bins : List UwAttrs} {c : UwDb} {o : UwOutline} (h : Written bins c o) (hs : c.Settled)
      (hl : c.stack.length = 1) (hp : c.phase ≠ .tables) (file line : UInt32) :
    Written bins (c.openInstance file line) (o.start .instanceCoverages)
  | tables {bins : List UwAttrs} {c : UwDb} {o : UwOutline} (h : Written bins c o) (hp : c.phase = .tables)
      {shapes : List UwShape} (hs : AreTables shapes) : Written bins c.body.settle (o.add shapes)
  | index {bins : List UwAttrs} {c : UwDb} {o : UwOutline} (h : Written bins c o)
      (he : ∃ e ∈ c.stack.head?, e.pending ∧ ¬e.Deferred ∧ e.tag = some .toggleBit) :
    Written bins c.settle (o.add [leaf .index []])
  | emit {bins : List UwAttrs} {c : UwDb} {o : UwOutline} (h : Written bins c o) (hs : c.Settled) {shape : UwShape}
      (he : c.err = .ok → ∃ p ∈ c.stack.head?, Emits p shape) :
    Written (bins ++ shape.collect binShown) c (o.add [shape])
  | leave {bins : List UwAttrs} {c : UwDb} {o : UwOutline} (h : Written bins c o) (hs : c.Settled)
      (hl : 1 < c.stack.length) : Written bins c.leave (c.left o)

-- What holds whatever was refused

def Placed : List UwElem → Prop
  | []            => True
  | e :: elements => e.Fits (elements.length + 1) ∧ Placed elements

structure Sane (c : UwDb) : Prop where
  placed   : Placed c.stack
  nonempty : c.stack ≠ []
  inner    : ∀ e ∈ c.stack.tail, e.pending = false
  depth    : c.instDepth = 0 ∨ c.instDepth = 2 ∧ 2 ≤ c.stack.length
  tables   : c.phase = .tables → c.stack.length = 1 ∧ c.instDepth = 0

-- An element that fits still does when it is changed in what does not matter.
theorem UwElem.Fits.change {e e' : UwElem} {depth : Nat} (h : e.Fits depth) (ht : e'.type = e.type)
    (htag : e'.tag = e.tag) (hd : e'.Deferred → e.Deferred) (he : e'.needsExpr → e'.needsId) : e'.Fits depth where
  reach      := by
    have hr : e'.reach = e.reach := by
      rw [UwElem.reach, UwElem.reach, UwElem.isToggleObject, UwElem.isToggleObject, ht, htag]
    exact hr ▸ h.reach
  root hr    := ⟨htag ▸ (h.root hr).left, ht ▸ (h.root hr).right.left, fun hd' => (h.root hr).right.right (hd hd')⟩
  base hb    := htag ▸ ht ▸ h.base hb
  deferred h' := h.deferred (hd h')
  expr       := he

theorem Placed.modifyHead {f : UwElem → UwElem}
    (hf : ∀ e depth, e.Fits depth → (f e).Fits depth) (h : Placed stack) : Placed (stack.modifyHead f) := by
  cases stack
  case nil       => exact h
  case cons e es => exact ⟨hf _ _ h.left, h.right⟩

theorem Sane.modifyHead {f : UwElem → UwElem} (hf : ∀ e depth, e.Fits depth → (f e).Fits depth) (h : Sane c) :
    Sane (c.withStack (c.stack.modifyHead f)) where
  placed   := h.placed.modifyHead hf
  nonempty := by simpa using h.nonempty
  inner    := by
    have hi := h.inner
    cases hs : c.stack
    case nil       => simp
    case cons e es => simpa [hs] using hi
  depth    := by
    rw [withStack_stack, List.length_modifyHead]
    exact h.depth
  tables   := by
    rw [withStack_stack, List.length_modifyHead]
    exact h.tables

theorem Sane.all_settled (h : Sane c) (hs : c.Settled) : ∀ e ∈ c.stack, e.pending = false := by
  have hi := h.inner
  cases hstack : c.stack
  case nil       => exact absurd hstack h.nonempty
  case cons e es =>
    rw [hstack] at hi
    exact List.forall_mem_cons.mpr ⟨hs e (by rw [hstack]; rfl), hi⟩

theorem Sane.push {e : UwElem} (h : Sane c) (hs : c.Settled) (hl : 1 < c.stack.length)
    (hf : e.Fits (c.stack.length + 1)) : Sane (c.push e) where
  placed    := ⟨hf, h.placed⟩
  nonempty  := push_ne_nil c e
  inner     := h.all_settled hs
  depth     := h.depth.imp_right fun hd => ⟨hd.left, Nat.le_succ_of_le hl⟩
  tables hp := absurd (h.tables hp).left (Nat.ne_of_gt hl)

-- What has the same stack and the same places in it
theorem Sane.same {c c' : UwDb} (h : Sane c) (hs : c'.stack = c.stack) (hp : c'.phase = c.phase)
    (hd : c'.instDepth = c.instDepth) : Sane c' where
  placed   := hs ▸ h.placed
  nonempty := hs ▸ h.nonempty
  inner    := hs ▸ h.inner
  depth    := hd ▸ hs ▸ h.depth
  tables   := hp ▸ hd ▸ hs ▸ h.tables

section

variable (c : UwDb)

theorem forget_fields (type : UcisScopeType) :
    (c.forget type).phase = c.phase ∧ (c.forget type).err = c.err ∧ (c.forget type).instCount = c.instCount ∧
    (c.forget type).instDepth = (if type = ucisInstance then 0 else c.instDepth) ∧
    (c.forget type).curKind = if type = ucisInstance then .none else c.curKind := by
  rw [UwDb.forget]
  split <;> split <;> exact ⟨rfl, rfl, rfl, rfl, rfl⟩

theorem leave_fields :
    c.leave.phase = c.phase ∧ c.leave.err = c.err ∧ c.leave.instCount = c.instCount ∧
    ((∀ e ∈ c.stack.head?, ¬(e.tag.isSome ∧ e.type = ucisInstance)) ∧
        c.leave.instDepth = c.instDepth ∧ c.leave.curKind = c.curKind ∨
      (∃ e ∈ c.stack.head?, e.type = ucisInstance) ∧ c.leave.instDepth = 0 ∧ c.leave.curKind = .none) := by
  cases hs : c.stack
  case nil       => simp [UwDb.leave, hs]
  case cons e es =>
    simp only [UwDb.leave, hs]
    cases ht : e.tag
    case none     => simp [ht]
    case some tag =>
      obtain ⟨hp, he, hi, hd, hk⟩ := forget_fields (c.withStack es) e.type
      refine ⟨hp, he, hi, ?_⟩
      by_cases htype : e.type = ucisInstance
      case pos => exact .inr ⟨⟨e, rfl, htype⟩, hd.trans (if_pos htype), hk.trans (if_pos htype)⟩
      case neg => exact .inl ⟨by simp [htype], hd.trans (if_neg htype), hk.trans (if_neg htype)⟩

end

theorem Sane.leave (h : Sane c) (hs : c.Settled) (hl : 1 < c.stack.length) : Sane c.leave := by
  obtain ⟨hphase, _, _, hd⟩ := leave_fields c
  have hdepth := h.depth
  obtain ⟨e, es, hstack⟩ := List.exists_cons_of_ne_nil h.nonempty
  have hes : c.leave.stack = es := by rw [leave_stack, hstack, List.tail_cons]
  have hall := h.all_settled hs
  have hp := h.placed
  rw [hstack] at hl hall hp hdepth hd
  rw [List.length_cons] at hl hdepth
  refine ⟨?_, ?_, ?_, ?_, ?_⟩
  case refine_1 => exact hes ▸ hp.right
  case refine_2 =>
    rw [hes]
    rintro rfl
    simp at hl
  case refine_3 =>
    rw [hes]
    exact fun e' he' => hall e' (.tail _ (List.mem_of_mem_tail he'))
  case refine_4 =>
    rcases hd with hd | hd
    case inl =>
      rw [hd.right.left, hes]
      refine hdepth.imp_right fun hi => ⟨hi.left, ?_⟩
      have hne : es.length + 1 ≠ 2 := fun htwo => by
        obtain ⟨ht, htype⟩ := hp.left.base htwo
        exact hd.left e rfl ⟨by simp [ht], htype⟩
      omega
    case inr => exact .inl hd.right.left
  case refine_5 =>
    intro ht
    have hone := (h.tables (hphase ▸ ht)).left
    rw [hstack] at hone
    exact absurd hone (Nat.ne_of_gt hl)

theorem fits_settle {e : UwElem} {depth : Nat} (h : e.Fits depth) : e.settle.Fits depth := by
  refine h.change (settle_type e) (settle_tag e) (fun hd => ?_) fun he => ?_
  case refine_1 =>
    by_contra hn
    exact settle_undeferred e hn hd
  case refine_2 =>
    rw [UwElem.settle] at he ⊢
    split at he
    case isTrue     => cases he
    case isFalse hp => simpa [hp] using h.expr he

theorem reach_of {e : UwElem} (ht : e.type = 0) : e.reach = uwMaxDepth := by
  rw [UwElem.reach, UwElem.isToggleObject, ht]
  rfl

theorem fits_kind (kind : UwKind) : (UwElem.of kind.tag 0).Fits 3 where
  reach      := by
    rw [reach_of rfl]
    decide
  root hr    := by cases hr
  base hb    := by cases hb
  deferred h := absurd h (of_undeferred _ _)
  expr h     := by cases h

theorem fits_root : (UwElem.of .ucis 0).Fits 1 where
  reach      := by
    rw [reach_of rfl]
    decide
  root _     := ⟨rfl, rfl, of_undeferred _ _⟩
  base hb    := by cases hb
  deferred h := absurd h (of_undeferred _ _)
  expr h     := by cases h

theorem fits_instance (file line : UInt32) :
    (UwElem.withId file line 1 (.of .instanceCoverages ucisInstance)).Fits 2 where
  reach      := Nat.le_of_eq rfl
  root hr    := by cases hr
  base _     := ⟨rfl, rfl⟩
  deferred _ := by decide
  expr h     := by cases h

theorem Written.sane {bins : List UwAttrs} {o : UwOutline} (h : Written bins c o) : Sane c := by
  induction h
  case new c hs hp hd hi =>
    refine ⟨?_, by simp [hs], by simp [hs], .inl hd, fun _ => ⟨by simp [hs], hd⟩⟩
    rw [hs]
    exact ⟨fits_root, trivial⟩
  case same hs hp hd _ _ _ hi           => exact hi.same hs hp hd
  case refused hi                       => exact hi
  case settle hi                        => exact hi.modifyHead fun _ _ => fits_settle
  case attrs hi                         => exact hi
  case own hi                           => exact hi.modifyHead fun _ _ h => h.change rfl rfl id h.expr
  case stage hi                         => exact hi.modifyHead fun _ _ h => h.change rfl rfl id h.expr
  case opened hs hl _ _ _ _ hf _ _ hi   => exact hi.push hs hl hf
  case virtual hs hl _ hf _ hi          => exact hi.push hs hl hf
  case kind c _ _ hs kind _ hd hl _ hi  =>
    have hdepth : c.instDepth = 2 ∧ 2 ≤ c.stack.length := hi.depth.resolve_left hd
    have hf : (UwElem.of kind.tag 0).Fits (c.stack.length + 1) := by
      rw [Nat.le_antisymm hl hdepth.right]
      exact fits_kind kind
    exact ⟨⟨hf, hi.placed⟩, push_ne_nil _ _, hi.all_settled hs, .inr ⟨hdepth.left, Nat.le_succ_of_le hdepth.right⟩,
      fun hp => absurd (hi.tables hp).right hd⟩
  case inst c _ _ hs hl hp file line hi =>
    have hf : (UwElem.withId file line 1 (.of .instanceCoverages ucisInstance)).Fits (c.stack.length + 1) := by
      rw [hl]
      exact fits_instance file line
    exact ⟨⟨hf, hi.placed⟩, push_ne_nil _ _, hi.all_settled hs, .inr ⟨rfl, Nat.succ_le_succ (Nat.le_of_eq hl.symm)⟩,
      fun h => absurd h hp⟩
  case tables c _ _ hp _ _ hi           =>
    have hs := hi.modifyHead (f := UwElem.settle) fun _ _ => fits_settle
    exact ⟨hs.placed, hs.nonempty, hs.inner, hs.depth, fun h => by cases h⟩
  case index hi                         => exact hi.modifyHead fun _ _ => fits_settle
  case emit hi                          => exact hi
  case leave c _ _ hs hl hi             =>
    exact hi.leave hs hl

theorem Placed.room (h : Placed c.stack) : c.Room := by
  intro e he _ hd
  obtain ⟨es, hs⟩ := List.head?_eq_some_iff.mp he
  rw [hs] at h ⊢
  have hl : es.length + 1 ≤ 6 := h.left.deferred (.inr hd)
  have hm : uwMaxDepth = 64 := rfl
  rw [List.length_cons]
  omega

theorem Sane.room (h : Sane c) : c.Room :=
  h.placed.room

-- An instance is the second element.
theorem Sane.instance_deep (h : Sane c) {p : UwElem} (hp : p ∈ c.stack.head?) (ht : p.type = ucisInstance) :
    c.stack.length = 2 := by
  obtain ⟨es, hs⟩ := List.head?_eq_some_iff.mp hp
  have hf := h.placed
  rw [hs] at hf ⊢
  have hr := hf.left.reach
  have hone := hf.left.root
  rw [UwElem.reach, if_pos ht] at hr
  rw [ht] at hone
  have hz : ¬(ucisInstance : UcisScopeType) = 0 := by decide
  have hne : es.length + 1 ≠ 1 := fun h => hz (hone h).right.left
  rw [List.length_cons]
  omega

-- Only a kind of coverage is opened in an instance.
theorem opens_deep {p e : UwElem} (h : Sane c) (hp : p ∈ c.stack.head?) (ho : Opens p e) :
    c.stack.length ≠ 2 := by
  intro hl
  obtain ⟨es, hs⟩ := List.head?_eq_some_iff.mp hp
  have hf := h.placed
  rw [hs] at hl hf
  have hi := hf.left.base hl
  rcases ho
  case branch ht _ _    => exact absurd (ht.symm.trans hi.left) (by decide)
  case toggle ht _ _    => exact absurd (ht.symm.trans hi.left) (by decide)
  case bit hb           => simp [UwElem.isToggleObject, hi] at hb
  case expr ht _ _ _    => exact absurd (ht.symm.trans hi.left) (by decide)
  case cginst ht _ _ _  => exact absurd (ht.symm.trans hi.right) (by decide)
  case coverpoint ht _  => exact absurd (ht.symm.trans hi.right) (by decide)
  case cross ht _       => exact absurd (ht.symm.trans hi.right) (by decide)

theorem opensVirtual_deep {p : UwElem} {type : UcisScopeType} (h : Sane c) (hp : p ∈ c.stack.head?)
    (ho : OpensVirtual p type) : c.stack.length ≠ 2 := by
  intro hl
  obtain ⟨es, hs⟩ := List.head?_eq_some_iff.mp hp
  have hf := h.placed
  rw [hs] at hl hf
  have hi := hf.left.base hl
  rcases ho
  case covergroup ht => exact absurd (ht.symm.trans hi.left) (by decide)
  case expr ht       => rcases ht with ht | ht <;> exact absurd (ht.symm.trans hi.right) (by decide)

-- As long as nothing was refused, the third element is the current kind of coverage.

def Spine (kind : UwKind) : List UwElem → Prop
  | []            => True
  | e :: elements =>
    (elements.length = 2 → e.tag = some kind.tag ∧ e.type = 0 ∧ e.owned = true) ∧ Spine kind elements

theorem Spine.modifyHead {kind : UwKind} {f : UwElem → UwElem} (ht : ∀ e, (f e).tag = e.tag)
    (hp : ∀ e, (f e).type = e.type) (ho : ∀ e, e.owned = true → (f e).owned = true) (h : Spine kind stack) :
    Spine kind (stack.modifyHead f) := by
  cases stack
  case nil       => exact h
  case cons e es =>
    rw [List.modifyHead_cons]
    unfold Spine at h ⊢
    rw [ht, hp]
    exact ⟨fun hl => ⟨(h.left hl).left, (h.left hl).right.left, ho e (h.left hl).right.right⟩, h.right⟩

-- Below the kinds they make no difference.
theorem Spine.other {kind : UwKind} (h : Spine kind stack) (hl : stack.length ≤ 2)
    (kind' : UwKind) : Spine kind' stack := by
  induction stack
  case nil          => exact h
  case cons e es hi =>
    rw [List.length_cons] at hl
    exact ⟨fun he => by omega, hi h.right (by omega)⟩

theorem Spine.tail {kind : UwKind} (h : Spine kind stack) : Spine kind stack.tail := by
  cases stack
  case nil       => exact h
  case cons e es => exact h.right

theorem settle_owned (e : UwElem) : e.settle.owned = e.owned := by
  rw [UwElem.settle]
  split <;> rfl

theorem Written.spine {bins : List UwAttrs} {o : UwOutline} (h : Written bins c o) (hok : c.err = .ok) :
    Spine c.curKind c.stack := by
  have hsettle {c : UwDb} (hs : Spine c.curKind c.stack) : Spine c.curKind (c.stack.modifyHead UwElem.settle) :=
    hs.modifyHead settle_tag settle_type fun e ho => (settle_owned e).trans ho
  induction h
  case new c hs _ _ _ =>
    rw [hs]
    exact ⟨fun (hl : 0 = 2) => absurd hl (by decide), trivial⟩
  case same hs _ _ hk _ he hi => exact hk ▸ hs ▸ hi (he hok)
  case refused he _ _         => exact absurd hok he
  case settle hi              => exact hsettle (hi hok)
  case attrs hi               => exact hi hok
  case own hi                 => exact (hi hok).modifyHead (fun _ => rfl) (fun _ => rfl) fun _ _ => rfl
  case stage hi               => exact (hi hok).modifyHead (fun _ => rfl) (fun _ => rfl) fun _ ho => ho
  case opened hw _ _ _ _ _ _ _ _ ho hi =>
    obtain ⟨p, hp, ho⟩ := ho hok
    exact ⟨fun hl => absurd hl (opens_deep hw.sane hp ho), hi hok⟩
  case virtual hw _ _ _ _ ho hi         =>
    obtain ⟨p, hp, ho⟩ := ho hok
    exact ⟨fun hl => absurd hl (opensVirtual_deep hw.sane hp ho), hi hok⟩
  case kind hl _ hi                     => exact ⟨fun _ => ⟨rfl, rfl, rfl⟩, (hi hok).other hl _⟩
  case inst c _ _ _ hl _ _ _ hi         =>
    exact ⟨fun (he : c.stack.length = 2) => by omega, (hi hok).other (by omega) _⟩
  case tables hi => exact hsettle (hi hok)
  case index hi  => exact hsettle (hi hok)
  case emit hi   => exact hi hok
  case leave c _ hw _ _ hi              =>
    obtain ⟨_, herr, _, hd⟩ := leave_fields c
    have hspine := hi (herr ▸ hok)
    rw [leave_stack]
    rcases hd with ⟨_, _, hk⟩ | ⟨⟨e, he, ht⟩, _, _⟩
    case inl =>
      rw [hk]
      exact hspine.tail
    case inr =>
      have hl := hw.sane.instance_deep he ht
      exact hspine.tail.other (by rw [List.length_tail]; omega) _
