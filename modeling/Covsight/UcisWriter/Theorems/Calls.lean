import Covsight.UcisWriter.Theorems.Written

-- What every call leaves behind.

open Xml Markup

variable {accepts : Accepts UInt8}

variable {o : UwOutline} {c : UwDb} {type : UcisScopeType}

-- Between the calls the kind that is current is also open.
structure Rests (bins : List UwAttrs) (c : UwDb) (o : UwOutline) : Prop where
  written : Written bins c o
  whole   : c.err = .ok → c.instDepth ≠ 0 → c.curKind ≠ .none → 3 ≤ c.stack.length

-- Something was refused.
def Broken (c : UwDb) (o : UwOutline) : Prop :=
  c.err ≠ .ok ∧ ∃ bins, Written bins c o

theorem Broken.rests (h : Broken c o) (bins : List UwAttrs) : Rests bins c o := by
  obtain ⟨he, _, hw⟩ := h
  exact ⟨hw.refused he bins, fun hok => absurd hok he⟩

-- What is so where nothing was refused
def Yields (P : UwDb → UwOutline → Prop) (rc : UcisWriterStatus) (c : UwDb) (o : UwOutline) : Prop :=
  (rc = .ok → P c o) ∧ (rc ≠ .ok → Broken c o)

@[simp]
theorem yields_ok {P : UwDb → UwOutline → Prop} : Yields P .ok c o ↔ P c o :=
  ⟨fun h => h.left rfl, fun h => ⟨fun _ => h, fun hne => absurd rfl hne⟩⟩

theorem Written.failed {bins : List UwAttrs} (h : Written bins c o)
    {status : UcisWriterStatus} (hs : status ≠ .ok) : Broken (c.failed status) o := by
  have hne : (c.failed status).err ≠ .ok := by
    rw [UwDb.failed]
    split
    case isTrue    => exact hs
    case isFalse h => exact h
  exact ⟨hne, bins, h.same rfl rfl rfl rfl rfl fun h => absurd h hne⟩

-- What stays the same where elements are closed down to a depth
structure Kept (depth : Nat) (c c' : UwDb) : Prop where
  phase : c'.phase = c.phase
  err   : c'.err = c.err
  inst  : 2 ≤ depth → c'.instDepth = c.instDepth
  kind  : 2 ≤ depth → c'.curKind = c.curKind

theorem Kept.refl (depth : Nat) (c : UwDb) : Kept depth c c :=
  ⟨rfl, rfl, fun _ => rfl, fun _ => rfl⟩

theorem Kept.trans {depth : Nat} {c c' c'' : UwDb} (h : Kept depth c c') (h' : Kept depth c' c'') : Kept depth c c'' :=
  ⟨h'.phase.trans h.phase, h'.err.trans h.err, fun hd => (h'.inst hd).trans (h.inst hd),
    fun hd => (h'.kind hd).trans (h.kind hd)⟩

theorem kept_leave (h : Sane c) {depth : Nat} (hl : depth < c.stack.length) : Kept depth c c.leave := by
  obtain ⟨hp, he, _, hd⟩ := leave_fields c
  rcases hd with ⟨_, hd, hk⟩ | ⟨⟨e, hmem, ht⟩, _, _⟩
  case inl => exact ⟨hp, he, fun _ => hd, fun _ => hk⟩
  case inr =>
    have htwo := h.instance_deep hmem ht
    exact ⟨hp, he, fun h => by omega, fun h => by omega⟩

@[simp]
theorem settle_stage (e : UwElem) : e.settle.stage = e.stage := by
  rw [UwElem.settle]
  split <;> rfl

theorem yields_failed {P : UwDb → UwOutline → Prop} {b : List UwAttrs} (h : Written b c o)
    {status : UcisWriterStatus} (hs : status ≠ .ok) : Yields P status (c.failed status) o :=
  ⟨fun hok => absurd hok hs, fun _ => h.failed hs⟩

namespace Spec

variable {P P' : UwDb → UwOutline → Prop} {bins : List UwAttrs}
variable {Q : UcisWriterStatus → UwDb → UwOutline → Prop}

theorem tryYields {m rest : Uw UcisWriterStatus} {I R : UwDb → UwOutline → Prop} (hm : Spec accepts P m (Yields I))
    (hr : Spec accepts I rest (Yields R)) : Spec accepts P (uwTry m rest) (Yields R) :=
  try' hm (pre hr fun _ _ h => h.left rfl) fun _ _ _ hrc h => ⟨fun hok => absurd hok hrc, fun _ => h.right hrc⟩

theorem failYields (bins : List UwAttrs) {status : UcisWriterStatus} (hs : status ≠ .ok ∧ status ≠ .errIo ∧ status ≠ .errAlloc) {what : String}
    {detail : Option (List UInt8)} : Spec accepts (Written bins) (uwFail status what detail) (Yields P) :=
  pre (fail hs.right) fun _ _ h => yields_failed h hs.left

-- An element that is closed
theorem closeElem (bins : List UwAttrs) :
    Spec accepts
      (fun c o => Written bins c o ∧ 1 < c.stack.length ∧
        ∀ o', Written bins c.leave o' → Q .ok c.leave o') uwElEnd Q := by
  refine pre elEnd fun c o h => ⟨fun hn => absurd hn h.left.sane.nonempty, fun e he => ?_⟩
  obtain ⟨es, hs⟩ := List.head?_eq_some_iff.mp he
  have hp := h.left.sane.placed
  rw [hs] at hp
  refine ⟨hp.left.expr, h.left.sane.room, ?_⟩
  rw [settle_leave]
  refine h.right.right _ ?_
  rw [← settle_leave]
  exact h.left.settle.leave (settle_settled c) (by rw [settle_length]; exact h.right.left)

-- What an unwinding leaves
theorem unwindFrom {depth : Nat} (hd : 1 ≤ depth) (fuel : Nat) :
    Spec accepts
      (fun c o => Written bins c o ∧ c.stack.length ≤ fuel + depth ∧
        ∀ c' o', Written bins c' o' → Kept depth c c' → c'.stack.length = min c.stack.length depth → Q .ok c' o')
      (uwUnwindFrom fuel depth) Q := by
  induction fuel
  case zero         =>
    exact pre status fun c o h => h.right.right c o h.left (.refl _ _) (by omega)
  case succ fuel hi =>
    refine pre (read fun db => ite ((closeElem bins).tryBufOk hi) status) fun c o h db hdb => ?_
    have hl : db.stack.length = c.stack.length := by rw [← hdb, core_length]
    rw [hl]
    obtain ⟨hw, hf, hq⟩ := h
    refine ⟨fun hgt => ⟨hw, by omega, fun o' hw' => fine_ok.mpr ⟨hw', ?_, fun c' o'' hw'' hk hn => ?_⟩⟩,
      fun hgt => hq c o hw (.refl _ _) (by omega)⟩
    case refine_1 =>
      rw [leave_stack, List.length_tail]
      omega
    case refine_2 =>
      refine hq c' o'' hw'' ((kept_leave hw.sane hgt).trans hk) ?_
      rw [hn, leave_stack, List.length_tail]
      omega

theorem elUnwind (bins : List UwAttrs) {depth : Nat} (hd : 1 ≤ depth) :
    Spec accepts
      (fun c o => Written bins c o ∧
        ∀ c' o', Written bins c' o' → Kept depth c c' → c'.stack.length = min c.stack.length depth → Q .ok c' o')
      (uwElUnwind depth) Q := by
  refine pre (read fun db => unwindFrom hd db.stack.length) fun c o h db hdb => ⟨h.left, ?_, h.right⟩
  rw [← hdb, core_length]
  omega

-- What the condition says can be used in its branches.
theorem iteOf {α : Type} {b : Prop} [Decidable b] {m m' : Uw α} {Q : α → UwDb → UwOutline → Prop}
    (hm : b → Spec accepts P m Q) (hm' : ¬b → Spec accepts P' m' Q) :
    Spec accepts (fun c o => (b → P c o) ∧ (¬b → P' c o)) (if b then m else m') Q :=
  Hoare.Triple.ite (fun hb => pre (hm hb) fun _ _ h => h.left hb) fun hb => pre (hm' hb) fun _ _ h => h.right hb

-- A change that the writer can see
theorem modified {f : UwDb → UwDb} (hf : ∀ db, (f db).buf = db.buf ∧ (f db).core = f db.core ∧ (f db).stack = db.stack)
    {Q : PUnit → UwDb → UwOutline → Prop} : Spec accepts (fun c o => Q ⟨⟩ (f c) o) (modify f) Q :=
  change (fun db => (hf db).left) (fun db => (hf db).right.left) fun db => (hf db).right.right

theorem stage (bins : List UwAttrs) {n : Nat} {what : UwTag} :
    Spec accepts
      (fun c o => Written bins c o ∧
        (Written bins (c.withStack (c.stack.modifyHead (.atStage n))) o →
          (∀ e ∈ c.stack.head?, e.stage ≤ n) →
          P (c.withStack (c.stack.modifyHead (.atStage n))) o))
      (uwStage n what) (Yields P) := by
  have hset : Spec accepts _ _ fun _ => Yields P .ok := setTop (f := fun top => { top with stage := n })
    (g := UwElem.atStage n) (fun _ => rfl) (fun _ => rfl) (fun _ => rfl)
  refine pre (onTop (failYields bins (by decide)) fun el => ite (failYields bins (by decide)) (hset.seq (done (Q := Yields P) _)))
    fun c o h => ⟨fun _ => h.left, fun el hel => ⟨fun _ => h.left, fun hs => yields_ok.mpr ?_⟩⟩
  have hle : ∀ e ∈ c.stack.head?, e.stage ≤ n := by
    rw [hel]
    rintro e ⟨⟩
    exact Nat.not_lt.mp hs
  exact h.right (h.left.stage n hle) hle

-- Where a kind of coverage is open
structure AtKind (kind : UwKind) (bins : List UwAttrs) (c : UwDb) (o : UwOutline) : Prop where
  written : Written bins c o
  inst    : 2 ≤ c.stack.length ∧ c.stack.length ≤ 3
  top     : c.err = .ok → c.stack.length = 3 ∧ ∃ p ∈ c.stack.head?, p.tag = some kind.tag

theorem kindEnter {kind : UwKind} (hk : kind ≠ .none) :
    Spec accepts (fun c o => Written bins c o ∧ c.instDepth ≠ 0 ∧ c.stack.length = 2)
      (uwTry (uwStage kind.place kind.tag) do
        modify fun db => { db with curKind := kind, blockMode := 0 }
        uwElBegin kind.tag 0)
      (Yields (AtKind kind bins)) := by
  refine pre (tryYields (stage bins) ((modified (by exact fun _ => ⟨rfl, rfl, rfl⟩)).seq elBegin)) fun c o h =>
    ⟨h.left, fun hw _ => ?_⟩
  obtain ⟨hw', hd, hl⟩ := h
  obtain ⟨e, es, hs⟩ := List.exists_cons_of_ne_nil hw'.sane.nonempty
  have hf := hw'.sane.placed
  rw [hs] at hf
  have hl' : (c.withStack (c.stack.modifyHead (.atStage kind.place))).settle.stack.length = 2 := by
    rw [settle_length, withStack_stack, List.length_modifyHead, hl]
  have hkind : Written bins _ _ := hw.settle.kind (settle_settled _) kind hk hd (Nat.le_of_eq hl') fun _ =>
    ⟨(e.atStage kind.place).settle, by rw [UwDb.settle, hs]; rfl, (settle_type _).trans (hf.left.base (by rw [← hl, hs]; rfl)).right, settle_stage _⟩
  refine ⟨fun _ => ⟨hw.sane.room, yields_ok.mpr ⟨hkind, ?_, fun _ => ⟨?_, _, rfl, rfl⟩⟩⟩, fun hm => ?_⟩
  case refine_1 => exact ⟨Nat.le_succ_of_le (Nat.le_of_eq hl'.symm), Nat.succ_le_succ (Nat.le_of_eq hl')⟩
  case refine_2 => exact congrArg Nat.succ hl'
  case refine_3 =>
    have hlen : c.stack.length = (c.withStack (c.stack.modifyHead (.atStage kind.place))).stack.length :=
      (List.length_modifyHead).symm
    have hm : uwMaxDepth ≤ c.stack.length := hlen ▸ hm
    rw [hl] at hm
    exact absurd hm (by decide)

theorem kindOpen {kind : UwKind} (hk : kind ≠ .none) :
    Spec accepts (Rests bins) (uwKindOpen kind) (Yields (AtKind kind bins)) := by
  refine pre (read fun db => iteOf (fun _ => failYields bins (by decide)) fun hi => ite (elUnwind bins (Nat.le_add_left 1 _))
    (tryOk (elUnwind bins (Nat.pos_of_ne_zero hi)) (kindEnter hk))) fun c o h db hdb => ?_
  have hd : db.instDepth = c.instDepth := (congrArg UwDb.instDepth hdb :)
  have hc : db.curKind = c.curKind := (congrArg UwDb.curKind hdb :)
  rw [hd, hc]
  refine ⟨fun _ => h.written, fun hi => ?_⟩
  obtain ⟨htwo, hlen⟩ := h.written.sane.depth.resolve_left hi
  rw [htwo]
  refine ⟨fun hcur => ⟨h.written, fun c' o' hw' hkept hn => yields_ok.mpr ⟨hw', by omega, fun hok => ?_⟩⟩,
    fun _ => ⟨h.written, fun c' o' hw' hkept hn => fine_ok.mpr ⟨hw', ?_, by omega⟩⟩⟩
  case refine_2 => rw [hkept.inst (by decide)]; exact hi
  case refine_1 =>
    -- The wrapper is the third element, and everything above it was closed.
    have hthree : c'.stack.length = 3 := by
      have hwhole := h.whole (hkept.err ▸ hok) hi (hcur ▸ hk)
      omega
    have hspine := hw'.spine hok
    obtain ⟨e, es, hs⟩ := List.exists_cons_of_ne_nil hw'.sane.nonempty
    rw [hs] at hspine hthree
    obtain ⟨htag, _, _⟩ := hspine.left (Nat.succ_inj.mp hthree)
    rw [hkept.kind (by decide), hcur] at htag
    exact ⟨hs ▸ hthree, e, by rw [hs]; rfl, htag⟩

end Spec

-- What is opened and written goes by what an element is, not by what it still has to get.

theorem opens_settle {p e : UwElem} (h : Opens p e) : Opens p.settle e := by
  have hb : p.isToggleObject → p.settle.isToggleObject := by simp [UwElem.isToggleObject]
  rcases h
  case branch ht file line             => exact .branch ((settle_tag p).trans ht) file line
  case toggle ht file line             => exact .toggle ((settle_tag p).trans ht) file line
  case bit hp                          => exact .bit (hb hp)
  case expr ht file line index         => exact .expr ((settle_tag p).trans ht) file line index
  case cginst hp owned file line       => exact .cginst ((settle_type p).trans hp) owned file line
  case coverpoint hp hs                => exact .coverpoint ((settle_type p).trans hp) ((settle_stage p).trans hs)
  case cross hp hs                     => exact .cross ((settle_type p).trans hp) ((settle_stage p).trans hs)

theorem opensVirtual_settle {p : UwElem} (h : OpensVirtual p type) : OpensVirtual p.settle type := by
  rcases h
  case covergroup ht => exact .covergroup ((settle_tag p).trans ht)
  case expr hp       => exact settle_type p ▸ .expr (settle_type p ▸ hp)

theorem emits_settle {p : UwElem} {shape : UwShape} (h : Emits p shape) : Emits p.settle shape := by
  have hb : p.settle.isToggleObject = p.isToggleObject := by simp [UwElem.isToggleObject]
  rcases h
  case statement ht name data src         => exact .statement ((settle_tag p).trans ht) name data src
  case arm hp top name data src           => exact .arm ((settle_type p).trans hp) top name data src
  case toggle hp hn name data             => exact .toggle ((settle_type p).trans hp) (hb ▸ hn) name data
  case exprBin hp name metric data        => exact .exprBin (settle_type p ▸ hp) name metric data
  case coverpointBin hp index name data   => exact .coverpointBin ((settle_type p).trans hp) index name data
  case crossBin hp name data              => exact .crossBin ((settle_type p).trans hp) name data

section

variable {bins : List UwAttrs} {c : UwDb} {o : UwOutline}

theorem settle_head {p : UwElem} (hp : p ∈ c.stack.head?) : p.settle ∈ c.settle.stack.head? := by
  obtain ⟨es, hs⟩ := List.head?_eq_some_iff.mp hp
  rw [UwDb.settle, hs]
  rfl

theorem Written.enter (h : Written bins c o) (hl : 1 < c.stack.length) {e : UwElem} {tag : UwTag} (ht : e.tag = some tag)
    (hp : e.pending = true) (hf : e.Fits (c.stack.length + 1)) (hn : tag ≠ .contents)
    (ho : c.err = .ok → ∃ p ∈ c.stack.head?, Opens p e) (attrs : UwAttrs) :
    Written bins (c.settle.push e) (((c.settled o).start tag).attrs attrs) := by
  refine (h.settle.opened (settle_settled c) (by rwa [settle_length]) ht hp (by rwa [settle_length]) hn fun hok => ?_).attrs
    ⟨e, _, rfl, hp⟩ attrs
  obtain ⟨p, hmem, hopens⟩ := ho hok
  exact ⟨p.settle, settle_head hmem, opens_settle hopens⟩

theorem Written.emitted (h : Written bins c o) (shape : UwShape) (he : c.err = .ok → ∃ p ∈ c.stack.head?, Emits p shape) :
    Written (bins ++ shape.collect binShown) c.settle ((c.settled o).add [shape]) := by
  refine h.settle.emit (settle_settled c) fun hok => ?_
  obtain ⟨p, hmem, hemits⟩ := he hok
  exact ⟨p.settle, settle_head hmem, emits_settle hemits⟩

-- What is neither the document nor an instance lies deeper.
theorem Sane.deep (h : Sane c) {p : UwElem} (hp : p ∈ c.stack.head?) (hz : p.type ≠ 0) (hi : p.type ≠ ucisInstance) :
    3 ≤ c.stack.length := by
  obtain ⟨es, hs⟩ := List.head?_eq_some_iff.mp hp
  have hf := h.placed
  rw [hs] at hf ⊢
  have hone : es.length + 1 ≠ 1 := fun he => hz (hf.left.root he).right.left
  have htwo : es.length + 1 ≠ 2 := fun he => hi (hf.left.base he).right
  rw [List.length_cons]
  omega

end

theorem Sane.shallow (h : Sane c) {p : UwElem} (hp : p ∈ c.stack.head?) : c.stack.length ≤ p.reach := by
  obtain ⟨es, hs⟩ := List.head?_eq_some_iff.mp hp
  have hf := h.placed
  rw [hs] at hf ⊢
  exact hf.left.reach

-- The scopes that are not nested in scopes of their own type
def flatTypes : List UcisScopeType :=
  [ucisBranch, ucisToggle, ucisCovergroup, ucisCoverinstance, ucisCoverpoint, ucisCross]

theorem flat_deep : ∀ type ∈ flatTypes, type ≠ 0 ∧ type ≠ ucisInstance := by
  have h : flatTypes.all fun type => type ≠ 0 && type ≠ ucisInstance := by decide
  simpa using h

theorem reach_flat {e : UwElem} (h : e.type ∈ flatTypes) : e.reach ≤ 6 := by
  simp only [flatTypes, List.mem_cons, List.not_mem_nil, or_false] at h
  rw [UwElem.reach]
  split_ifs with _ hfour hfive hsix
  case pos => decide
  case pos => decide
  case pos => decide
  case pos => decide
  case neg =>
    simp only [not_or] at hfour hfive hsix
    simp [hfour, hfive, hsix] at h

theorem Sane.flat (h : Sane c) {p : UwElem} (hp : p ∈ c.stack.head?) (ht : p.type ∈ flatTypes) :
    3 ≤ c.stack.length ∧ c.stack.length ≤ 6 := by
  obtain ⟨hz, hi⟩ := flat_deep p.type ht
  exact ⟨h.deep hp hz hi, (h.shallow hp).trans (reach_flat ht)⟩

-- What a bin is told by
def binOf (name : Option (List UInt8)) (count : Nat) : UwAttrs :=
  textAttrs .nameComponent name ++ [(.coverageCount, uwDigits count)]

theorem collect_contents (name metric : Option (List UInt8)) (count : Nat) :
    (contentsShape name metric count).collect binShown = [binOf name count] := by
  cases name <;> cases metric <;> rfl

theorem collect_elem {tag : UwTag} (ht : tag ≠ .contents) (attrs : UwAttrs) (shapes : List UwShape) :
    (Shape.elem tag attrs shapes).collect binShown = collectAll binShown shapes := by
  rw [Shape.collect, binShown, if_neg ht, List.nil_append]

theorem collect_place (file line : UInt32) : (idShape file line).collect binShown = [] :=
  collect_elem (by decide) _ _

theorem collect_bin {tag : UwTag} (ht : tag ≠ .contents) (name metric : Option (List UInt8)) (data : UwCoverData) :
    (binShape tag name metric data).collect binShown = [binOf name (coverCount data)] := by
  simp [binShape, collect_elem ht, collectAll, collect_contents]

theorem collect_statement (name : Option (List UInt8)) (data : UwCoverData) (src : Option UwSourceInfo) :
    (statementShape name data src).collect binShown = [binOf none (coverCount data)] := by
  simp [statementShape, collect_elem, collectAll, collect_place, collect_bin]

theorem collect_arm (top : UwElem) (name : Option (List UInt8)) (data : UwCoverData) (src : Option UwSourceInfo) :
    (armShape top name data src).collect binShown = [binOf name (coverCount data)] := by
  simp [armShape, collect_elem, collectAll, collect_place, collect_bin]

theorem collect_toggle (name : Option (List UInt8)) (data : UwCoverData) :
    (toggleShape name data).collect binShown = [binOf name (coverCount data)] := by
  simp [toggleShape, collect_elem, collectAll, collect_bin]

theorem collect_coverpointBin (index : UInt32) (name : Option (List UInt8)) (data : UwCoverData) :
    (coverpointBinShape index name data).collect binShown = [binOf name (coverCount data)] := by
  simp [coverpointBinShape, collect_elem, collectAll, collect_contents]

theorem collect_indices (n : Nat) (shapes : List UwShape) :
    collectAll binShown (List.replicate n (leaf .index []) ++ shapes) = collectAll binShown shapes := by
  induction n
  case zero      => rfl
  case succ n hi =>
    have hn : (leaf .index []).collect binShown = [] := rfl
    rw [List.replicate_succ, List.cons_append, collectAll, hn, hi, List.nil_append]

theorem collect_crossBin (name : Option (List UInt8)) (data : UwCoverData) :
    (crossBinShape name data).collect binShown = [binOf name (coverCount data)] := by
  rw [crossBinShape, collect_elem (by decide), collect_indices]
  simp [collectAll, collect_contents]

namespace Spec

variable {P : UwDb → UwOutline → Prop} {bins : List UwAttrs}
variable {srcinfo : Option UwSourceInfo} {name : Option (List UInt8)}

-- What is added is shown, and what was written before it stays.
theorem emitHere (bins : List UwAttrs) {m : Uw UcisWriterStatus} {levels : Nat} {shape : UwShape} (hm : Adds accepts m levels [shape])
    {attrs : UwAttrs} (hs : shape.collect binShown = [attrs]) :
    Spec accepts
      (fun c o => Written bins c o ∧ c.stack.length + levels ≤ uwMaxDepth ∧
        (c.err = .ok → 3 ≤ c.stack.length ∧ ∃ p ∈ c.stack.head?, Emits p shape))
      m (Yields (Rests (bins ++ [attrs]))) := by
  refine pre (hm _) fun c o h => ⟨h.left.sane.room, h.right.left, yields_ok.mpr ⟨?_, fun hok _ _ => ?_⟩⟩
  case refine_1 => exact hs ▸ h.left.emitted _ fun hok => (h.right.right hok).right
  case refine_2 =>
    rw [settle_length]
    exact (h.right.right hok).left

theorem emitStatement {data : UwCoverData} :
    Spec accepts (Rests bins) (uwEmitStatement name data srcinfo)
      (Yields (Rests (bins ++ [binOf none (coverCount data)]))) := by
  refine tryYields (kindOpen (by decide)) (pre (read fun db => ite (failYields bins (by decide))
    ((modified (by exact fun _ => ⟨rfl, rfl, rfl⟩)).seq (emitHere bins addStatement (collect_statement _ _ _)))) fun c o h db _ => ?_)
  refine ⟨fun _ => h.written, fun _ => ⟨h.written.same rfl rfl rfl rfl rfl id, ?_, fun hok => ?_⟩⟩
  case refine_1 => exact (Nat.add_le_add_right h.inst.right 3).trans (by decide)
  case refine_2 =>
    obtain ⟨hl, p, hp, ht⟩ := h.top hok
    exact ⟨Nat.le_of_eq hl.symm, p, hp, .statement ht _ _ _⟩

-- What is opened at a kind of coverage can still get attributes.
theorem openedHere {kind : UwKind} {c c' : UwDb} {o : UwOutline} (h : AtKind kind bins c o) {e : UwElem} {tag : UwTag}
    (ht : e.tag = some tag) (hp : e.pending = true) (hr : e.reach ≥ 4) (he : e.needsExpr → e.needsId) (hn : tag ≠ .contents)
    (ho : ∀ p : UwElem, p.tag = some kind.tag → Opens p e) (attrs : UwAttrs) (hs : c'.stack = (c.settle.push e).stack)
    (hphase : c'.phase = c.phase) (hd : c'.instDepth = c.instDepth) (hk : c'.curKind = c.curKind)
    (hi : c'.instCount = c.instCount) (herr : c'.err = c.err) :
    Rests bins c' (((c.settled o).start tag).attrs attrs) ∧ c'.Pending := by
  have hl : c.stack.length + 1 = 3 ∨ c.stack.length + 1 = 4 := by
    have hinst := h.inst
    omega
  have hf : e.Fits (c.stack.length + 1) :=
    { reach    := hl.elim (fun hl => hl ▸ Nat.le_trans (by decide) hr) fun hl => hl ▸ hr
      root     := fun hone => by omega
      base     := fun htwo => by omega
      deferred := fun _ => by omega
      expr     := he }
  have hw := h.written.enter h.inst.left ht hp hf hn (fun hok => ?_) attrs
  case refine_1 =>
    obtain ⟨_, p, hmem, htag⟩ := h.top hok
    exact ⟨p, hmem, ho p htag⟩
  refine ⟨⟨hw.same hs hphase hd hk hi fun hok => herr ▸ hok, fun hok _ _ => ?_⟩, e, _, hs, hp⟩
  have hthree := (h.top (herr ▸ hok)).left
  rw [hs, push_length, settle_length, hthree]
  decide

theorem openExpr :
    Spec accepts (Rests bins) (uwOpenExpr.openExpr name srcinfo) (Yields (Rests bins)) := by
  refine tryYields (kindOpen (by decide)) (pre (tryOk elEnter <| textAttr.discard.seq <| textAttr.discard.seq <|
    bind copyBounded fun exprTerms => (modified (by exact fun _ => ⟨rfl, rfl, rfl⟩)).seq <| read fun db =>
    (setTop (f := fun el => { el with needsExpr := true, exprIndex := db.exprCount })
      (g := fun el => { el with needsExpr := true, exprIndex := db.exprCount }) (fun _ => rfl) (fun _ => rfl)
      (fun _ => rfl)).seq <| elSetId.seq status) fun c o h => ?_)
  refine ⟨Nat.lt_of_le_of_lt h.inst.right (by decide), h.written.sane.room, fine_ok.mpr ?_⟩
  refine ⟨fun _ => push_pending _ _ _, fun _ => push_pending _ _ _, fun db hdb => yields_ok.mpr ?_⟩
  rw [Outline.attrs_attrs]
  exact And.left <| openedHere h (e := .withId (uwFileid srcinfo) (uwLine srcinfo) 1
      { UwElem.of .expr ucisExpr with needsExpr := true, exprIndex := db.exprCount })
    rfl rfl (Nat.le_of_ble_eq_true rfl) (fun _ => rfl) (by decide) (fun p ht => .expr ht _ _ _) _ rfl rfl rfl rfl rfl rfl

theorem openBranchStatement :
    Spec accepts (Rests bins) (uwOpenBranchStatement name srcinfo) (Yields fun c o => Rests bins c o ∧ c.Pending) := by
  refine tryYields (kindOpen (by decide)) (pre (tryOk elEnter <| textAttr.discard.seq <| emitObjAttrs.discard.seq <|
    elSetId.seq status) fun c o h => ?_)
  refine ⟨Nat.lt_of_le_of_lt h.inst.right (by decide), h.written.sane.room, fine_ok.mpr ?_⟩
  refine ⟨fun _ => push_pending _ _ _, push_pending _ _ _, yields_ok.mpr ?_⟩
  rw [Outline.attrs_attrs]
  exact openedHere h (e := .withId (uwFileid srcinfo) (uwLine srcinfo) 1 (.of .statement ucisBranch))
    rfl rfl (Nat.le_of_ble_eq_true rfl) (fun h => by cases h) (by decide) (fun p ht => .branch ht _ _) _ rfl rfl rfl rfl rfl rfl

theorem openToggleObject {name canonicalName : Option (List UInt8)} {type dir : Int} :
    Spec accepts (Rests bins)
      (uwTry (uwKindOpen .toggle) <|
        uwTry (uwElBegin .toggleObject ucisToggle) do
        Functor.discard <| uwTextAttr .name name
        Functor.discard <| uwTextAttr .key (canonicalName <|> name)
        Functor.discard <| uwTextAttr .type (uwToggleTypeName type)
        Functor.discard <| uwTextAttr .portDirection (uwToggleDirName dir)
        uwElSetId 0 0 1 false
        uwStatus) (Yields (Rests bins)) := by
  refine tryYields (kindOpen (by decide)) (pre (tryOk elEnter <| textAttr.discard.seq <| textAttr.discard.seq <|
    textAttr.discard.seq <| textAttr.discard.seq <| elSetId.seq status) fun c o h => ?_)
  have hp := push_pending c.settle .toggleObject ucisToggle
  refine ⟨Nat.lt_of_le_of_lt h.inst.right (by decide), h.written.sane.room, fine_ok.mpr ?_⟩
  refine ⟨fun _ => hp, fun _ => hp, fun _ => hp, fun _ => hp, yields_ok.mpr ?_⟩
  rw [Outline.attrs_attrs, Outline.attrs_attrs, Outline.attrs_attrs]
  exact (openedHere h (e := .withId 0 0 1 (.of .toggleObject ucisToggle)) rfl rfl (Nat.le_of_ble_eq_true rfl)
    (fun h => by cases h) (by decide) (fun p ht => .toggle ht _ _) _ rfl rfl rfl rfl rfl rfl).left

-- A virtual element that is opened
theorem elBeginVirtual {type : UcisScopeType} {Q : UcisWriterStatus → UwDb → UwOutline → Prop} :
    Spec accepts
      (fun c o =>
        (c.stack.length < uwMaxDepth → c.Room ∧ Q .ok (c.settle.push { tag := none, type }) (c.settled o)) ∧
        (uwMaxDepth ≤ c.stack.length → Q .errDepth (c.failed .errDepth) o))
      (uwElBeginVirtual type) Q := by
  have hwrites : Writes accepts _ _ _ := Writes.change (g := fun db => { db with stack := { tag := none, type : UwElem } :: db.stack })
    (f := fun c => c.push { tag := none, type }) (fun _ => rfl) (fun _ => rfl) .nothing
  have hpush := writes (P := fun c o => c.Settled ∧ Q .ok (c.push { tag := none, type }) o) (Q := Q) hwrites
    fun c d hd hp => ⟨d, (List.append_nil _).symm, hd.virtual hp.left rfl rfl, hp.right⟩
  refine pre (read fun db => ite (fail (by decide)) (tryOk elCommit hpush)) fun c o h db hdb => ?_
  subst hdb
  rw [core_length] at h
  refine ⟨h.right, fun hl => ?_⟩
  obtain ⟨hr, hq⟩ := h.left (Nat.lt_of_not_ge hl)
  exact ⟨hr, fine_ok.mpr ⟨settle_settled _, hq⟩⟩

end Spec

@[simp]
theorem core_type (e : UwElem) : e.core.type = e.type := rfl

theorem Written.enterVirtual {bins : List UwAttrs} (h : Written bins c o)
    (hl : 1 < c.stack.length) (hf : UwElem.Fits { tag := none, type } (c.stack.length + 1))
    (ho : c.err = .ok → ∃ p ∈ c.stack.head?, OpensVirtual p type) :
    Written bins (c.settle.push { tag := none, type }) (c.settled o) := by
  refine h.settle.virtual (settle_settled c) (by rwa [settle_length]) (by rwa [settle_length]) fun hok => ?_
  obtain ⟨p, hmem, hopens⟩ := ho hok
  exact ⟨p.settle, settle_head hmem, opensVirtual_settle hopens⟩

theorem fits_virtual {depth : Nat} (hr : depth ≤ UwElem.reach { tag := none, type })
    (hl : 2 < depth) : UwElem.Fits { tag := none, type } depth where
  reach      := hr
  root hone  := by omega
  base htwo  := by omega
  deferred h := by simp [UwElem.Deferred] at h
  expr h     := by cases h

namespace Spec

variable {P : UwDb → UwOutline → Prop} {bins : List UwAttrs}
variable {name : Option (List UInt8)} {srcinfo : Option UwSourceInfo} {data : UwCoverData} {type : UcisScopeType}
variable {p : UwElem}

theorem openScope :
    Spec accepts (Rests bins) (uwOpenExpr name srcinfo) (Yields (Rests bins)) := by
  refine pre (onTop openExpr fun el => ite (bind copyBounded fun metric => (modified (by exact fun _ => ⟨rfl, rfl, rfl⟩)).seq
    elBeginVirtual) openExpr) fun c o h => ?_
  refine ⟨fun _ => h, fun el hel => ⟨fun ht => ⟨fun hl => ?_, fun hm => ?_⟩, fun _ => h⟩⟩
  case refine_2 =>
    refine yields_failed (b := bins) ?_ (by decide)
    exact h.written.same rfl rfl rfl rfl rfl id
  case refine_1 =>
    have hreach : UwElem.reach { tag := none, type := el.type } = uwMaxDepth := by
      rcases ht with ht | ht <;> rw [ht] <;> rfl
    have hthree := h.written.sane.deep hel (by rcases ht with ht | ht <;> rw [core_type, ht] <;> decide)
      (by rcases ht with ht | ht <;> rw [core_type, ht] <;> decide)
    have hf : UwElem.Fits { tag := none, type := el.type } (c.stack.length + 1) :=
      fits_virtual (hreach ▸ hl) (Nat.succ_lt_succ (Nat.lt_of_succ_lt hthree))
    have hw := h.written.enterVirtual (Nat.lt_of_succ_lt hthree) hf fun _ => ⟨el.core, hel, .expr ht⟩
    have hc : (c.settle.push { tag := none, type := el.type }).stack.length = c.stack.length + 1 := by
      rw [push_length, settle_length]
    refine ⟨h.written.sane.room, yields_ok.mpr ⟨?_, fun _ _ _ => ?_⟩⟩
    case refine_1 => exact hw.same rfl rfl rfl rfl rfl id
    case refine_2 => exact Nat.le_succ_of_le hthree |>.trans (Nat.le_of_eq hc.symm)

-- An element that is opened where there may be no room for it
theorem tryBegin {tag : UwTag} {rest : Uw UcisWriterStatus}
    {R : UcisWriterStatus → UwDb → UwOutline → Prop} (hr : Spec accepts P rest R) :
    Spec accepts
      (fun c o =>
        (c.stack.length < uwMaxDepth → c.Room ∧ P (c.settle.push (.of tag type)) ((c.settled o).start tag)) ∧
        (uwMaxDepth ≤ c.stack.length → R .errDepth (c.failed .errDepth) o))
      (uwTry (uwElBegin tag type) rest) R := by
  refine pre (try' (Q := fun rc c o => (rc = .ok → P c o) ∧ (rc ≠ .ok → R rc c o)) elBegin (pre hr fun _ _ h => h.left rfl)
    fun _ _ _ hrc h => h.right hrc) fun c o h => ⟨fun hl => ⟨(h.left hl).left, ?_⟩, fun hm => ?_⟩
  case refine_1 => exact ⟨fun _ => (h.left hl).right, fun hne => absurd rfl hne⟩
  case refine_2 => exact ⟨fun hok => absurd hok (by decide), fun _ => h.right hm⟩

-- What a bin of an expression adds, if there is room for it
theorem addExprBin {Q : UcisWriterStatus → UwDb → UwOutline → Prop} :
    Spec accepts
      (fun c o => c.Room ∧
        (c.stack.length + 2 ≤ uwMaxDepth → ∀ metric,
          Q .ok c.settle ((c.settled o).add [binShape .bin name metric data])) ∧
        (c.stack.length + 1 = uwMaxDepth →
          Q .errDepth ((c.settle.push (.of .bin 0)).failed .errDepth) (((c.settled o).start .bin).attrs (goalAttrs data))) ∧
        (uwMaxDepth ≤ c.stack.length → Q .errDepth (c.failed .errDepth) o))
      (uwTry (uwElBegin .bin 0) do
        uwGoalAttr data
        uwTry (uwElBegin .contents 0) do
        Functor.discard <| uwTextAttr .nameComponent name
        let metric := (← get).metric
        if metric ≠ [] then
          Functor.discard <| uwTextAttr .typeComponent metric
        uwCountAttr data
        uwTry uwElEnd uwElEnd) Q := by
  refine pre (tryBegin <| goalAttr.seq <| tryBegin <| textAttr.discard.seq <| read fun db =>
    when textAttr.discard <| countAttr.seq <| tryOk elLeave elLeave) fun c o h => ?_
  obtain ⟨hr, hfits, hhalf, hfull⟩ := h
  refine ⟨fun hl => ⟨hr, push_pending _ _ _, fun hl' => ?_, fun hl' => ?_⟩, hfull⟩
  case refine_2 =>
    rw [push_length, settle_length] at hl'
    exact hhalf (by omega)
  case refine_1 =>
    rw [push_length, settle_length] at hl'
    refine ⟨push_room _ _ (of_undeferred _ _), fun _ => push_pending _ _ _, fun db hdb => ⟨fun hmetric => ?_, fun hmetric => ?_⟩⟩
    case refine_1 => simpa [binShape, contentsShape, leaf] using hfits (by omega) (some db.metric)
    case refine_2 => simpa [binShape, contentsShape, leaf] using hfits (by omega) none

theorem fits_plain {tag : UwTag} {depth : Nat} (hl : 2 < depth) (hm : depth ≤ uwMaxDepth) : (UwElem.of tag 0).Fits depth where
  reach      := hm.trans (Nat.le_of_eq (reach_of (e := .of tag 0) rfl).symm)
  root hone  := by omega
  base htwo  := by omega
  deferred h := absurd h (of_undeferred _ _)
  expr h     := by cases h

theorem emitExprBin :
    Spec accepts (Rests bins) (uwEmitExprBin name data) (Yields (Rests (bins ++ [binOf name (coverCount data)]))) := by
  refine pre (top.bind fun el => ite (failYields bins (by decide)) addExprBin) fun c o h el hel =>
    ⟨fun _ => h.written, fun ht => ?_⟩
  obtain ⟨p, rfl, hp⟩ : ∃ p, el = some p ∧ (p.type = ucisExpr ∨ p.type = ucisCond) := by
    cases el
    case none   => simp at ht
    case some p => exact ⟨p, rfl, by simpa [or_iff_not_imp_left] using ht⟩
  have hmem : p.core ∈ c.stack.head? := hel.symm
  have hthree := h.written.sane.deep hmem (by rcases hp with hp | hp <;> rw [core_type, hp] <;> decide)
    (by rcases hp with hp | hp <;> rw [core_type, hp] <;> decide)
  refine ⟨h.written.sane.room, fun _ metric => yields_ok.mpr ⟨?_, fun _ _ _ => ?_⟩, fun hl => ?_,
    fun _ => yields_failed h.written (by decide)⟩
  case refine_1 =>
    have hw := h.written.emitted (binShape .bin name metric data) fun _ => ⟨p.core, hmem, Emits.exprBin (p := p.core) hp name metric data⟩
    rwa [collect_bin (by decide)] at hw
  case refine_2 => rwa [settle_length]
  case refine_3 =>
    -- The bin stays open.
    refine ⟨(fun hok => by cases hok), fun _ => ⟨(h.written.failed (by decide)).left, bins, ?_⟩⟩
    obtain ⟨hne, _, hw⟩ := h.written.failed (show UcisWriterStatus.errDepth ≠ .ok by decide)
    exact (hw.refused hne bins).enter (Nat.lt_of_succ_lt hthree) rfl rfl (fits_plain (Nat.succ_lt_succ (Nat.lt_of_succ_lt hthree)) (Nat.le_of_eq hl))
      (by decide) (fun hok => absurd hok hne) _

-- What is done at an innermost element of some type
theorem atTop {α : Type} {f : Option UwElem → Uw α} {R : α → UwDb → UwOutline → Prop}
    (h : ∀ el, Spec accepts (fun c o => Rests bins c o ∧ el.map UwElem.core = c.stack.head?) (f el) R) :
    Spec accepts (Rests bins) (uwElTop >>= f) R :=
  pre (top.bind h) fun _ _ h _ hel => ⟨h, hel⟩

-- A bin that goes where it is
theorem emitAt {m : Uw UcisWriterStatus} {levels : Nat} {shape : UwShape} (hm : Adds accepts m levels [shape]) (hl : levels ≤ 3)
    {attrs : UwAttrs} (hs : shape.collect binShown = [attrs]) (ht : p.type ∈ flatTypes) (he : Emits p.core shape) :
    Spec accepts (fun c o => Rests bins c o ∧ (some p).map UwElem.core = c.stack.head?) m
      (Yields (Rests (bins ++ [attrs]))) := by
  refine pre (emitHere bins hm hs) fun c o h => ?_
  have hmem : p.core ∈ c.stack.head? := h.right.symm
  obtain ⟨hthree, hsix⟩ := h.left.written.sane.flat hmem ht
  exact ⟨h.left.written, (Nat.add_le_add hsix hl).trans (by decide), fun _ => ⟨hthree, p.core, hmem, he⟩⟩

theorem emitBranch :
    Spec accepts (Rests bins) (uwEmitBranch name data srcinfo) (Yields (Rests (bins ++ [binOf name (coverCount data)]))) := by
  refine atTop fun el => ?_
  cases hf : el.filter (·.type = ucisBranch)
  case none   => exact pre (failYields bins (by decide)) fun c o h => h.left.written
  case some p =>
    obtain ⟨rfl, ht⟩ := Option.filter_eq_some_iff.mp hf
    have ht : p.type = ucisBranch := of_decide_eq_true ht
    exact emitAt addArm (by decide) (collect_arm _ _ _ _) (by rw [ht]; decide) (Emits.arm (p := p.core) ht _ _ _ _)

theorem emitCvgBin :
    Spec accepts (Rests bins) (uwEmitCvgBin name data) (Yields (Rests (bins ++ [binOf name (coverCount data)]))) := by
  refine atTop fun el => ?_
  cases el
  case none   => exact pre (failYields bins (by decide)) fun c o h => h.left.written
  case some p =>
    refine pre (iteOf (fun ht => ?_) fun _ => iteOf (fun ht => ?_) fun _ => failYields bins (by decide)) fun c o h =>
      ⟨fun _ => h, fun _ => ⟨fun _ => h, fun _ => h.left.written⟩⟩
    case refine_1 =>
      refine pre emitCoverpointBin fun c o h => ?_
      have hmem : p.core ∈ c.stack.head? := h.right.symm
      have hw := h.left.written
      obtain ⟨hthree, hsix⟩ := hw.sane.flat hmem (by rw [core_type, ht]; decide)
      refine ⟨hw.sane.room, (Nat.add_le_add_right hsix 3).trans (by decide), fun index _ => yields_ok.mpr ⟨?_, fun _ _ _ => ?_⟩⟩
      case refine_1 =>
        have he := hw.emitted _ fun _ => ⟨p.core, hmem, Emits.coverpointBin (p := p.core) ht index name data⟩
        rw [collect_coverpointBin] at he
        exact he.same rfl rfl rfl rfl rfl id
      case refine_2 => rwa [withBins_stack, settle_length]
    case refine_2 =>
      exact emitAt emitCrossBin (by decide) (collect_crossBin _ _) (by rw [ht]; decide) (Emits.crossBin (p := p.core) ht _ _)

-- A bit of a toggle object is open.
def AtBit (bins : List UwAttrs) (c : UwDb) (o : UwOutline) : Prop :=
  Rests bins c o ∧ ∃ e ∈ c.stack.head?, e.type = ucisToggle ∧ ¬e.isToggleObject

theorem enterBit {c : UwDb} {o : UwOutline} (h : Rests bins c o) (hmem : p ∈ c.stack.head?)
    (hp : p.isToggleObject) (attrs : UwAttrs) :
    c.stack.length + 2 ≤ uwMaxDepth ∧ 3 ≤ c.stack.length ∧
      Written bins (c.settle.push (.of .toggleBit ucisToggle)) (((c.settled o).start .toggleBit).attrs attrs) := by
  have ht : p.type = ucisToggle ∧ p.tag = some .toggleObject := of_decide_eq_true hp
  obtain ⟨hthree, hsix⟩ := h.written.sane.flat hmem (by rw [ht.left]; decide)
  have hreach : p.reach = 4 := by
    rw [UwElem.reach, hp, ht.left]
    rfl
  have hfour : c.stack.length ≤ 4 := hreach ▸ h.written.sane.shallow hmem
  have hf : (UwElem.of .toggleBit ucisToggle).Fits (c.stack.length + 1) :=
    { reach    := Nat.succ_le_succ hfour
      root     := fun hone => by omega
      base     := fun htwo => by omega
      deferred := fun hd => absurd hd (of_undeferred _ _)
      expr     := fun he => by cases he }
  exact ⟨(Nat.add_le_add_right hsix 2).trans (by decide), hthree,
    h.written.enter (Nat.lt_of_succ_lt hthree) rfl rfl hf (by decide) (fun _ => ⟨p, hmem, .bit hp⟩) attrs⟩

theorem openToggleBit (hp : p.isToggleObject) :
    Spec accepts (fun c o => Rests bins c o ∧ (some p).map UwElem.core = c.stack.head?) (uwOpenToggleBit name)
      (Yields (AtBit bins)) := by
  have hatBit {c : UwDb} {o : UwOutline} (hw : Written bins c o) (hl : 3 ≤ c.stack.length)
      (he : ∃ e ∈ c.stack.head?, e.type = ucisToggle ∧ ¬e.isToggleObject) : AtBit bins c o :=
    ⟨⟨hw, fun _ _ _ => hl⟩, he⟩
  have hnot : ¬(UwElem.of .toggleBit ucisToggle).isToggleObject ∧ ¬(UwElem.of .toggleBit ucisToggle).settle.isToggleObject := by
    decide
  rw [uwOpenToggleBit]
  cases uwAllDigits name
  case none =>
    refine pre (tryOk elEnter <| textAttr.discard.seq <| textAttr.discard.seq status) fun c o h => ?_
    obtain ⟨hroom, hthree, hw⟩ := enterBit h.left (p := p.core) h.right.symm hp (textAttrs .name name ++ textAttrs .key name)
    have hpend := push_pending c.settle .toggleBit ucisToggle
    refine ⟨by omega, h.left.written.sane.room, fine_ok.mpr ⟨fun _ => hpend, fun _ => hpend, yields_ok.mpr ?_⟩⟩
    rw [Outline.attrs_attrs]
    refine hatBit hw ?_ ⟨_, rfl, rfl, hnot.left⟩
    rw [push_length, settle_length]
    exact Nat.le_succ_of_le hthree
  case some index =>
    refine pre (tryOk elEnter <| textAttr.discard.seq <| textAttr.discard.seq (addIndex _)) fun c o h => ?_
    obtain ⟨hroom, hthree, hw⟩ := enterBit h.left (p := p.core) h.right.symm hp (textAttrs .name name ++ textAttrs .key name)
    have hpend := push_pending c.settle .toggleBit ucisToggle
    refine ⟨by omega, h.left.written.sane.room, fine_ok.mpr ⟨fun _ => hpend, fun _ => hpend, push_room _ _ (of_undeferred _ _), ?_,
      yields_ok.mpr ?_⟩⟩
    case refine_1 =>
      rw [push_length, settle_length]
      exact hroom
    case refine_2 =>
      rw [Outline.attrs_attrs, push_settled_undeferred _ _ _ (of_undeferred _ _)]
      refine hatBit (hw.index ⟨_, rfl, rfl, of_undeferred _ _, rfl⟩) ?_ ⟨_, rfl, rfl, hnot.right⟩
      rw [settle_length, push_length, settle_length]
      exact Nat.le_succ_of_le hthree

theorem yieldsImp {m : Uw UcisWriterStatus} {P' : UwDb → UwOutline → Prop} (h : Spec accepts P m (Yields P'))
    {R : UwDb → UwOutline → Prop} (hr : ∀ c o, P' c o → R c o) : Spec accepts P m (Yields R) :=
  post h fun _ c o hy => ⟨fun hok => hr c o (hy.left hok), hy.right⟩

theorem openToggle {name canonicalName : Option (List UInt8)} {type dir : Int} :
    Spec accepts (Rests bins) (uwOpenToggle name canonicalName type dir) (Yields (Rests bins)) := by
  refine atTop fun el => ?_
  cases el
  case none   => exact pre (iteOf (fun hb => absurd hb (by decide)) fun _ => openToggleObject) fun c o h => ⟨fun hb => h, fun _ => h.left⟩
  case some p =>
    refine pre (iteOf (fun hb => yieldsImp (openToggleBit hb) fun c o h => h.left) fun _ => openToggleObject) fun c o h =>
      ⟨fun _ => h, fun _ => h.left⟩

theorem emitToggleBin :
    Spec accepts (Rests bins) (uwEmitToggleBin name data) (Yields (Rests (bins ++ [binOf name (coverCount data)]))) := by
  have hown {Q : PUnit → UwDb → UwOutline → Prop} : Spec accepts _ _ Q :=
    setTop (f := fun top => { top with owned := true }) (g := UwElem.own) (fun _ => rfl) (fun _ => rfl) (fun _ => rfl)
  refine atTop fun el => ?_
  cases hf : el.filter (·.type = ucisToggle)
  case none   => exact pre (failYields bins (by decide)) fun c o h => h.left.written
  case some p =>
    obtain ⟨rfl, ht⟩ := Option.filter_eq_some_iff.mp hf
    have ht : p.type = ucisToggle := of_decide_eq_true ht
    refine pre (iteOf (fun hb => tryYields (openToggleBit hb) (pre (hown.seq (emitHere bins addToggle (collect_toggle _ _))) ?_))
      fun hb => emitAt addToggle (by decide) (collect_toggle _ _) (by rw [ht]; decide) (Emits.toggle (p := p.core) ht hb _ _))
      fun c o h => ⟨fun _ => h, fun _ => h⟩
    rintro c o ⟨hrests, e, hmem, htype, hnot⟩
    obtain ⟨hthree, hsix⟩ := hrests.written.sane.flat hmem (by rw [htype]; decide)
    obtain ⟨es, hs⟩ := List.head?_eq_some_iff.mp hmem
    have hl : (c.withStack (c.stack.modifyHead UwElem.own)).stack.length = c.stack.length := by
      rw [withStack_stack, List.length_modifyHead]
    have hroom : c.stack.length + 3 ≤ uwMaxDepth := (Nat.add_le_add_right hsix 3).trans (by decide)
    refine ⟨hrests.written.own, by omega, fun _ => ⟨by omega, e.own, ?_, Emits.toggle (p := e.own) htype hnot _ _⟩⟩
    rw [hs]
    rfl

-- Covergroups

theorem openCovergroup :
    Spec accepts (Rests bins) (uwOpenCovergroup name srcinfo) (Yields (Rests bins)) := by
  refine tryYields (kindOpen (by decide)) (pre (bind copyBounded fun cgName =>
    (modified (by exact fun _ => ⟨rfl, rfl, rfl⟩)).seq elBeginVirtual) fun c o h => ⟨fun _ => ?_, fun hm => ?_⟩)
  case refine_2 => exact absurd (Nat.le_trans hm h.inst.right) (by decide)
  case refine_1 =>
    have hf : UwElem.Fits { tag := none, type := ucisCovergroup } (c.stack.length + 1) :=
      fits_virtual (Nat.succ_le_succ h.inst.right) (Nat.succ_lt_succ h.inst.left)
    refine ⟨h.written.sane.room, yields_ok.mpr ⟨?_, fun hok _ _ => ?_⟩⟩
    case refine_1 =>
      refine Written.enterVirtual ?_ ?_ ?_ fun hok => ?_
      case refine_1 => exact h.written.same rfl rfl rfl rfl rfl id
      case refine_2 => exact h.inst.left
      case refine_3 => exact hf
      case refine_4 =>
        obtain ⟨_, p, hmem, htag⟩ := h.top hok
        exact ⟨p, hmem, .covergroup htag⟩
    case refine_2 =>
      have hl : (c.settle.push { tag := none, type := ucisCovergroup }).stack.length = c.stack.length + 1 := by
        rw [push_length, settle_length]
      exact (Nat.succ_le_succ h.inst.left).trans (Nat.le_of_eq hl.symm)

-- A scope of a type is the innermost one.
def AtType (type : UcisScopeType) (bins : List UwAttrs) (c : UwDb) (o : UwOutline) : Prop :=
  Rests bins c o ∧ ∃ p ∈ c.stack.head?, p.type = type

-- What is opened in a scope that is flat
theorem enterFlat (type' : UcisScopeType) {c c' : UwDb} {o : UwOutline} (h : AtType type bins c o) {e : UwElem} {tag : UwTag}
    (ht : type ∈ flatTypes ∧ type' ∈ flatTypes) (htype' : e.type = type') (hte : e.tag = some tag) (hp : e.pending = true)
    (hr : ∀ p : UwElem, p.type = type → p.reach < e.reach) (he : e.needsExpr = false) (hn : tag ≠ .contents)
    (ho : ∃ p ∈ c.stack.head?, Opens p e) (attrs : UwAttrs) (hs : c'.stack = (c.settle.push e).stack)
    (hsame : c'.phase = c.phase ∧ c'.instDepth = c.instDepth ∧ c'.curKind = c.curKind ∧ c'.instCount = c.instCount ∧
      c'.err = c.err) : AtType type' bins c' (((c.settled o).start tag).attrs attrs) := by
  obtain ⟨hrests, p, hmem, htype⟩ := h
  obtain ⟨hphase, hd, hk, hi, herr⟩ := hsame
  have hw := hrests.written
  obtain ⟨hthree, _⟩ := hw.sane.flat hmem (htype ▸ ht.left)
  have hreach : c.stack.length + 1 ≤ e.reach := Nat.lt_of_le_of_lt (hw.sane.shallow hmem) (hr p htype)
  have hf : e.Fits (c.stack.length + 1) :=
    { reach    := hreach
      root     := fun hone => by omega
      base     := fun htwo => by omega
      deferred := fun _ => hreach.trans (reach_flat (htype' ▸ ht.right))
      expr     := fun hx => by rw [he] at hx; cases hx }
  have hw' := hw.enter (Nat.lt_of_succ_lt hthree) hte hp hf hn (fun _ => ho) attrs
  refine ⟨⟨hw'.same hs hphase hd hk hi fun hok => herr ▸ hok, fun _ _ _ => ?_⟩, e, by rw [hs]; rfl, htype'⟩
  rw [hs, push_length, settle_length]
  exact Nat.le_succ_of_le hthree

theorem reach_covergroup (h : p.type = ucisCovergroup) : p.reach = 4 := by
  rw [UwElem.reach, UwElem.isToggleObject, h]
  rfl

theorem reach_coverinstance (h : p.type = ucisCoverinstance) : p.reach = 5 := by
  rw [UwElem.reach, UwElem.isToggleObject, h]
  rfl

theorem openCgi {owned : Bool} :
    Spec accepts (AtType ucisCovergroup bins) (uwOpenCgi name srcinfo owned) (Yields (AtType ucisCoverinstance bins)) := by
  have hset (idFile idLine : UInt32) {Q : PUnit → UwDb → UwOutline → Prop} : Spec accepts _ _ Q := setTop
    (f := fun el => { el with owned, needsOptions := .cginst, needsCgid := true, idFile, idLine })
    (g := fun el => { el with owned, needsOptions := .cginst, needsCgid := true, idFile, idLine })
    (fun _ => rfl) (fun _ => rfl) (fun _ => rfl)
  refine pre (tryOk elEnter <| nameAttrs.seq <| read (W := fun _ c o => ∀ idFile idLine, Yields (AtType ucisCoverinstance bins) .ok
    { c.withStack (c.stack.modifyHead fun el => { el with owned, needsOptions := .cginst, needsCgid := true, idFile, idLine }) with
      opts := {}, cvpbins := {} } o) fun db => ?_) fun c o h => ?_
  case refine_1 =>
    generalize (if srcinfo.isSome then (uwFileid srcinfo, uwLine srcinfo) else (db.cgFile, db.cgLine)) = place
    obtain ⟨idFile, idLine⟩ := place
    exact pre ((hset idFile idLine).seq <| (modified (by exact fun _ => ⟨rfl, rfl, rfl⟩)).seq status) fun c o h => h idFile idLine
  case refine_2 =>
    obtain ⟨p, hmem, ht⟩ := h.right
    obtain ⟨hthree, hsix⟩ := h.left.written.sane.flat hmem (by rw [ht]; decide)
    refine ⟨Nat.lt_of_le_of_lt hsix (by decide), h.left.written.sane.room, fine_ok.mpr ⟨push_pending _ _ _, fun db _ idFile idLine => yields_ok.mpr ?_⟩⟩
    exact enterFlat ucisCoverinstance h (e := { UwElem.of .cgInstance ucisCoverinstance with owned, needsOptions := .cginst, needsCgid := true, idFile, idLine })
      (by decide) rfl rfl rfl (fun p hp => Nat.lt_of_le_of_lt (Nat.le_of_eq (reach_covergroup hp)) (Nat.lt_of_succ_le (Nat.le_of_ble_eq_true rfl)))
      rfl (by decide) ⟨p, hmem, .cginst ht _ _ _⟩ _ rfl ⟨rfl, rfl, rfl, rfl, rfl⟩

-- A scope that is closed lies above its kind of coverage.
theorem closeFlat : Spec accepts (fun c o => Rests bins c o ∧ ∃ p ∈ c.stack.head?, p.type ∈ flatTypes) uwElEnd
    (Yields (Rests bins)) := by
  refine pre (closeElem bins) fun c o h => ?_
  obtain ⟨hrests, p, hmem, ht⟩ := h
  have hw := hrests.written
  obtain ⟨hthree, _⟩ := hw.sane.flat hmem ht
  obtain ⟨_, herr, _, _⟩ := leave_fields c
  refine ⟨hw, Nat.lt_of_succ_lt hthree, fun o' hw' => yields_ok.mpr ⟨hw', fun hok _ _ => ?_⟩⟩
  obtain ⟨es, hs⟩ := List.head?_eq_some_iff.mp hmem
  have hspine := hw.spine (herr ▸ hok)
  rw [hs] at hspine hthree
  have hne : es.length ≠ 2 := fun hl => (flat_deep p.type ht).left (hspine.left hl).right.left
  rw [leave_stack, hs, List.tail_cons]
  rw [List.length_cons] at hthree
  omega

theorem typeTop {el : Option UwElem} {c : UwDb} (h : el.map UwElem.core = c.stack.head?) (P : UcisScopeType → Prop) {b : UwElem → Bool}
    (hb : ∀ p, b p = true → P p.type) (ht : el.any b = true) : ∃ p ∈ c.stack.head?, P p.type := by
  cases el
  case none   => cases ht
  case some p => exact ⟨p.core, h.symm, hb p ht⟩

theorem openCoverinstance :
    Spec accepts (Rests bins) (uwOpenCoverinstance name srcinfo) (Yields (Rests bins)) := by
  refine atTop fun el => tryYields (I := Rests bins) ?_ (atTop fun el => ?_)
  case refine_1 =>
    refine pre (iteOf (fun _ => closeFlat) fun _ => done (Q := Yields (Rests bins)) _) fun c o h =>
      ⟨fun hb => ⟨h.left, typeTop h.right (· ∈ flatTypes) (fun p hp => ?_) hb⟩, fun _ => yields_ok.mpr h.left⟩
    rw [of_decide_eq_true hp]
    decide
  case refine_2 =>
    refine pre (iteOf (fun _ => failYields bins (by decide)) fun _ => yieldsImp openCgi fun _ _ h => h.left) fun c o h =>
      ⟨fun _ => h.left.written, fun hb => ⟨h.left, typeTop h.right (· = ucisCovergroup) (b := fun p => p.type = ucisCovergroup) (fun p hp => of_decide_eq_true hp) ?_⟩⟩
    cases el
    case none   => simp at hb
    case some p => simpa using hb

theorem cgiEnsure : Spec accepts (Rests bins) uwCgiEnsure (Yields (AtType ucisCoverinstance bins)) := by
  refine atTop fun el => pre (ite (done (Q := Yields (AtType ucisCoverinstance bins)) _) (tryYields (I := Rests bins)
    (ite closeFlat (done (Q := Yields (Rests bins)) _)) (atTop fun el => pre (ite (done (Q := Yields (AtType ucisCoverinstance bins)) _)
      (ite (read (W := fun _ => AtType ucisCovergroup bins) fun db => openCgi) (failYields bins (by decide)))) ?_))) fun c o h => ?_
  case refine_1 =>
    exact fun c o h => ⟨fun hb => yields_ok.mpr ⟨h.left, typeTop h.right (· = ucisCoverinstance) (fun p hp => of_decide_eq_true hp) hb⟩,
      fun _ => ⟨fun hb db _ => ⟨h.left, typeTop h.right (· = ucisCovergroup) (fun p hp => of_decide_eq_true hp) hb⟩, fun _ => h.left.written⟩⟩
  case refine_2 =>
    refine ⟨fun hb => yields_ok.mpr ⟨h.left, typeTop h.right (· = ucisCoverinstance) (fun p hp => of_decide_eq_true hp) hb⟩,
      fun _ => ⟨fun hb => ⟨h.left, typeTop h.right (· ∈ flatTypes) (fun p hp => ?_) hb⟩, fun _ => yields_ok.mpr h.left⟩⟩
    rcases of_decide_eq_true hp with ht | ht <;> rw [ht] <;> decide

theorem stageAt {n : Nat} {what : UwTag} :
    Spec accepts (AtType type bins) (uwStage n what)
      (Yields fun c o => AtType type bins c o ∧ ∃ p ∈ c.stack.head?, p.type = type ∧ p.stage = n) := by
  refine pre (stage bins) fun c o h => ⟨h.left.written, fun hw hs => ?_⟩
  obtain ⟨hrests, p, hmem, ht⟩ := h
  obtain ⟨es, hstack⟩ := List.head?_eq_some_iff.mp hmem
  have htop : ∃ p ∈ (c.withStack (c.stack.modifyHead (.atStage n))).stack.head?, p.type = type ∧ p.stage = n :=
    ⟨p.atStage n, by rw [hstack]; rfl, ht, rfl⟩
  refine ⟨⟨⟨hw, fun hok hi hk => ?_⟩, ?_⟩, htop⟩
  case refine_1 =>
    rw [withStack_stack, List.length_modifyHead]
    exact hrests.whole hok hi hk
  case refine_2 =>
    obtain ⟨p, hmem, ht, _⟩ := htop
    exact ⟨p, hmem, ht⟩

theorem openCoverpoint :
    Spec accepts (Rests bins) (uwOpenCoverpoint name) (Yields fun c o => Rests bins c o ∧ c.Pending) := by
  have hset {Q : PUnit → UwDb → UwOutline → Prop} : Spec accepts _ _ Q := setTop
    (f := fun el => { el with needsOptions := .coverpoint }) (g := fun el => { el with needsOptions := .coverpoint })
    (fun _ => rfl) (fun _ => rfl) (fun _ => rfl)
  have hput {Q : PUnit → UwDb → UwOutline → Prop} : Spec accepts _ _ Q := change
    (f := fun db =>
      let t := db.cvpbins.put uwCvpNamespace (name.getD []) db.cvpbins.cvpCount
      { db with cvpbins := { t with cvpCount := t.cvpCount + 1, binCount := 0 } })
    (g := fun db =>
      let t := db.cvpbins.put uwCvpNamespace (name.getD []) db.cvpbins.cvpCount
      db.withBins { t with cvpCount := t.cvpCount + 1, binCount := 0 })
    (fun _ => rfl) (fun _ => rfl) (fun _ => rfl)
  refine yieldsImp (tryYields cgiEnsure (tryYields stageAt (pre (hput.seq <| tryOk elEnter <|
    nameAttrs.seq <| hset.seq <| (modified (by exact fun _ => ⟨rfl, rfl, rfl⟩)).seq status) fun c o h => ?_)))
    fun c o (h : AtType ucisCoverpoint bins c o ∧ c.Pending) => ⟨h.left.left, h.right⟩
  obtain ⟨hat, p, hmem, ht, hs⟩ := h
  obtain ⟨hthree, hsix⟩ := hat.left.written.sane.flat hmem (by rw [ht]; decide)
  refine ⟨Nat.lt_of_le_of_lt hsix (by decide), hat.left.written.sane.room, fine_ok.mpr ⟨push_pending _ _ _, yields_ok.mpr ⟨?_, _, _, rfl, rfl⟩⟩⟩
  exact enterFlat ucisCoverpoint hat (e := { UwElem.of .coverpoint ucisCoverpoint with needsOptions := .coverpoint })
    (by decide) rfl rfl rfl (fun p hp => Nat.lt_of_le_of_lt (Nat.le_of_eq (reach_coverinstance hp)) (Nat.lt_of_succ_le (Nat.le_of_ble_eq_true rfl)))
    rfl (by decide) ⟨p, hmem, .coverpoint ht hs⟩ _ rfl ⟨rfl, rfl, rfl, rfl, rfl⟩

theorem openCross :
    Spec accepts (Rests bins) (uwOpenCross name) (Yields (Rests bins)) := by
  have hset {Q : PUnit → UwDb → UwOutline → Prop} : Spec accepts _ _ Q := setTop
    (f := fun el => { el with needsOptions := .cross }) (g := fun el => { el with needsOptions := .cross })
    (fun _ => rfl) (fun _ => rfl) (fun _ => rfl)
  refine yieldsImp (tryYields cgiEnsure (tryYields stageAt (pre (tryOk elEnter <| nameAttrs.seq <| hset.seq <|
    (modified (by exact fun _ => ⟨rfl, rfl, rfl⟩)).seq status) fun c o h => ?_)))
    fun c o (h : AtType ucisCross bins c o) => h.left
  obtain ⟨hat, p, hmem, ht, hs⟩ := h
  obtain ⟨hthree, hsix⟩ := hat.left.written.sane.flat hmem (by rw [ht]; decide)
  refine ⟨Nat.lt_of_le_of_lt hsix (by decide), hat.left.written.sane.room, fine_ok.mpr ⟨push_pending _ _ _, yields_ok.mpr ?_⟩⟩
  exact enterFlat ucisCross hat (e := { UwElem.of .cross ucisCross with needsOptions := .cross })
    (by decide) rfl rfl rfl (fun p hp => Nat.lt_of_le_of_lt (Nat.le_of_eq (reach_coverinstance hp)) (Nat.lt_of_succ_le (Nat.le_of_ble_eq_true rfl)))
    rfl (by decide) ⟨p, hmem, .cross ht hs⟩ _ rfl ⟨rfl, rfl, rfl, rfl, rfl⟩

end Spec

-- The calls, which leave the bins that they are told

theorem Rests.same {bins : List UwAttrs} {c c' : UwDb} (h : Rests bins c o) (hs : c'.stack = c.stack)
    (hsame : c'.phase = c.phase ∧ c'.instDepth = c.instDepth ∧ c'.curKind = c.curKind ∧ c'.instCount = c.instCount ∧
      c'.err = c.err) : Rests bins c' o := by
  obtain ⟨hp, hd, hk, hi, he⟩ := hsame
  refine ⟨h.written.same hs hp hd hk hi fun hok => he ▸ hok, fun hok hinst hkind => ?_⟩
  exact hs ▸ h.whole (he ▸ hok) (hd ▸ hinst) (hk ▸ hkind)

def Leaves {α : Type} (accepts : Accepts UInt8) (m : Uw α) (shown : List UwAttrs) : Prop :=
  ∀ bins, Spec accepts (Rests bins) m fun _ => Rests (bins ++ shown)

namespace Leaves

variable {α β : Type} {m : Uw α} {shown : List UwAttrs}

theorem seq {rest : Uw β} (hm : Leaves accepts m shown) (hr : Leaves accepts rest []) :
    Leaves accepts (m >>= fun _ => rest) shown :=
  fun bins => (hm bins).seq (Spec.post (hr _) fun _ _ _ h => by rwa [List.append_nil] at h)

theorem bind {f : α → Uw β} (hm : Leaves accepts m []) (hf : ∀ a, Leaves accepts (f a) shown) :
    Leaves accepts (m >>= f) shown :=
  fun bins => (hm bins).bind fun a => by
    rw [List.append_nil]
    exact hf a bins

theorem discard (hm : Leaves accepts m shown) : Leaves accepts (Functor.discard m) shown :=
  fun bins => Spec.discard (hm bins)

theorem done (a : α) : Leaves accepts (return a) [] :=
  fun bins => Spec.pre (Spec.done (Q := fun _ => Rests (bins ++ [])) a) fun _ _ h => by rwa [List.append_nil]

theorem read {f : UwDb → Uw α} (h : ∀ db, Leaves accepts (f db) shown) : Leaves accepts (get >>= f) shown :=
  fun bins => Spec.pre (Spec.read fun db => h db bins) fun _ _ h _ _ => h

theorem ite {b : Prop} [Decidable b] {m' : Uw α} (hm : Leaves accepts m shown) (hm' : Leaves accepts m' shown) :
    Leaves accepts (if b then m else m') shown :=
  fun bins => Spec.either (hm bins) (hm' bins)

theorem warn : Leaves accepts uwWarn [] :=
  fun bins => by
    rw [List.append_nil]
    exact Spec.warn (Q := fun _ => Rests bins)

-- A change that has nothing to do with what is written
theorem keep {f : UwDb → UwDb} (hf : ∀ db, (f db).buf = db.buf ∧ (f db).core = f db.core ∧ (f db).stack = db.stack ∧
    (f db).phase = db.phase ∧ (f db).instDepth = db.instDepth ∧ (f db).curKind = db.curKind ∧
    (f db).instCount = db.instCount ∧ (f db).err = db.err) : Leaves accepts (modify f) [] := by
  intro bins
  rw [List.append_nil]
  refine Spec.pre (Spec.change (f := f) (g := f) (fun db => (hf db).left) (fun db => (hf db).right.left)
    (fun db => (hf db).right.right.left)) fun c o h => h.same (hf c).right.right.left (hf c).right.right.right

-- What is refused
theorem fail {status : UcisWriterStatus} (hs : status ≠ .ok ∧ status ≠ .errIo ∧ status ≠ .errAlloc) {what : String}
    {detail : Option (List UInt8)} : Leaves accepts (uwFail status what detail) shown :=
  fun _ => Spec.pre (Spec.fail hs.right) fun _ _ h => (h.written.failed hs.left).rests _

theorem failed {status : UcisWriterStatus} (hs : status ≠ .ok ∧ status ≠ .errIo ∧ status ≠ .errAlloc) {what : String}
    {detail : Option (List UInt8)} : Leaves accepts (uwFailed status what detail) shown :=
  fun bins => (fail hs).discard.seq (done _) bins

theorem yields {m : Uw UcisWriterStatus} (h : ∀ bins, Spec accepts (Rests bins) m (Yields (Rests (bins ++ shown)))) :
    Leaves accepts m shown :=
  fun bins => Spec.post (h bins) fun rc _ _ hy => by
    by_cases hrc : rc = .ok
    case pos => exact hy.left hrc
    case neg => exact (hy.right hrc).rests _

theorem rc : Leaves accepts uwRc [] :=
  read fun _ => done _

end Leaves
