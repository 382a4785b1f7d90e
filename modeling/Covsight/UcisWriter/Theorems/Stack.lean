import Covsight.UcisWriter.Theorems.Document

-- What the operations on the stack write, and what is put off until a start tag ends.

open Xml Markup

abbrev UwShape := Shape UwTag UwAttr
abbrev UwAttrs := List (UwAttr × List UInt8)

def escaped (s : List UInt8) : List UInt8 :=
  (uwTextEscape s 0).out

def leaf (tag : UwTag) (attrs : UwAttrs) : UwShape :=
  .elem tag attrs []

def textAttrs (attr : UwAttr) (value : Option (List UInt8)) : UwAttrs :=
  (value.map fun s => (attr, escaped s)).toList

def nnAttrs (attr : UwAttr) (value : Option Int) : UwAttrs :=
  (value.map fun v => (attr, uwDigits v.toNat)).toList

def boolAttrs (attr : UwAttr) (value : Option Int) : UwAttrs :=
  textAttrs attr (value.map fun v => if v ≠ 0 then lit "true" else lit "false")

def optionAttrs (variant : UwOpt) (o : UwOpts) : UwAttrs :=
  nnAttrs .weight o.weight ++ nnAttrs .goal o.goal ++ nnAttrs .atLeast o.atLeast ++
    (if variant ≠ .cross then boolAttrs .detectOverlap o.detectOverlap else []) ++
    (if variant ≠ .cross then nnAttrs .autoBinMax o.autoBinMax else []) ++
    (if variant ≠ .coverpoint then nnAttrs .crossNumPrintMissing o.numPrintMissing else []) ++
    if variant = .cginst then
      boolAttrs .perInstance o.perInstance ++ boolAttrs .mergeInstances o.mergeInstances
    else []

def placeAttrs (file line inlineCount : Nat) : UwAttrs :=
  [(.file, uwDigits file), (.line, uwDigits line), (.inlineCount, uwDigits inlineCount)]

def orOne (v : UInt32) : UInt32 :=
  if v = 0 then 1 else v

def orElse (s : List UInt8) (other : String) : List UInt8 :=
  if s ≠ [] then s else lit other

namespace UwDb

-- What an element that has not ended its start tag still has to get

def attrsDue (c : UwDb) (e : UwElem) : UwAttrs :=
  if e.needsExpr then
    [(.exprString, escaped c.exprTerms), (.index, uwDigits e.exprIndex.toNat), (.width, uwDigits (uwExprTermCount c))]
  else []

def optionsDue (c : UwDb) (variant : UwOpt) : List UwShape :=
  leaf .options (optionAttrs variant c.opts) ::
    if variant = .cross then List.replicate c.crossed.length (leaf .crossExpr []) else []

def cgidDue (c : UwDb) (e : UwElem) : UwShape :=
  .elem .cgId
    (textAttrs .cgName (some (orElse c.cgName "(unnamed)")) ++ textAttrs .moduleName (some (orElse c.cgModule "(unknown)")))
    [ leaf .cginstSourceId (placeAttrs (orOne e.idFile).toNat (orOne e.idLine).toNat 1),
      leaf .cgSourceId (placeAttrs (orOne c.cgFile).toNat (orOne c.cgLine).toNat 1) ]

def shapesDue (c : UwDb) (e : UwElem) : List UwShape :=
  (if e.needsOptions ≠ .none then c.optionsDue e.needsOptions else []) ++
  (if e.needsCgid then [c.cgidDue e] else []) ++
  (if e.needsId then [leaf .id (placeAttrs e.idFile.toNat e.idLine.toNat e.idInline.toNat)] else []) ++
  if e.needsExpr then List.replicate (uwExprTermCount c) (leaf .subExpr []) else []

end UwDb

-- Once the start tag of the innermost element has ended

def UwElem.settle (e : UwElem) : UwElem :=
  if e.pending then
    { e with pending := false, needsId := false, needsExpr := false, needsOptions := .none, needsCgid := false }
  else e

def UwDb.settle (c : UwDb) : UwDb :=
  c.withStack (c.stack.modifyHead UwElem.settle)

def UwDb.settled (c : UwDb) (o : UwOutline) : UwOutline :=
  match c.stack.head? with
  | none   => o
  | some e => if e.pending then (o.attrs (c.attrsDue e)).add (c.shapesDue e) else o

def UwDb.push (c : UwDb) (e : UwElem) : UwDb :=
  c.withStack (e :: c.stack)

def UwElem.of (tag : UwTag) (type : UcisScopeType) : UwElem where
  tag     := some tag
  type    := type
  pending := true
  owned   := type = 0

-- Something is put off.
def UwElem.Deferred (e : UwElem) : Prop :=
  e.needsId ∨ e.needsExpr ∨ e.needsOptions ≠ .none ∨ e.needsCgid

instance (e : UwElem) : Decidable e.Deferred := by
  unfold UwElem.Deferred
  infer_instance

def UwDb.Undeferred (c : UwDb) : Prop :=
  ∀ e ∈ c.stack.head?, e.pending → ¬e.Deferred

-- There is room for what was put off. A place of its own is not an element on the stack.
def UwDb.Room (c : UwDb) : Prop :=
  ∀ e ∈ c.stack.head?, e.pending → e.needsExpr ∨ e.needsOptions ≠ .none ∨ e.needsCgid →
    c.stack.length + 2 ≤ uwMaxDepth

section

variable (c : UwDb) (s s' : List UwElem)

@[simp]
theorem withStack_stack : (c.withStack s).stack = s := rfl

@[simp]
theorem withStack_withStack : (c.withStack s).withStack s' = c.withStack s' := rfl

@[simp]
theorem withStack_optionsDue (variant : UwOpt) : (c.withStack s).optionsDue variant = c.optionsDue variant := rfl

@[simp]
theorem withStack_cgidDue (e : UwElem) : (c.withStack s).cgidDue e = c.cgidDue e := rfl

@[simp]
theorem withStack_exprTermCount : uwExprTermCount (c.withStack s) = uwExprTermCount c := rfl

end

-- What is forgotten with an element of a type
def UwDb.forget (type : UcisScopeType) (c : UwDb) : UwDb :=
  let c := if type = ucisInstance then { c with instDepth := 0, curKind := .none, blockMode := 0 } else c
  if type = ucisCoverinstance then { c with cvpbins := {} } else c

-- The innermost element is gone.
def UwDb.leave (c : UwDb) : UwDb :=
  match c.stack with
  | []         => c
  | e :: below =>
    match e.tag with
    | none   => { c with stack := below, metric := [] }
    | some _ => (c.withStack below).forget e.type

def UwDb.left (c : UwDb) (o : UwOutline) : UwOutline :=
  if c.stack.head?.any (·.tag.isSome) then o.close else o

variable {accepts : Accepts UInt8}

namespace Spec

variable {Q : UcisWriterStatus → UwDb → UwOutline → Prop}
variable {attr : UwAttr}

theorem textAttr {value : Option (List UInt8)} :
    Spec accepts (fun c o => (value.isSome → c.Pending) ∧ Q .ok c (o.attrs (textAttrs attr value)))
      (uwTextAttr attr value) Q := by
  cases value
  case none   => exact status.pre fun c o h => by simpa [textAttrs] using h
  case some s => exact (Spec.attr (.attrOf attr (.escape s)) (legible_escape s 0)).pre fun c o h => ⟨h.left rfl, h.right⟩

theorem attrU64 {v : Nat} :
    Spec accepts (fun c o => c.Pending ∧ Q .ok c (o.attrs [(attr, uwDigits v)])) (uwTextAttrU64 attr v) Q :=
  Spec.attr (.attrOf attr (.digits v)) (legible_uwDigits v)

theorem attrI64 {v : Int} :
    Spec accepts (fun c o => c.Pending ∧ Q .ok c (o.attrs [(attr, uwInteger v)])) (uwTextAttrI64 attr v) Q :=
  Spec.attr (.attrOf attr (.integer v)) (legible_uwInteger v)

theorem attrDouble {v : UwDouble} :
    Spec accepts (fun c o => c.Pending ∧ Q .ok c (o.attrs [(attr, v.printed)])) (uwTextAttrDouble attr v) Q :=
  Spec.attr (.attrOf attr (.write v.printed)) (legible_digits v.plain)

theorem optAttrNn {value : Option Int} {Q : PUnit → UwDb → UwOutline → Prop} :
    Spec accepts (fun c o => c.Pending ∧ Q ⟨⟩ c (o.attrs (nnAttrs attr value))) (uwOptAttrNn attr value) Q := by
  cases value
  case none   => exact (done _).pre fun c o h => by simpa [nnAttrs] using h.right
  case some v =>
    rw [uwOptAttrNn]
    split
    case isTrue  => exact warn.seq attrU64.discard
    case isFalse => exact attrU64.discard

theorem optAttrBool {value : Option Int} {Q : PUnit → UwDb → UwOutline → Prop} :
    Spec accepts (fun c o => c.Pending ∧ Q ⟨⟩ c (o.attrs (boolAttrs attr value))) (uwOptAttrBool attr value) Q := by
  cases value
  case none   => exact (done _).pre fun c o h => by simpa [boolAttrs, textAttrs] using h.right
  case some v => exact textAttr.discard.pre fun c o h => ⟨fun _ => h.left, h.right⟩

end Spec

-- Line breaks

theorem writes_newline (accepts : Accepts UInt8) (pretty : Bool) (stack : List UwElem) :
    ∃ s, Blank s ∧ Writes accepts (uwNewline pretty stack) id s := by
  rw [uwNewline]
  split
  case isTrue  => exact ⟨[], by simp [Blank], .nothing⟩
  case isFalse =>
    refine ⟨_, blank_append ?_ ?_, (Writes.putc '\n').tryBuf (.write _)⟩
    case refine_1 => exact fun b hb => .inr (List.mem_singleton.mp hb)
    case refine_2 => exact fun b hb => .inl (List.eq_of_mem_replicate hb)

theorem Spec.newline {pretty : Bool} {stack : List UwElem} {Q : UcisWriterStatus → UwDb → UwOutline → Prop} :
    Spec accepts (fun c o => c.Settled ∧ Q .ok c o) (uwNewline pretty stack) Q := by
  obtain ⟨s, hs, hw⟩ := writes_newline accepts pretty stack
  exact pre (text hw hs.plain) fun _ _ h => ⟨h.left, .inl hs, h.right⟩

-- The writer after the end of a start tag

section

variable {c : UwDb} {o : UwOutline} {e : UwElem}

theorem settle_settled (c : UwDb) : c.settle.Settled := by
  intro e he
  rw [UwDb.settle, UwDb.withStack] at he
  cases hs : c.stack
  case nil       => simp [hs] at he
  case cons e es =>
    simp only [hs, List.modifyHead_cons, List.head?_cons, Option.mem_some_iff] at he
    rw [← he, UwElem.settle]
    split
    case isTrue    => rfl
    case isFalse h => simpa using h

theorem settle_of_settled (h : c.Settled) : c.settle = c := by
  have hs : c.stack.modifyHead UwElem.settle = c.stack := by
    cases hs : c.stack
    case nil       => rfl
    case cons e es =>
      have he : e.settle = e := if_neg (by simp [h e (by simp [hs])])
      rw [List.modifyHead_cons, he]
  rw [UwDb.settle, hs]
  rfl

theorem settled_of_settled (h : c.Settled) (o : UwOutline) : c.settled o = o := by
  rw [UwDb.settled]
  split
  case h_1      => rfl
  case h_2 e he => exact if_neg (by simp [h e he])

end

section

variable {c : UwDb}

theorem settled_modifyHead {f : UwElem → UwElem} (hp : ∀ e, (f e).pending = e.pending) (h : c.Settled) :
    (c.withStack (c.stack.modifyHead f)).Settled := by
  intro e he
  cases hs : c.stack
  case nil       => simp [UwDb.withStack, hs] at he
  case cons e' es =>
    simp only [UwDb.withStack, hs, List.modifyHead_cons, List.head?_cons, Option.mem_some_iff] at he
    rw [← he, hp]
    exact h e' (by rw [hs]; rfl)

@[simp]
theorem settle_type (e : UwElem) : e.settle.type = e.type := by
  rw [UwElem.settle]
  split <;> rfl

@[simp]
theorem settle_tag (e : UwElem) : e.settle.tag = e.tag := by
  rw [UwElem.settle]
  split <;> rfl

@[simp]
theorem settle_stack_nil : c.settle.stack = [] ↔ c.stack = [] := by
  cases hs : c.stack <;> simp [UwDb.settle, UwDb.withStack, hs]

@[simp]
theorem settle_length : c.settle.stack.length = c.stack.length := by
  cases hs : c.stack <;> simp [UwDb.settle, UwDb.withStack, hs]

-- What goes leaves no trace of whether its start tag had ended.
theorem settle_leave : c.settle.leave = c.leave := by
  cases hs : c.stack
  case nil       => rw [settle_of_settled fun e he => by simp [hs] at he]
  case cons e es =>
    simp only [UwDb.settle, UwDb.leave, UwDb.withStack, hs, List.modifyHead_cons, settle_tag, settle_type]

theorem settle_left (o : UwOutline) : c.settle.left o = c.left o := by
  cases hs : c.stack
  case nil       => simp [UwDb.settle, UwDb.left, UwDb.withStack, hs]
  case cons e es => simp [UwDb.settle, UwDb.left, UwDb.withStack, hs]

theorem settled_undeferred (h : c.Undeferred) (o : UwOutline) : c.settled o = o := by
  rw [UwDb.settled]
  split
  case h_1      => rfl
  case h_2 e he =>
    split
    case isFalse     => rfl
    case isTrue hp   =>
      have hd := h e he hp
      simp only [UwElem.Deferred, not_or, not_not] at hd
      simp [UwDb.attrsDue, UwDb.shapesDue, hd]

end

theorem undeferred_of_settled {c : UwDb} (h : c.Settled) : c.Undeferred :=
  fun e he hp => absurd (h e he) (by simp [hp])

section

variable (c : UwDb) (o : UwOutline) (e : UwElem) (tag : UwTag) (type : UcisScopeType)

@[simp]
theorem push_length : (c.push e).stack.length = c.stack.length + 1 := rfl

@[simp]
theorem push_head : (c.push e).stack.head? = some e := rfl

@[simp]
theorem push_ne_nil : (c.push e).stack ≠ [] :=
  List.cons_ne_nil _ _

@[simp]
theorem push_tagged : (c.push e).Tagged ↔ e.tag.isSome := by
  simp [UwDb.Tagged]

@[simp]
theorem push_left : (c.push e).left o = if e.tag.isSome then o.close else o := rfl

@[simp]
theorem settle_push : (c.push e).settle = c.push e.settle := rfl

@[simp]
theorem push_leave : (c.push e).leave = if e.tag.isSome then c.forget e.type else { c with metric := [] } := by
  simp only [UwDb.leave, UwDb.push, UwDb.withStack]
  cases e.tag <;> rfl

@[simp]
theorem forget_zero : c.forget 0 = c := by
  rw [UwDb.forget]
  simp only [(by decide : (0 : UcisScopeType) ≠ ucisInstance), (by decide : (0 : UcisScopeType) ≠ ucisCoverinstance), if_false]

@[simp]
theorem of_tag : (UwElem.of tag type).tag = some tag := by
  simp [UwElem.of]

@[simp]
theorem of_type : (UwElem.of tag type).type = type := by
  simp [UwElem.of]

@[simp]
theorem of_pending : (UwElem.of tag type).pending = true := by
  simp [UwElem.of]

@[simp]
theorem of_undeferred : ¬(UwElem.of tag type).Deferred := by
  simp [UwElem.of, UwElem.Deferred]

@[simp]
theorem settle_undeferred (h : ¬e.Deferred) : ¬e.settle.Deferred := by
  rw [UwElem.settle]
  split
  case isTrue  => simp [UwElem.Deferred]
  case isFalse => exact h

@[simp]
theorem settle_pending (h : e.pending) : ¬e.settle.Deferred := by
  rw [UwElem.settle, if_pos h]
  simp [UwElem.Deferred]

@[simp]
theorem settle_settle : e.settle.settle = e.settle := by
  simp only [UwElem.settle]
  split <;> simp_all

@[simp]
theorem push_pending : (c.push (.of tag type)).Pending :=
  ⟨_, _, rfl, rfl⟩

@[simp]
theorem push_undeferred (h : ¬e.Deferred) : (c.push e).Undeferred := by
  intro e' he _
  cases he
  exact h

end

@[simp]
theorem orOne_toNat (v : UInt32) : (orOne v).toNat = if v = 0 then 1 else v.toNat := by
  rw [orOne]
  split <;> rfl

@[simp]
theorem forget_stack (type : UcisScopeType) (c : UwDb) : (c.forget type).stack = c.stack := by
  rw [UwDb.forget]
  split <;> split <;> rfl

theorem leave_stack (c : UwDb) : c.leave.stack = c.stack.tail := by
  cases hs : c.stack
  case nil       => simp [UwDb.leave, hs]
  case cons e es =>
    rw [UwDb.leave, hs]
    cases ht : e.tag <;> simp [ht, UwDb.withStack]

-- What ends a start tag where this holds
def Committed (accepts : Accepts UInt8) (commit : Uw UcisWriterStatus) (P : UwDb → Prop) : Prop :=
  ∀ Q, Spec accepts (fun c o => P c ∧ Q .ok c.settle (c.settled o)) commit Q

namespace Spec

variable {commit : Uw UcisWriterStatus} {P : UwDb → Prop} {Q : UcisWriterStatus → UwDb → UwOutline → Prop}

theorem core_length (db : UwDb) : db.core.stack.length = db.stack.length :=
  List.length_map _

theorem map_markKids (stack : List UwElem) : (uwMarkKids stack).map UwElem.core = stack.map UwElem.core := by
  induction stack
  case nil           => rfl
  case cons e es hi =>
    rw [uwMarkKids]
    split
    case isTrue  => rfl
    case isFalse => exact congrArg (_ :: ·) hi

theorem startTag {tag : UwTag} {type : UcisScopeType} :
    Spec accepts (fun c o => c.Settled ∧ Q .ok (c.push (.of tag type)) (o.start tag))
      (uwTryBuf (uwBufPutc '<') <| uwTryBuf (uwBufWrite tag.spelled) do
        modify fun db =>
          { db with stack := { tag := some tag, type, pending := true, owned := type = 0 : UwElem } :: db.stack }
        uwStatus) Q := by
  have hw : Writes accepts _ _ _ := (Writes.putc '<').tryBuf <| (Writes.write tag.spelled).tryBuf <|
    Writes.change (g := fun db =>
        { db with stack := { tag := some tag, type, pending := true, owned := type = 0 : UwElem } :: db.stack })
      (f := fun c => c.push (.of tag type)) (fun _ => rfl) (fun _ => rfl) .nothing
  refine writes hw fun c d hd hp => ⟨d.start tag, ?_, hd.start hp.left rfl rfl, hp.right⟩
  rw [Draft.shown_start]
  simp [Markup.less, spell]

theorem beginWith (hc : Committed accepts commit P) {tag : UwTag} {type : UcisScopeType} :
    Spec accepts
      (fun c o =>
        (c.stack.length < uwMaxDepth → P c ∧ Q .ok (c.settle.push (.of tag type)) ((c.settled o).start tag)) ∧
        (uwMaxDepth ≤ c.stack.length → Q .errDepth (c.failed .errDepth) o))
      (uwElBeginWith commit tag type) Q := by
  have hmark {Q : PUnit → UwDb → UwOutline → Prop} :
      Spec accepts (Q ⟨⟩) (modify fun db => { db with stack := uwMarkKids db.stack }) Q :=
    change (f := fun db => { db with stack := uwMarkKids db.stack }) (g := id) (fun _ => rfl)
      (fun db => by simp [UwDb.core, map_markKids]) fun _ => rfl
  refine pre (read fun db => ite (fail (by decide)) ((hc _).tryBufOk <| hmark.seq <| read fun _ =>
    newline.tryBufOk startTag)) fun c o h db hdb => ?_
  subst hdb
  rw [core_length] at h
  refine ⟨h.right, fun hl => ?_⟩
  obtain ⟨hp, hq⟩ := h.left (Nat.lt_of_not_ge hl)
  exact ⟨hp, fine_ok.mpr fun _ _ => ⟨settle_settled _, fine_ok.mpr ⟨settle_settled _, hq⟩⟩⟩

-- An end tag that is written where nothing is put off
theorem endTag {tag : UwTag} (e : UwElem) (below : List UwElem) (pretty : Bool) (ht : e.tag = some tag) :
    Spec accepts (fun c o => c.stack = e.core :: below.map UwElem.core ∧ Q .ok c.leave o.close)
      (do
        modify fun db => { db with stack := below }
        if e.type = ucisInstance then
          modify fun db => { db with instDepth := 0, curKind := .none, blockMode := 0 }
        if e.type = ucisCoverinstance then
          modify fun db => { db with cvpbins := {} }
        if e.pending then
          uwBufWrite (lit "/>")
        else
          uwTryBuf (if e.haskids then uwNewline pretty below else uwStatus) <|
          uwTryBuf (uwBufWrite (lit "</")) <|
          uwTryBuf (uwBufWrite tag.spelled) <|
          uwBufPutc '>') Q := by
  obtain ⟨s, hs, hw⟩ : ∃ s, Blank s ∧ Writes accepts (if e.haskids then uwNewline pretty below else uwStatus) id s := by
    split
    case isTrue  => exact writes_newline accepts pretty below
    case isFalse => exact ⟨[], by simp [Blank], .nothing⟩
  have htag : Writes accepts
      (if e.pending then
          uwBufWrite (lit "/>")
        else
          uwTryBuf (if e.haskids then uwNewline pretty below else uwStatus) <|
          uwTryBuf (uwBufWrite (lit "</")) <|
          uwTryBuf (uwBufWrite tag.spelled) <|
          uwBufPutc '>') id (if e.pending then [slash, greater] else s ++ renderEnd tag) := by
    split
    case isTrue  => exact .write _
    case isFalse =>
      have he : s ++ renderEnd tag = s ++ (lit "</" ++ (tag.spelled ++ ['>'.toUInt8])) := by
        simp [renderEnd, lit, ascii, Markup.less, Markup.slash, Markup.greater, spell]
      rw [he]
      exact hw.tryBuf <| (Writes.write _).tryBuf <| (Writes.write _).tryBuf <| .putc '>'
  have hwrites := Writes.change (g := fun db => { db with stack := below })
    (f := fun c => c.withStack (below.map UwElem.core)) (fun _ => rfl) (fun _ => rfl) <|
    Writes.when (b := e.type = ucisInstance)
      (g := fun db => { db with instDepth := 0, curKind := .none, blockMode := 0 })
      (f := fun db => { db with instDepth := 0, curKind := .none, blockMode := 0 }) (fun _ => rfl) (fun _ => rfl) <|
    Writes.when (b := e.type = ucisCoverinstance) (g := fun db => { db with cvpbins := {} })
      (f := fun db => { db with cvpbins := {} }) (fun _ => rfl) (fun _ => rfl) htag
  refine writes (f := fun c => (c.withStack (below.map UwElem.core)).forget e.type) hwrites fun c d hd hp => ?_
  obtain ⟨hstack, hq⟩ := hp
  have hleave : (c.withStack (below.map UwElem.core)).forget e.type = c.leave := by
    have ht : e.core.tag = some tag := ht
    rw [UwDb.leave, hstack]
    dsimp only
    rw [ht]
    rfl
  rw [hleave]
  have hm : Draws (e.core :: below.map UwElem.core) d := hstack ▸ hd
  have hbelow : c.leave.stack = below.map UwElem.core := by rw [leave_stack, hstack]; rfl
  obtain ⟨f, frames, hf, htf, hb, _⟩ := hm.aligned.tagged ht
  rw [hbelow]
  by_cases hpend : e.pending = true
  case pos =>
    refine ⟨d.close, ?_, hm.close ht, ?_⟩
    case refine_1 => rw [Draft.shown_close hd.sound hf, if_pos hpend, if_pos (by simp [hb.mp hpend])]
    case refine_2 => rwa [Draft.outline_close]
  case neg =>
    have hset : c.Settled := by
      intro e' he
      rw [hstack] at he
      cases he
      exact Bool.eq_false_iff.mpr hpend
    have hput : Draws (e.core :: below.map UwElem.core) (d.put (.text s)) :=
      hstack ▸ hd.put hset (fun t ht => by cases ht; exact ⟨hs.plain, .inl hs⟩) (by simp [Node.isText])
    obtain ⟨f', frames', hf', htf', hb', _⟩ := hput.aligned.tagged ht
    refine ⟨(d.put (.text s)).close, ?_, hput.close ht, ?_⟩
    case refine_1 =>
      have hbody : ¬f'.body.isNone := fun h => hpend (hb'.mpr (Option.isNone_iff_eq_none.mp h))
      rw [Draft.shown_close hput.sound hf', if_neg hpend, if_neg hbody, htf', Draft.shown_put (hd.settled hset),
        List.append_assoc]
      rfl
    case refine_2 =>
      rw [Draft.outline_close, Draft.outline_put, Node.shapes, Outline.add_nil]
      exact hq

theorem endVirtual (e : UwElem) (below : List UwElem) (ht : e.tag = none) :
    Spec accepts (fun c o => c.stack = e.core :: below.map UwElem.core ∧ Q .ok c.leave o)
      (do
        modify fun db => { db with stack := below }
        modify fun db => { db with metric := [] }
        uwStatus) Q := by
  have hwrites : Writes accepts _ _ _ := Writes.change (g := fun db => { db with stack := below })
    (f := fun c => c.withStack (below.map UwElem.core)) (fun _ => rfl) (fun _ => rfl) <|
    Writes.change (g := fun db => { db with metric := [] }) (f := fun db => { db with metric := [] }) (fun _ => rfl)
      (fun _ => rfl) .nothing
  refine writes (f := fun c => { c with stack := below.map UwElem.core, metric := [] }) hwrites fun c d hd hp => ?_
  obtain ⟨hstack, hq⟩ := hp
  have ht : e.core.tag = none := ht
  have hleave : { c with stack := below.map UwElem.core, metric := [] } = c.leave := by
    rw [UwDb.leave, hstack]
    dsimp only
    rw [ht]
  refine ⟨d, (List.append_nil _).symm, ?_, hleave ▸ hq⟩
  exact Draws.leave (hstack ▸ hd) ht

theorem pop :
    Spec accepts (fun c o => c.stack ≠ [] ∧ Q .ok c.leave (c.left o))
      (do
        let db ← get
        match db.stack with
        | []          => uwStatus
        | el :: below =>
          modify fun db => { db with stack := below }
          match el.tag with
          | none     =>
            modify fun db => { db with metric := [] }
            uwStatus
          | some tag =>
            if el.type = ucisInstance then
              modify fun db => { db with instDepth := 0, curKind := .none, blockMode := 0 }
            if el.type = ucisCoverinstance then
              modify fun db => { db with cvpbins := {} }
            if el.pending then
              uwBufWrite (lit "/>")
            else
              uwTryBuf (if el.haskids then uwNewline db.pretty below else uwStatus) <|
              uwTryBuf (uwBufWrite (lit "</")) <|
              uwTryBuf (uwBufWrite tag.spelled) <|
              uwBufPutc '>') Q := by
  refine pre (read (W := fun db c o => db.core = c ∧ c.stack ≠ [] ∧ Q .ok c.leave (c.left o)) fun db => ?_)
    fun c o h db hdb => ⟨hdb, h⟩
  cases hs : db.stack
  case nil           =>
    refine pre status fun c o h => absurd ?_ h.right.left
    rw [← h.left, UwDb.core, hs]
    rfl
  case cons el below =>
    have hstack {c : UwDb} (h : db.core = c) : c.stack = el.core :: below.map UwElem.core := by
      rw [← h, UwDb.core, hs]
      rfl
    dsimp only
    cases ht : el.tag
    case none     =>
      refine pre (endVirtual el below ht) fun c o h => ⟨hstack h.left, ?_⟩
      have hl : c.left o = o := by
        rw [UwDb.left, hstack h.left]
        exact if_neg (by simp [UwElem.core, ht])
      exact hl ▸ h.right.right
    case some tag =>
      refine pre (endTag el below db.pretty ht) fun c o h => ⟨hstack h.left, ?_⟩
      have hl : c.left o = o.close := by
        rw [UwDb.left, hstack h.left]
        exact if_pos (by simp [UwElem.core, ht])
      exact hl ▸ h.right.right

theorem endWith (hc : Committed accepts commit P) :
    Spec accepts
      (fun c o =>
        (c.stack = [] → Q .errUnbalanced (c.failed .errUnbalanced) o) ∧
        (∀ e ∈ c.stack.head?, (e.needsExpr → e.needsId) ∧ P c ∧ Q .ok c.settle.leave (c.settle.left (c.settled o))))
      (uwElEndWith commit) Q := by
  refine pre (onTop (fail (by decide)) fun el => (ite (hc _) (done .ok)).tryBufOk pop) fun c o h => ⟨h.left, fun el hel => ?_⟩
  obtain ⟨hneeds, hp, hq⟩ := h.right _ hel
  have hne : c.stack ≠ [] := by
    intro he
    simp [he] at hel
  have hne' : c.settle.stack ≠ [] := by simpa using hne
  refine ⟨fun _ => ⟨hp, fine_ok.mpr ⟨hne', hq⟩⟩, fun hflags => fine_ok.mpr ⟨hne, ?_⟩⟩
  have hund : c.Undeferred := by
    intro e he _ hd
    rw [hel] at he
    cases he
    have hneeds : el.needsExpr → el.needsId := hneeds
    rcases hd with hd | hd | hd | hd
    case inl           => exact hflags (.inl hd)
    case inr.inl       => exact hflags (.inl (hneeds hd))
    case inr.inr.inl   => exact hflags (.inr (.inl hd))
    case inr.inr.inr   => exact hflags (.inr (.inr hd))
  rwa [settle_leave, settle_left, settled_undeferred hund] at hq

-- Elements without anything put off

section

variable (hc : Committed accepts commit P) (hu : ∀ c, c.Undeferred → P c)

include hc hu

theorem beginHere {tag : UwTag} {type : UcisScopeType} :
    Spec accepts
      (fun c o => c.Undeferred ∧ c.stack.length < uwMaxDepth ∧ Q .ok (c.settle.push (.of tag type)) (o.start tag))
      (uwElBeginWith commit tag type) Q :=
  pre (beginWith hc) fun c o h =>
    ⟨fun _ => ⟨hu c h.left, by rw [settled_undeferred h.left]; exact h.right.right⟩,
      fun hl => absurd h.right.left (Nat.not_lt.mpr hl)⟩

theorem endHere :
    Spec accepts (fun c o => (∃ e ∈ c.stack.head?, ¬e.Deferred) ∧ Q .ok c.leave (c.left o)) (uwElEndWith commit) Q :=
  pre (endWith hc) fun c o h => by
    obtain ⟨⟨e, he, hd⟩, hq⟩ := h
    have hund : c.Undeferred := fun e' he' _ => by
      rw [Option.mem_unique he' he]
      exact hd
    refine ⟨fun hs => by simp [hs] at he, fun e' he' => ⟨fun hn => ?_, hu c hund, ?_⟩⟩
    case refine_1 =>
      rw [Option.mem_unique he' he] at hn
      exact absurd (.inr (.inl hn)) hd
    case refine_2 => rwa [settle_leave, settle_left, settled_undeferred hund]

end

section

variable (hc : Committed accepts commit UwDb.Undeferred)

include hc

theorem commitHere : Spec accepts (fun c o => c.Undeferred ∧ Q .ok c.settle o) commit Q :=
  pre (hc Q) fun c o h => ⟨h.left, by rw [settled_undeferred h.left]; exact h.right⟩

theorem emitStmtId {tag : UwTag} {file line : UInt32} :
    Spec accepts
      (fun c o => c.Undeferred ∧ c.stack.length < uwMaxDepth ∧
        Q .ok c.settle (o.add [leaf tag (placeAttrs (orOne file).toNat (orOne line).toNat 1)]))
      (uwEmitStmtId commit tag file line) Q := by
  refine pre (tryOk (beginHere hc (fun _ => id)) <| attrU64.discard.seq <| attrU64.discard.seq <| attrU64.discard.seq <|
    endHere hc (fun _ => id)) fun c o h => ?_
  simp only [placeAttrs, orOne_toNat] at h
  simpa [leaf] using h

theorem emitCgid {el : UwElem} :
    Spec accepts
      (fun c o => c.Undeferred ∧ c.stack.length + 2 ≤ uwMaxDepth ∧ Q .ok c.settle (o.add [c.cgidDue el]))
      (uwEmitCgid commit el) Q := by
  refine pre (tryOk (beginHere hc fun _ => id) <| read fun db => textAttr.discard.seq <| textAttr.discard.seq <|
    tryOk (emitStmtId hc) <| tryOk (emitStmtId hc) <| endHere hc fun _ => id) fun c o h => ?_
  refine ⟨h.left, by omega, fine_ok.mpr fun db hdb => ?_⟩
  have hn : db.cgName = c.cgName := (congrArg UwDb.cgName hdb :)
  have hm : db.cgModule = c.cgModule := (congrArg UwDb.cgModule hdb :)
  have hf : db.cgFile = c.cgFile := (congrArg UwDb.cgFile hdb :)
  have hl : db.cgLine = c.cgLine := (congrArg UwDb.cgLine hdb :)
  have hlt : c.stack.length + 1 < uwMaxDepth := h.right.left
  simp only [UwDb.cgidDue, orElse] at h
  simpa [hn, hm, hf, hl, hlt] using h.right.right


omit hc in
theorem content {m : Uw UcisWriterStatus} {s : List UInt8} (hm : Writes accepts m id s) (hs : Plain s) :
    Spec accepts (fun c o => c.Settled ∧ c.Tagged ∧ Q .ok c o) m Q :=
  pre (text hm hs) fun _ _ h => ⟨h.left, .inr h.right.left, h.right.right⟩

omit hc in
theorem escape {s : List UInt8} : Spec accepts (fun c o => c.Settled ∧ c.Tagged ∧ Q .ok c o) (uwTextEscapeCstr s) Q :=
  content (.escape s) (legible_escape s 0).plain

theorem emitCrossExprs (cvps : List (List UInt8)) :
    Spec accepts
      (fun c o => c.Settled ∧ c.stack.length < uwMaxDepth ∧
        Q .ok c (o.add (List.replicate cvps.length (leaf .crossExpr []))))
      (uwEmitCrossExprs commit cvps) Q := by
  induction cvps
  case nil              => exact pre status fun c o h => by simpa using h.right.right
  case cons cvp cvps hi =>
    refine pre (tryOk (beginHere hc fun _ => id) <| tryOk (commitHere hc) <| escape.discard.seq <|
      tryOk (endHere hc fun _ => id) hi) fun c o h => ?_
    have hs := settle_of_settled h.left
    have hp := settle_settled (c.push (.of .crossExpr 0))
    have hl := undeferred_of_settled h.left
    simp only [settle_push] at hp
    simpa [hs, hp, hl, leaf, List.replicate_succ, h.left, h.right.left] using h.right.right

theorem emitOptions (variant : UwOpt) :
    Spec accepts
      (fun c o => c.Settled ∧ c.stack.length < uwMaxDepth ∧ Q .ok c (o.add (c.optionsDue variant)))
      (uwEmitOptions commit variant) Q := by
  refine pre (tryOk (beginHere hc fun _ => id) <| read fun db => optAttrNn.seq <| optAttrNn.seq <| optAttrNn.seq <|
    when optAttrBool <| when optAttrNn <| when optAttrNn <| ite (optAttrBool.seq <| optAttrBool.seq <|
      tryOk (endHere hc fun _ => id) <| ite status <| read fun db => emitCrossExprs hc _) <|
      tryOk (endHere hc fun _ => id) <| ite status <| read fun db => emitCrossExprs hc _) fun c o h => ?_
  have hs := settle_of_settled h.left
  have hl := undeferred_of_settled h.left
  refine ⟨hl, h.right.left, fine_ok.mpr fun db hdb => ?_⟩
  have ho : db.opts = c.opts := (congrArg UwDb.opts hdb :)
  have hq := h.right.right
  simp only [UwDb.optionsDue, optionAttrs] at hq
  cases variant
  case none       => simpa [hs, hl, ho, leaf] using hq
  case cginst     => simpa [hs, hl, ho, leaf] using hq
  case coverpoint => simpa [hs, hl, ho, leaf] using hq
  case cross      =>
    have hc {db' : UwDb} (hdb' : db'.core = c) : db'.crossed.length = c.crossed.length :=
      (congrArg (·.crossed.length) hdb' :)
    simpa +contextual [hs, ho, hc, leaf, h.left, h.right.left] using fun (db' : UwDb) (_ : db'.core = c) => hq

theorem emitOperands (ops : List (List UInt8)) :
    Spec accepts
      (fun c o => c.Settled ∧ c.stack.length < uwMaxDepth ∧
        Q .ok c (o.add (List.replicate ops.length (leaf .subExpr []))))
      (uwEmitOperands commit ops) Q := by
  induction ops
  case nil            => exact pre status fun c o h => by simpa using h.right.right
  case cons op ops hi =>
    refine pre (tryOk (beginHere hc fun _ => id) <| (commitHere hc).discard.seq <| escape.discard.seq <|
      tryOk (endHere hc fun _ => id) hi) fun c o h => ?_
    have hs := settle_of_settled h.left
    have hp := settle_settled (c.push (.of .subExpr 0))
    have hl := undeferred_of_settled h.left
    simp only [settle_push] at hp
    simpa [hs, hp, hl, leaf, List.replicate_succ, h.left, h.right.left] using h.right.right

theorem emitSubExprs :
    Spec accepts
      (fun c o => c.Settled ∧ c.stack.length < uwMaxDepth ∧
        Q .ok c (o.add (List.replicate (uwExprTermCount c) (leaf .subExpr []))))
      (uwEmitSubExprs commit) Q := by
  refine pre (read fun db => ite
    (tryOk (beginHere hc fun _ => id) <| (commitHere hc).discard.seq <| escape.discard.seq <| endHere hc fun _ => id)
    (ite (tryOk (beginHere hc fun _ => id) <| tryOk (endHere hc fun _ => id) status) (emitOperands hc _)))
    fun c o h db hdb => ?_
  have hs := settle_of_settled h.left
  have hl := undeferred_of_settled h.left
  have hp := settle_settled (c.push (.of .subExpr 0))
  simp only [settle_push] at hp
  have hq := h.right.right
  rw [uwExprTermCount] at hq
  have he : db.exprTermsExplicit = c.exprTermsExplicit := (congrArg UwDb.exprTermsExplicit hdb :)
  have hops : db.operands = c.operands := (congrArg UwDb.operands hdb :)
  rw [he, hops]
  refine ⟨fun hx => ?_, fun hx => ⟨fun hn => ?_, fun hn => ?_⟩⟩
  case refine_1 =>
    rw [if_pos hx] at hq
    simpa [hs, hp, hl, leaf, h.left, h.right.left] using hq
  case refine_2 =>
    rw [if_neg hx, hn] at hq
    simpa [hs, hp, hl, leaf, h.left, h.right.left] using hq
  case refine_3 =>
    rw [if_neg hx, max_eq_left (List.length_pos_iff.mpr hn)] at hq
    exact ⟨h.left, h.right.left, hq⟩

omit hc in
theorem emitId {e : UwElem} :
    Spec accepts
      (fun c o => c.Settled ∧
        Q .ok c (o.add [leaf .id (placeAttrs e.idFile.toNat e.idLine.toNat e.idInline.toNat)]))
      (uwEmitId e) Q := by
  have hw : Writes accepts _ _ _ := (Writes.write (lit "<id file=\"")).seq <| (Writes.digits e.idFile.toNat).seq <|
    (Writes.write (lit "\" line=\"")).seq <| (Writes.digits e.idLine.toNat).seq <|
    (Writes.write (lit "\" inlineCount=\"")).seq <| (Writes.digits e.idInline.toNat).seq <|
    Writes.write (lit "\"/>")
  have he : (Node.leaf UwTag.id (placeAttrs e.idFile.toNat e.idLine.toNat e.idInline.toNat)).render =
      lit "<id file=\"" ++ (uwDigits e.idFile.toNat ++ (lit "\" line=\"" ++ (uwDigits e.idLine.toNat ++
        (lit "\" inlineCount=\"" ++ (uwDigits e.idInline.toNat ++ lit "\"/>"))))) := by
    simp [Node.render, renderStart, renderAttrs, renderAttr, placeAttrs, lit, ascii, spell, UwTag.spelled,
      UwAttr.spelled, Markup.less, Markup.greater, Markup.slash, Markup.quote, Markup.equals, Markup.space]
  rw [← he] at hw
  refine pre (read fun db => newline.tryBufOk <| Spec.node (.leaf .id _) hw (fun s hs => by cases hs) fun _ => ?_) fun c o h db _ => ?_
  case refine_1 =>
    intro a ha
    simp only [placeAttrs, List.mem_cons, List.not_mem_nil, or_false] at ha
    rcases ha with rfl | rfl | rfl <;> exact legible_uwDigits _
  case refine_2 => exact ⟨h.left, fine_ok.mpr ⟨h.left, fun s hs => (by cases hs), h.right⟩⟩

-- The start tag ends with the attributes that are known last.
omit hc in
theorem endStart {db : UwDb} {e : UwElem} :
    Spec accepts
      (fun c o => db.core = c ∧ c.stack.head? = some e.core ∧ e.pending ∧
        Q .ok (c.withStack (c.stack.modifyHead fun e => { e with pending := false })) (o.attrs (c.attrsDue e)))
      (do
        uwSetTop fun top => { top with pending := false }
        uwEndStart db e) Q := by
  have hdue : ∀ a ∈ db.attrsDue e, Legible a.snd := by
    intro a ha
    rw [UwDb.attrsDue] at ha
    split at ha
    case isFalse => cases ha
    case isTrue  =>
      simp only [List.mem_cons, List.not_mem_nil, or_false] at ha
      rcases ha with rfl | rfl | rfl
      case inl     => exact legible_escape _ 0
      case inr.inl => exact legible_uwDigits _
      case inr.inr => exact legible_uwDigits _
  have hend : Writes accepts (uwEndStart db e) id (renderAttrs (db.attrsDue e) ++ [greater]) := by
    rw [uwEndStart, UwDb.attrsDue]
    split
    case isFalse => exact .putc '>'
    case isTrue  =>
      have hw : Writes accepts _ _ _ := (Writes.attrOf .exprString (.escape db.exprTerms)).seq <|
        (Writes.attrOf .index (.digits e.exprIndex.toNat)).seq <|
        (Writes.attrOf .width (.digits (uwExprTermCount db))).seq <| .putc '>'
      rw [renderAttrs, List.flatMap_cons, List.flatMap_cons, List.flatMap_singleton, List.append_assoc, List.append_assoc]
      exact hw
  have hwrites := Writes.change (g := fun db => db.withStack (db.stack.modifyHead fun top => { top with pending := false }))
    (f := fun c => c.withStack (c.stack.modifyHead fun top => { top with pending := false })) (fun _ => rfl)
    (core_modifyHead fun _ => rfl) hend
  refine writes hwrites fun c d hd hp => ?_
  obtain ⟨hc, he, hpend, hq⟩ := hp
  obtain ⟨es, hs⟩ := List.head?_eq_some_iff.mp he
  have hcp : c.Pending := ⟨_, _, hs, hpend⟩
  have hdue' : db.attrsDue e = c.attrsDue e := (congrArg (·.attrsDue e) hc :)
  rw [hdue'] at hdue ⊢
  obtain ⟨d', hshown, hm, ho⟩ := hd.attrs hcp hdue
  have hpending := hm.pending hcp
  refine ⟨d'.settle, ?_, ?_, ?_⟩
  case refine_1 => rw [Draft.shown_settle hpending, hshown, List.append_assoc]
  case refine_2 =>
    rw [hs] at hm
    have hset := Draws.settle (e := e.core) hpend hm
    simpa [UwDb.withStack, hs] using hset
  case refine_3 =>
    rw [Draft.outline_settle, ho]
    exact hq

omit hc in
theorem deferred (due : Bool) {f : UwElem → UwElem} {emit : Uw UcisWriterStatus} {A : UwDb → Prop}
    {shapes : UwDb → List UwShape} (hcore : ∀ e, ({ f e with haskids := true } : UwElem).core = f e.core)
    (ht : ∀ e, (f e).tag = e.tag) (hp : ∀ e, (f e).pending = e.pending)
    (he : ∀ Q, Spec accepts (fun c o => c.Settled ∧ A c ∧ Q .ok c (o.add (shapes c))) emit Q) :
    Spec accepts
      (fun c o => c.Settled ∧ (due → A (c.withStack (c.stack.modifyHead f))) ∧
        (¬due → ∀ e ∈ c.stack.head?, f e = e) ∧
        Q .ok (c.withStack (c.stack.modifyHead f))
          (o.add (if due then shapes (c.withStack (c.stack.modifyHead f)) else [])))
      (uwDeferred due f emit) Q := by
  refine pre (ite ((setTop hcore ht hp).seq (he Q)) (done UcisWriterStatus.ok)) fun c o h => ⟨fun hd => ?_, fun hd => ?_⟩
  case refine_1 =>
    refine ⟨settled_modifyHead hp h.left, h.right.left hd, ?_⟩
    simpa [hd] using h.right.right.right
  case refine_2 =>
    have hsame : c.withStack (c.stack.modifyHead f) = c := by
      cases hs : c.stack
      case nil       => rw [List.modifyHead_nil, ← hs]; rfl
      case cons e es =>
        rw [List.modifyHead_cons, h.right.right.left hd e (by rw [hs]; rfl), ← hs]
        rfl
    simpa [hd, hsame] using h.right.right.right

end

-- What follows a start tag depends on the innermost element.
theorem commitWith {putOff : UwElem → Uw UcisWriterStatus} {P : UwDb → Prop}
    (h : ∀ (top : UwElem) (Q : UcisWriterStatus → UwDb → UwOutline → Prop), top.pending = true → Spec accepts
      (fun c o => c.Settled ∧ (∃ es, c.stack = { top.core with pending := false } :: es ∧
          P (c.withStack (top.core :: es)) ∧ Q .ok (c.withStack (top.core.settle :: es)) (o.add (c.shapesDue top))))
      (putOff top) Q) :
    Committed accepts (uwElCommitWith putOff) P := by
  intro Q
  refine pre (read (W := fun db c o => db.core = c ∧ P c ∧ Q .ok c.settle (c.settled o)) fun db => ?_)
    fun c o h db hdb => ⟨hdb, h⟩
  cases hs : db.stack.head?
  case none     =>
    refine pre status fun c o h => ?_
    have hset : c.Settled := by
      intro e he
      rw [← h.left, UwDb.core, List.head?_map, hs] at he
      cases he
    have hq := h.right.right
    rwa [settle_of_settled hset, settled_of_settled hset] at hq
  case some top =>
    have htop {c : UwDb} (hc : db.core = c) : c.stack.head? = some top.core := by
      rw [← hc, UwDb.core, List.head?_map, hs]
      rfl
    dsimp only
    split
    case isTrue hp  =>
      refine pre status fun c o h => ?_
      have hset : c.Settled := by
        intro e he
        rw [htop h.left] at he
        cases he
        simpa [UwElem.core] using hp
      have hq := h.right.right
      rwa [settle_of_settled hset, settled_of_settled hset] at hq
    case isFalse hp =>
      have hp := not_not.mp hp
      refine pre (tryBufOk endStart (h top Q hp)) fun c o hc => ?_
      obtain ⟨hcore, hpc, hq⟩ := hc
      have htop := htop hcore
      obtain ⟨es, hstack⟩ := List.head?_eq_some_iff.mp htop
      have hsettle : c.settle = c.withStack (top.core.settle :: es) := by rw [UwDb.settle, hstack]; rfl
      have hsettled : c.settled o = (o.attrs (c.attrsDue top)).add (c.shapesDue top) := by
        rw [UwDb.settled, htop]
        exact if_pos hp
      rw [hsettle, hsettled] at hq
      refine ⟨hcore, htop, hp, fine_ok.mpr ⟨?_, es, by rw [hstack]; rfl, ?_, hq⟩⟩
      case refine_1 =>
        intro e he
        rw [hstack] at he
        cases he
        rfl
      case refine_2 =>
        rw [withStack_withStack, ← hstack]
        exact hpc

-- Where nothing is put off, nothing comes back.
theorem commitOnce : Committed accepts (uwElCommitWith fun _ => uwStatus) UwDb.Undeferred := by
  refine commitWith fun top Q hp => pre status fun c o h => ?_
  obtain ⟨_, es, hstack, hund, hq⟩ := h
  have hd : ¬top.Deferred := hund top.core rfl hp
  simp only [UwElem.Deferred, not_or, not_not, Bool.not_eq_true] at hd
  have he : c.withStack (top.core.settle :: es) = c := by
    have hs : top.core.settle = { top.core with pending := false } := by simp [UwElem.settle, UwElem.core, hp, hd]
    rw [hs, ← hstack]
    rfl
  rw [he] at hq
  simpa [UwDb.shapesDue, hd] using hq

theorem commitPutOff (hc : Committed accepts commit UwDb.Undeferred) :
    Committed accepts (uwElCommitWith (uwPutOff commit)) UwDb.Room := by
  refine commitWith fun top Q hp => ?_
  have hcgid' (Q : UcisWriterStatus → UwDb → UwOutline → Prop) : Spec accepts
      (fun c o => c.Settled ∧ c.stack.length + 2 ≤ uwMaxDepth ∧ Q .ok c (o.add [c.cgidDue top])) (uwEmitCgid commit top) Q :=
    pre (emitCgid hc) fun c o h =>
      ⟨undeferred_of_settled h.left, h.right.left, by rw [settle_of_settled h.left]; exact h.right.right⟩
  have hid' (Q : UcisWriterStatus → UwDb → UwOutline → Prop) : Spec accepts
      (fun c o => c.Settled ∧ True ∧
        Q .ok c (o.add [leaf .id (placeAttrs top.idFile.toNat top.idLine.toNat top.idInline.toNat)]))
      (uwEmitId top) Q := pre emitId fun c o h => ⟨h.left, h.right.right⟩
  have hoptions (Q) := deferred (top.needsOptions ≠ .none) (Q := Q) (f := fun top => { top with needsOptions := .none })
    (fun _ => rfl) (fun _ => rfl) (fun _ => rfl) fun _ => emitOptions hc top.needsOptions
  have hcgid (Q) := deferred top.needsCgid (Q := Q) (f := fun top => { top with needsCgid := false })
    (fun _ => rfl) (fun _ => rfl) (fun _ => rfl) hcgid'
  have hid (Q) := deferred top.needsId (Q := Q) (f := fun top => { top with needsId := false })
    (fun _ => rfl) (fun _ => rfl) (fun _ => rfl) hid'
  have hexpr (Q) := deferred top.needsExpr (Q := Q) (f := fun top => { top with needsExpr := false })
    (fun _ => rfl) (fun _ => rfl) (fun _ => rfl) fun _ => emitSubExprs hc
  refine pre ((hoptions _).tryBufOk <| (hcgid _).tryBufOk <| (hid _).tryBufOk <| (hexpr _).tryBufOk status)
    fun c o h => ?_
  obtain ⟨hs, es, hstack, hroom, hq⟩ := h
  have hroom : top.needsExpr ∨ top.needsOptions ≠ .none ∨ top.needsCgid → es.length + 1 + 2 ≤ uwMaxDepth :=
    hroom top.core rfl hp
  have hset (e : UwElem) (he : e.pending = false) : (c.withStack (e :: es)).Settled := by
    intro e' he'
    cases he'
    exact he
  simp [hstack, hp, UwElem.settle, UwElem.core, UwDb.shapesDue] at hq ⊢
  exact ⟨hs, fun h => Nat.lt_of_succ_lt (hroom (.inr (.inl h))), Eq.symm, hset _ rfl,
    fun h => hroom (.inr (.inr h)), hset _ rfl, hset _ rfl,
    fun h => Nat.lt_of_succ_lt (hroom (.inl h)), hq⟩

end Spec
