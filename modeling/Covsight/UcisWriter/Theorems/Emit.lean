import Covsight.UcisWriter.Theorems.Stack

-- What the bins, the statements and the resident tables add to the document.

open Xml Markup

variable {accepts : Accepts UInt8}

-- What is added is added to the innermost element, once its start tag has ended.
def Adds (accepts : Accepts UInt8) (m : Uw UcisWriterStatus) (levels : Nat) (shapes : List UwShape) : Prop :=
  ∀ Q, Spec accepts
    (fun c o => c.Room ∧ c.stack.length + levels ≤ uwMaxDepth ∧ Q .ok c.settle ((c.settled o).add shapes)) m Q

def UwElem.withId (file line inlineCount : UInt32) (e : UwElem) : UwElem :=
  { e with needsId := true, idFile := orOne file, idLine := orOne line, idInline := orOne inlineCount }

@[simp]
theorem textAttrs_none (attr : UwAttr) : textAttrs attr none = [] := rfl

def UwDb.withBins (c : UwDb) (cvpbins : UwCvptab) : UwDb :=
  { c with cvpbins }

section

variable (c : UwDb) (o : UwOutline) (bins : UwCvptab)

@[simp]
theorem withBins_stack : (c.withBins bins).stack = c.stack := rfl

@[simp]
theorem withBins_room : (c.withBins bins).Room ↔ c.Room := .rfl

@[simp]
theorem withBins_settle : (c.withBins bins).settle = c.settle.withBins bins := rfl

@[simp]
theorem withBins_settled : (c.withBins bins).settled o = c.settled o := rfl

end

section

variable (c : UwDb) (o : UwOutline) (e : UwElem)

theorem room_of_undeferred {c : UwDb} (h : c.Undeferred) : c.Room :=
  fun e he hp hd => absurd (.inr hd) (h e he hp)

@[simp]
theorem push_room (h : ¬e.Deferred) : (c.push e).Room :=
  room_of_undeferred (push_undeferred c e h)

theorem push_settled :
    (c.push e).settled o = if e.pending then (o.attrs (c.attrsDue e)).add (c.shapesDue e) else o := rfl

@[simp]
theorem push_settled_undeferred (h : ¬e.Deferred) : (c.push e).settled o = o :=
  settled_undeferred (push_undeferred c e h) o

theorem push_room_of (h : c.stack.length + 3 ≤ uwMaxDepth) : (c.push e).Room :=
  fun _ _ _ _ => h

@[simp]
theorem withStack_push (es : List UwElem) : (c.withStack es).push e = c.withStack (e :: es) := rfl

@[simp]
theorem push_modifyHead (f : UwElem → UwElem) :
    (c.push e).withStack ((c.push e).stack.modifyHead f) = c.push (f e) := rfl

end

section

variable (c : UwDb) (e : UwElem) (tag : UwTag) (type : UcisScopeType) (file line inlineCount : UInt32)

@[simp]
theorem withId_tag : (e.withId file line inlineCount).tag = e.tag := by
  simp [UwElem.withId]

@[simp]
theorem withId_type : (e.withId file line inlineCount).type = e.type := by
  simp [UwElem.withId]

@[simp]
theorem withId_pending : (e.withId file line inlineCount).pending = e.pending := by
  simp [UwElem.withId]

@[simp]
theorem withId_due : c.attrsDue (.withId file line inlineCount (.of tag type)) = [] ∧
    c.shapesDue (.withId file line inlineCount (.of tag type)) =
      [leaf .id (placeAttrs (orOne file).toNat (orOne line).toNat (orOne inlineCount).toNat)] :=
  ⟨rfl, rfl⟩

end

-- What a bin shows

def coverCount (data : UwCoverData) : Nat :=
  if data.has ucisIsVector then 0
  else if data.has ucisIs64Bit then data.data.toNat
  else data.data.toUInt32.toNat

def goalAttrs : Option UwCoverData → UwAttrs
  | none      => []
  | some data => if data.has ucisHasGoal ∧ data.goal > 0 then [(.coverageCountGoal, uwInteger data.goal)] else []

def objAttrs (aliased : Option (List UInt8)) (data : Option UwCoverData) : UwAttrs :=
  textAttrs .«alias» aliased ++
  match data with
  | none      => []
  | some data =>
    (if data.has ucisExcluded then textAttrs .excluded (some (lit "true")) else []) ++
    if data.has ucisHasWeight ∧ data.weight ≠ 1 then [(.weight, uwInteger data.weight)] else []

def contentsShape (name metric : Option (List UInt8)) (count : Nat) : UwShape :=
  leaf .contents (textAttrs .nameComponent name ++ textAttrs .typeComponent metric ++ [(.coverageCount, uwDigits count)])

def binShape (tag : UwTag) (name metric : Option (List UInt8)) (data : Option UwCoverData) : UwShape :=
  .elem tag (goalAttrs data) [contentsShape name metric (data.elim 0 coverCount)]

def idShape (file line : UInt32) : UwShape :=
  leaf .id (placeAttrs (orOne file).toNat (orOne line).toNat 1)

def statementShape (name : Option (List UInt8)) (data : UwCoverData) (srcinfo : Option UwSourceInfo) : UwShape :=
  .elem .statement (objAttrs name data) [idShape (uwFileid srcinfo) (uwLine srcinfo), binShape .bin none none data]

-- The place of an arm, or that of its statement
def armShape (top : UwElem) (name : Option (List UInt8)) (data : UwCoverData) (srcinfo : Option UwSourceInfo) :
    UwShape :=
  let file := uwFileid srcinfo
  let line := uwLine srcinfo
  let unplaced := file = 0 ∨ line = 0
  .elem .branch []
    [ idShape (if unplaced ∧ top.idFile ≠ 0 then top.idFile else file)
        (if unplaced ∧ top.idLine ≠ 0 then top.idLine else line),
      binShape .branchBin name none data ]

def toggleShape (name : Option (List UInt8)) (data : UwCoverData) : UwShape :=
  .elem .toggle (textAttrs .«from» (uwTransition name).fst ++ textAttrs .«to» (uwTransition name).snd)
    [binShape .bin name none data]

def namedAttrs (name : Option (List UInt8)) : UwAttrs :=
  textAttrs .name (some (name.getD (lit "(unnamed)"))) ++ textAttrs .key (some (name.getD (lit "(unnamed)")))

def cvgbinAttrs (name : Option (List UInt8)) (data : UwCoverData) : UwAttrs :=
  namedAttrs name ++ textAttrs .type (some (uwCvgbinType data.type))

def coverpointBinShape (index : UInt32) (name : Option (List UInt8)) (data : UwCoverData) : UwShape :=
  let range := (name.bind uwParseBinRange).getD (index.toNat, index.toNat)
  .elem .coverpointBin
    (cvgbinAttrs name data ++ if data.has ucisExcluded then textAttrs .«alias» (some (lit "excluded")) else [])
    [ .elem .range [(.«from», uwInteger range.fst), (.«to», uwInteger range.snd)]
        [contentsShape name none (coverCount data)] ]

-- The components of a name, as far as they are counted
def crossParts : (fuel : Nat) → List UInt8 → Nat
  | 0,        _ => 0
  | fuel + 1, p =>
    1 +
    match p.dropWhile (· ≠ comma) with
    | []     => 0
    | _ :: p => crossParts fuel p

def crossBinShape (name : Option (List UInt8)) (data : UwCoverData) : UwShape :=
  .elem .crossBin (cvgbinAttrs name data)
    (List.replicate (crossParts uwMaxCrossed (name.getD [])) (leaf .index []) ++ [contentsShape name none (coverCount data)])

def sourcesShape (files : List UwFile) : List UwShape :=
  if files = [] then [leaf .sourceFiles (textAttrs .fileName (some (lit "(unknown)")) ++ [(.id, uwDigits 1)])]
  else files.map fun f => leaf .sourceFiles [(.fileName, escaped f.name), (.id, uwDigits f.id)]

-- Some history nodes
def AreHistory (shapes : List UwShape) : Prop :=
  ∀ s ∈ shapes, ∃ attrs, s = leaf .historyNodes attrs

namespace Spec

variable {Q : UcisWriterStatus → UwDb → UwOutline → Prop}
variable {name : Option (List UInt8)} {data : UwCoverData}

theorem committed : Committed accepts uwElCommit UwDb.Room :=
  commitPutOff commitOnce

theorem elCommit : Spec accepts (fun c o => c.Room ∧ Q .ok c.settle (c.settled o)) uwElCommit Q :=
  committed Q

theorem elBegin {tag : UwTag} {type : UcisScopeType} :
    Spec accepts
      (fun c o =>
        (c.stack.length < uwMaxDepth → c.Room ∧ Q .ok (c.settle.push (.of tag type)) ((c.settled o).start tag)) ∧
        (uwMaxDepth ≤ c.stack.length → Q .errDepth (c.failed .errDepth) o))
      (uwElBegin tag type) Q :=
  beginWith committed

theorem elEnter {tag : UwTag} {type : UcisScopeType} :
    Spec accepts
      (fun c o => c.stack.length < uwMaxDepth ∧ c.Room ∧
        Q .ok (c.settle.push (.of tag type)) ((c.settled o).start tag))
      (uwElBegin tag type) Q :=
  pre elBegin fun _ _ h => ⟨fun _ => h.right, fun hl => absurd h.left (Nat.not_lt.mpr hl)⟩

theorem elLeave :
    Spec accepts (fun c o => (∃ e ∈ c.stack.head?, ¬e.Deferred) ∧ Q .ok c.leave (c.left o)) uwElEnd Q :=
  endHere committed fun _ => room_of_undeferred

theorem elEnd :
    Spec accepts
      (fun c o =>
        (c.stack = [] → Q .errUnbalanced (c.failed .errUnbalanced) o) ∧
        (∀ e ∈ c.stack.head?, (e.needsExpr → e.needsId) ∧ c.Room ∧ Q .ok c.settle.leave (c.settle.left (c.settled o))))
      uwElEnd Q :=
  endWith committed

theorem elSetId {file line inlineCount : UInt32} {warnOnClamp : Bool} {Q : PUnit → UwDb → UwOutline → Prop} :
    Spec accepts
      (fun c o => Q ⟨⟩ (c.withStack (c.stack.modifyHead (UwElem.withId file line inlineCount))) o)
      (uwElSetId file line inlineCount warnOnClamp) Q := by
  have hset : Spec accepts _ (uwSetTop fun top =>
      { top with
        needsId  := true
        idFile   := if file = 0 then 1 else file
        idLine   := if line = 0 then 1 else line
        idInline := if inlineCount = 0 then 1 else inlineCount }) Q :=
    setTop (g := UwElem.withId file line inlineCount) (fun _ => rfl) (fun _ => rfl) fun _ => rfl
  refine pre (onTop (done PUnit.unit) fun el => when warn hset) fun c o h => ⟨fun hs => ?_, fun el _ => ⟨fun _ => h, fun _ => h⟩⟩
  rw [hs] at h
  rwa [List.modifyHead_nil, ← hs] at h

section

variable {Q : PUnit → UwDb → UwOutline → Prop}

theorem goalAttr {data : Option UwCoverData} :
    Spec accepts (fun c o => c.Pending ∧ Q ⟨⟩ c (o.attrs (goalAttrs data))) (uwGoalAttr data) Q := by
  cases data
  case none      => exact pre (done _) fun c o h => by simpa [goalAttrs] using h.right
  case some data =>
    refine pre (ite attrI64.discard (done _)) fun c o h => ⟨fun hd => ⟨h.left, ?_⟩, fun hd => ?_⟩
    case refine_1 => simpa [goalAttrs, hd] using h.right
    case refine_2 => simpa [goalAttrs, hd] using h.right

theorem countAttr {data : Option UwCoverData} :
    Spec accepts (fun c o => c.Pending ∧ Q ⟨⟩ c (o.attrs [(.coverageCount, uwDigits (data.elim 0 coverCount))]))
      (uwCountAttr data) Q := by
  cases data
  case none      => exact attrU64.discard
  case some data =>
    refine pre (bind (Q := fun count c o => c.Pending ∧ Q ⟨⟩ c (o.attrs [(.coverageCount, uwDigits count)])) ?_
      fun count => attrU64.discard) fun c o h => h
    refine pre (ite (warn.seq (done 0)) (ite (done data.data.toNat) (done data.data.toUInt32.toNat))) fun c o h => ?_
    have hq := h.right
    refine ⟨fun hd => ⟨h.left, ?_⟩, fun hd => ⟨fun hb => ⟨h.left, ?_⟩, fun hb => ⟨h.left, ?_⟩⟩⟩
    all_goals simpa [coverCount, hd, *] using hq

end

theorem emitObjAttrs {aliased : Option (List UInt8)} {data : Option UwCoverData} :
    Spec accepts (fun c o => c.Pending ∧ Q .ok c (o.attrs (objAttrs aliased data))) (uwEmitObjAttrs aliased data) Q := by
  cases data
  case none      => exact pre (textAttr.discard.seq status) fun c o h => ⟨fun _ => h.left, by simpa [objAttrs] using h.right⟩
  case some data =>
    refine pre (textAttr.discard.seq <| when textAttr.discard <| when attrI64.discard status) fun c o h => ⟨fun _ => h.left, ?_⟩
    have hq := h.right
    simp only [objAttrs] at hq
    refine ⟨fun hx => ⟨fun _ => h.left, fun hw => ⟨h.left, ?_⟩, fun hw => ?_⟩, fun hx => ⟨fun hw => ⟨h.left, ?_⟩, fun hw => ?_⟩⟩
    all_goals simpa [hx, hw] using hq

theorem emitBin {tag : UwTag} {data : Option UwCoverData} :
    Adds accepts (uwEmitBin tag name data) 2 [binShape tag name none data] := by
  intro Q
  refine pre (elEnter.tryBufOk <| goalAttr.seq <| elEnter.tryBufOk <| textAttr.discard.seq <| countAttr.seq <|
    elLeave.tryBufOk elLeave) fun c o h => ?_
  have hl : c.stack.length < uwMaxDepth ∧ c.stack.length + 1 < uwMaxDepth := by omega
  simpa [hl, h.left, binShape, contentsShape, leaf] using h.right.right

theorem addStatement {srcinfo : Option UwSourceInfo} :
    Adds accepts
      (uwTry (uwElBegin .statement 0) do
        Functor.discard <| uwEmitObjAttrs name data
        uwElSetId (uwFileid srcinfo) (uwLine srcinfo) 1 true
        uwTry (uwEmitBin .bin none data) uwElEnd) 3 [statementShape name data srcinfo] := by
  intro Q
  refine pre (tryOk elEnter <| emitObjAttrs.discard.seq <| elSetId.seq <| tryOk (emitBin _) elLeave) fun c o h => ?_
  have hl : c.stack.length < uwMaxDepth ∧ c.stack.length + 1 + 2 ≤ uwMaxDepth := by omega
  have hr := push_room_of c.settle (.withId (uwFileid srcinfo) (uwLine srcinfo) 1 (.of .statement 0)) (by simpa using hl.right)
  simpa [hl, hr, h.left, push_settled, statementShape, idShape] using h.right.right

theorem addArm {top : UwElem} {srcinfo : Option UwSourceInfo} :
    Adds accepts
      (uwTry (uwElBegin .branch 0) do
        let fileid := uwFileid srcinfo
        let line := uwLine srcinfo
        if fileid = 0 ∨ line = 0 then
          uwElSetId (if top.idFile ≠ 0 then top.idFile else fileid) (if top.idLine ≠ 0 then top.idLine else line) 1 false
        else
          uwElSetId fileid line 1 false
        uwTry (uwEmitBin .branchBin name data) uwElEnd) 3 [armShape top name data srcinfo] := by
  intro Q
  refine pre (tryOk elEnter <| ite (elSetId.seq <| tryOk (emitBin _) elLeave) (elSetId.seq <| tryOk (emitBin _) elLeave))
    fun c o h => ?_
  have hl : c.stack.length < uwMaxDepth ∧ c.stack.length + 1 + 2 ≤ uwMaxDepth := by omega
  have hr (file line : UInt32) : (c.settle.push (.withId file line 1 (.of .branch 0))).Room :=
    push_room_of _ _ (by simpa using hl.right)
  have hq := h.right.right
  simp only [armShape] at hq
  refine ⟨hl.left, h.left, fine_ok.mpr ⟨fun hu => ?_, fun hu => ?_⟩⟩
  case refine_1 => simpa [hl, hr, hu, push_settled, idShape] using hq
  case refine_2 => simpa [hl, hr, hu, push_settled, idShape] using hq

theorem addToggle :
    Adds accepts (uwEmitToggleBin.emitToggle name data) 3 [toggleShape name data] := by
  intro Q
  refine pre (tryOk elEnter <| textAttr.discard.seq <| textAttr.discard.seq <| tryOk (emitBin _) elLeave) fun c o h => ?_
  have hl : c.stack.length < uwMaxDepth ∧ c.stack.length + 1 + 2 ≤ uwMaxDepth := by omega
  simpa [hl, h.left, toggleShape] using h.right.right

theorem addIndex {index : Nat} :
    Adds accepts
      (uwTry (uwElBegin .index 0) do
        Functor.discard uwElCommit
        Functor.discard <| uwBufU64 index
        uwElEnd) 1 [leaf .index []] := by
  intro Q
  have htext {Q : UcisWriterStatus → UwDb → UwOutline → Prop} :
      Spec accepts (fun c o => c.Settled ∧ c.Tagged ∧ Q .ok c o) (uwBufU64 index) Q :=
    content (.digits index) (legible_uwDigits index).plain
  refine pre (tryOk elEnter <| elCommit.discard.seq <| htext.discard.seq elLeave) fun c o h => ?_
  have hl : c.stack.length < uwMaxDepth := by omega
  have hs := settle_settled (c.settle.push (.of .index 0))
  rw [settle_push] at hs
  simpa [hl, hs, h.left, leaf] using h.right.right

theorem nameAttrs {Q : PUnit → UwDb → UwOutline → Prop} :
    Spec accepts (fun c o => c.Pending ∧ Q ⟨⟩ c (o.attrs (namedAttrs name))) (uwNameAttrs name) Q :=
  pre (textAttr.discard.seq textAttr.discard) fun c o h => by simpa [namedAttrs, h.left] using h.right

theorem binAttrs {Q : PUnit → UwDb → UwOutline → Prop} :
    Spec accepts (fun c o => c.Pending ∧ Q ⟨⟩ c (o.attrs (cvgbinAttrs name data))) (uwBinAttrs name data) Q :=
  pre (nameAttrs.seq textAttr.discard) fun c o h => by simpa [cvgbinAttrs, h.left] using h.right

theorem contents {rest : Uw UcisWriterStatus}
    {Q₀ : UwDb → UwOutline → Prop} (hr : Spec accepts Q₀ rest Q) :
    Spec accepts
      (fun c o => c.stack.length < uwMaxDepth ∧ c.Room ∧
        Q₀ c.settle ((c.settled o).add [contentsShape name none (coverCount data)]))
      (uwContents name data rest) Q :=
  pre (tryOk elEnter <| textAttr.discard.seq <| countAttr.seq <| tryOk elLeave hr) fun c o h => by
    simpa [contentsShape, leaf] using h

theorem emitCoverpointBin :
    Spec accepts
      (fun c o => c.Room ∧ c.stack.length + 3 ≤ uwMaxDepth ∧
        ∀ index bins, Q .ok (c.settle.withBins bins) ((c.settled o).add [coverpointBinShape index name data]))
      (uwEmitCoverpointBin name data) Q := by
  have hchange (index : UInt32) {Q : PUnit → UwDb → UwOutline → Prop} : Spec accepts _ _ Q := change
    (f := fun db =>
      let t := db.cvpbins.put (db.cvpbins.cvpCount - 1) (name.getD []) index
      { db with cvpbins := { t with binCount := t.binCount + 1 } })
    (g := fun db =>
      let t := db.cvpbins.put (db.cvpbins.cvpCount - 1) (name.getD []) index
      db.withBins { t with binCount := t.binCount + 1 }) (fun _ => rfl) (fun _ => rfl) (fun _ => rfl)
  refine pre (read fun db => (hchange _).seq <| tryOk elEnter <|
    binAttrs.seq <| when textAttr.discard <| when warn <| tryOk elEnter <| attrI64.discard.seq <|
    attrI64.discard.seq <| contents <| tryOk elLeave elLeave) fun c o h db hdb => ?_
  have hl : c.stack.length < uwMaxDepth ∧ c.stack.length + 1 < uwMaxDepth ∧ c.stack.length + 1 + 1 < uwMaxDepth := by omega
  have hq := h.right.right db.cvpbins.binCount
  simp only [coverpointBinShape] at hq
  generalize name.bind uwParseBinRange = parsed at hq ⊢
  by_cases hx : data.has ucisExcluded
  case pos => cases parsed <;> simpa [hl, h.left, hx] using hq _
  case neg => cases parsed <;> simpa [hl, h.left, hx] using hq _

theorem crossIndices_succ {fuel : Nat} (i : Nat) (p : List UInt8)
    (hi : ∀ p, Spec accepts
      (fun c o => c.Settled ∧ c.stack.length < uwMaxDepth ∧
        Q .ok c (o.add (List.replicate (crossParts fuel p) (leaf .index []))))
      (uwEmitCrossIndices fuel (i + 1) p) Q) :
    Spec accepts
      (fun c o => c.Undeferred ∧ c.stack.length < uwMaxDepth ∧
        Q .ok c.settle (o.add (List.replicate (crossParts (fuel + 1) p) (leaf .index []))))
      (uwEmitCrossIndices (fuel + 1) i p) Q := by
  have htext {v : Int} {Q : UcisWriterStatus → UwDb → UwOutline → Prop} :
      Spec accepts (fun c o => c.Settled ∧ c.Tagged ∧ Q .ok c o) (uwBufI64 v) Q :=
    content (.integer v) (legible_uwInteger v).plain
  have hrest (rest : List UInt8) : Spec accepts
      (fun c o => c.Settled ∧ c.stack.length < uwMaxDepth ∧
        Q .ok c (o.add (List.replicate (match rest with | [] => 0 | _ :: p => crossParts fuel p) (leaf .index []))))
      (match rest with | [] => uwStatus | _ :: p => uwEmitCrossIndices fuel (i + 1) p) Q := by
    cases rest
    case nil       => exact pre status fun c o h => by simpa using h.right.right
    case cons b p  => exact hi p
  refine pre (read fun db => when warn <| tryOk elEnter <| tryOk elCommit <| htext.discard.seq <|
    tryOk elLeave <| hrest _) fun c o h db hdb => ?_
  have hs := settle_settled (c.settle.push (.of .index 0))
  rw [settle_push] at hs
  have hq := h.right.right
  rw [crossParts, List.replicate_add, List.replicate_one] at hq
  have hset := settle_settled c
  simpa [hs, hset, h.right.left, room_of_undeferred h.left, settled_undeferred h.left, leaf] using hq

theorem emitCrossIndices {fuel : Nat} (i : Nat) (p : List UInt8) :
    Spec accepts
      (fun c o => c.Settled ∧ c.stack.length < uwMaxDepth ∧
        Q .ok c (o.add (List.replicate (crossParts fuel p) (leaf .index []))))
      (uwEmitCrossIndices fuel i p) Q := by
  induction fuel generalizing i p
  case zero         => exact pre status fun c o h => by simpa [crossParts] using h.right.right
  case succ fuel hi =>
    refine pre (crossIndices_succ i p (hi (i + 1))) fun c o h => ⟨undeferred_of_settled h.left, h.right.left, ?_⟩
    rw [settle_of_settled h.left]
    exact h.right.right

theorem emitCrossBin :
    Adds accepts (uwEmitCrossBin name data) 2 [crossBinShape name data] := by
  intro Q
  refine pre (tryOk elEnter <| binAttrs.seq <| tryOk (crossIndices_succ 0 _ fun p => emitCrossIndices 1 p) <| contents elLeave)
    fun c o h => ?_
  have hl : c.stack.length < uwMaxDepth ∧ c.stack.length + 1 < uwMaxDepth := by omega
  simpa [hl, h.left, crossBinShape, uwMaxCrossed] using h.right.right

-- The resident tables

-- An attribute of which only the start can fail
theorem tryBufSeq {m n n' rest : Uw UcisWriterStatus} {P Q₀ : UwDb → UwOutline → Prop}
    (hm : ∀ db, (Hoare.run m db).fst = (Hoare.run m db).snd.buf.status)
    (h : Spec accepts P (do Functor.discard m; Functor.discard n; n') fun _ => Q₀) (hr : Spec accepts Q₀ rest Q) :
    Spec accepts P (uwTryBuf m (do Functor.discard n; Functor.discard n'; rest)) Q := by
  intro db hdb
  have hn := h db hdb
  rw [Writes.run_tryBuf, hm]
  split
  case isTrue     => exact hr _ hn
  case isFalse hf => exact fun hok => absurd hok hf

-- Attributes of which nothing but their element is told
def AnyAttrs (P : UwDb → UwOutline → Prop) (c : UwDb) (o : UwOutline) : Prop :=
  c.Pending ∧ ∀ attrs, P c (o.attrs attrs)

section

variable {P : UwDb → UwOutline → Prop} {attr : UwAttr}

theorem AnyAttrs.more {c : UwDb} {o : UwOutline} (h : AnyAttrs P c o) (attrs : UwAttrs) : AnyAttrs P c (o.attrs attrs) :=
  ⟨h.left, fun attrs' => by
    rw [Outline.attrs_attrs]
    exact h.right _⟩

theorem anyAttr {value : Option (List UInt8)} :
    Spec accepts (AnyAttrs P) (Functor.discard <| uwTextAttr attr value) fun _ => AnyAttrs P :=
  pre textAttr.discard fun _ _ h => ⟨fun _ => h.left, h.more _⟩

theorem anyU64 {v : Nat} : Spec accepts (AnyAttrs P) (Functor.discard <| uwTextAttrU64 attr v) fun _ => AnyAttrs P :=
  pre attrU64.discard fun _ _ h => ⟨h.left, h.more _⟩

theorem anyDouble {v : UwDouble} :
    Spec accepts (AnyAttrs P) (Functor.discard <| uwTextAttrDouble attr v) fun _ => AnyAttrs P :=
  pre attrDouble.discard fun _ _ h => ⟨h.left, h.more _⟩

-- It makes no difference which way is taken.
theorem either {α : Type} {Q : α → UwDb → UwOutline → Prop} {b : Prop} [Decidable b] {m m' : Uw α}
    (hm : Spec accepts P m Q) (hm' : Spec accepts P m' Q) : Spec accepts P (if b then m else m') Q :=
  pre (ite hm hm') fun _ _ h => ⟨fun _ => h, fun _ => h⟩

theorem anyNothing : Spec accepts (AnyAttrs P) (return ⟨⟩) fun (_ : PUnit) => AnyAttrs P :=
  done (Q := fun _ => AnyAttrs P) _

theorem histParent {parent : Option Nat} : Spec accepts (AnyAttrs P) (uwHistParent parent) fun _ => AnyAttrs P := by
  cases parent
  case none        => exact anyNothing
  case some parent => exact anyU64

theorem histTestdata {h : UwHist} : Spec accepts (AnyAttrs P) (uwHistTestdata h) fun _ => AnyAttrs P :=
  either (anyDouble.seq <| anyAttr.seq <| anyAttr.seq <| anyDouble.seq <| anyAttr.seq <| anyAttr.seq <| anyAttr.seq <|
    either anyAttr anyNothing) anyNothing

theorem histCost {h : UwHist} : Spec accepts (AnyAttrs P) (uwHistCost h) fun _ => AnyAttrs P :=
  either anyDouble anyNothing

theorem histDate {date writtenTime : Option (List UInt8)} :
    Spec accepts (AnyAttrs P) (uwHistDate date writtenTime) fun _ => AnyAttrs P :=
  either (warn.seq anyAttr) anyAttr

end

theorem emitSourceFilesFrom (files : List UwFile) :
    Spec accepts
      (fun c o => c.Undeferred ∧ c.stack.length < uwMaxDepth ∧ (files = [] → c.Settled) ∧
        Q .ok c.settle (o.add (files.map fun f => leaf .sourceFiles [(.fileName, escaped f.name), (.id, uwDigits f.id)])))
      (uwEmitSourceFilesFrom files) Q := by
  induction files
  case nil => 
    refine pre status fun c o h => ?_
    have hs := h.right.right.left rfl
    simpa [settle_of_settled hs] using h.right.right.right
  case cons f files hi =>
    have hattr {Q : UcisWriterStatus → UwDb → UwOutline → Prop} : Spec accepts
        (fun c o => c.Pending ∧ Q .ok c (o.attrs [(.fileName, escaped f.name)]))
        (do
          Functor.discard <| uwBufWrite (lit " fileName=\"")
          Functor.discard <| uwTextEscapeCstr f.name
          uwBufPutc '"') Q := by
      have hw : Writes accepts _ _ _ := (Writes.write (lit " fileName=\"")).seq <| (Writes.escape f.name).seq <| .putc '"'
      have he : renderAttr (UwAttr.fileName, escaped f.name) =
          lit " fileName=\"" ++ ((uwTextEscape f.name 0).out ++ ['"'.toUInt8]) := by
        simp [renderAttr, escaped, lit, ascii, spell, UwAttr.spelled, Markup.space, Markup.quote, Markup.equals]
      rw [← he] at hw
      exact attr hw (legible_escape f.name 0)
    refine pre (elEnter.tryBufOk <| tryBufSeq (fun _ => rfl) hattr <| attrU64.discard.seq <| elLeave.tryBufOk hi)
      fun c o h => ?_
    have hs := settle_settled c
    simpa [h.right.left, room_of_undeferred h.left, settled_undeferred h.left, undeferred_of_settled hs,
      settle_of_settled hs, hs, leaf] using h.right.right.right

theorem emitSourceFiles :
    Spec accepts
      (fun c o => c.Undeferred ∧ c.stack.length < uwMaxDepth ∧ Q .ok c.settle (o.add (sourcesShape c.files.byid)))
      uwEmitSourceFiles Q := by
  refine pre (read fun db => ite
    (warn.seq <| elEnter.tryBufOk <| textAttr.discard.seq <| attrU64.discard.seq elLeave)
    (emitSourceFilesFrom _)) fun c o h db hdb => ?_
  have hf : db.files.byid = c.files.byid := (congrArg (·.files.byid) hdb :)
  have hq := h.right.right
  rw [hf]
  refine ⟨fun hn => ?_, fun hn => ?_⟩
  case refine_1 =>
    rw [sourcesShape, if_pos hn] at hq
    simpa [h.right.left, room_of_undeferred h.left, settled_undeferred h.left, leaf] using hq
  case refine_2 =>
    rw [sourcesShape, if_neg hn] at hq
    exact ⟨h.left, h.right.left, fun he => absurd he hn, hq⟩

theorem emitOneHistory {h : UwHist} :
    Spec accepts
      (fun c o => c.Undeferred ∧ c.stack.length < uwMaxDepth ∧
        ∀ attrs, Q .ok c.settle (o.add [leaf .historyNodes attrs]))
      (uwEmitOneHistory h) Q := by
  have hend : Spec accepts (AnyAttrs fun c o => (∃ e ∈ c.stack.head?, ¬e.Deferred) ∧ Q .ok c.leave (c.left o)) uwElEnd Q :=
    pre elLeave fun c o h => by simpa using h.right []
  refine pre (elEnter.tryBufOk <| read (W := fun _ => AnyAttrs fun c o =>
    (∃ e ∈ c.stack.head?, ¬e.Deferred) ∧ Q .ok c.leave (c.left o)) fun db => anyU64.seq <| histParent.seq <|
    anyAttr.seq <| anyAttr.seq <| anyAttr.seq <| anyAttr.seq <| histTestdata.seq <| histDate.seq <| anyAttr.seq <|
    histCost.seq <| anyAttr.seq <| anyAttr.seq <| anyAttr.seq <| anyAttr.seq <| anyAttr.seq <| anyAttr.seq hend)
    fun c o hc => ?_
  refine ⟨hc.right.left, room_of_undeferred hc.left, fine_ok.mpr fun db _ => ⟨push_pending _ _ _, fun attrs => ?_⟩⟩
  simpa [settled_undeferred hc.left, leaf] using hc.right.right attrs

theorem emitHistoryNodesFrom (hists : List UwHist) :
    Spec accepts
      (fun c o => c.Settled ∧ c.stack.length < uwMaxDepth ∧
        ∀ shapes, shapes.length = hists.length → AreHistory shapes → Q .ok c (o.add shapes))
      (uwEmitHistoryNodesFrom hists) Q := by
  induction hists
  case nil => exact pre status fun c o h => by simpa using h.right.right [] rfl (by simp [AreHistory])
  case cons hist hists hi =>
    refine pre (emitOneHistory.tryBufOk hi) fun c o h =>
      ⟨undeferred_of_settled h.left, h.right.left, fun attrs => fine_ok.mpr ?_⟩
    rw [settle_of_settled h.left]
    refine ⟨h.left, h.right.left, fun shapes hl hh => ?_⟩
    rw [Outline.add_add]
    exact h.right.right _ (by simp [hl]) (List.forall_mem_cons.mpr ⟨⟨attrs, rfl⟩, hh⟩)

theorem emitHistoryNodes :
    Spec accepts
      (fun c o => c.Settled ∧ c.stack.length < uwMaxDepth ∧ ∀ shapes ≠ [], AreHistory shapes → Q .ok c (o.add shapes))
      uwEmitHistoryNodes Q := by
  refine pre (read fun db => ite (warn.seq emitOneHistory) (emitHistoryNodesFrom _)) fun c o h db _ =>
    ⟨fun _ => ⟨undeferred_of_settled h.left, h.right.left, fun attrs => ?_⟩,
      fun hn => ⟨h.left, h.right.left, fun shapes hl => h.right.right shapes ?_⟩⟩
  case refine_1 =>
    rw [settle_of_settled h.left]
    exact h.right.right _ (List.cons_ne_nil _ _) fun s hs => ⟨attrs, List.mem_singleton.mp hs⟩
  case refine_2 =>
    rintro rfl
    exact hn (List.isEmpty_iff_length_eq_zero.mpr hl.symm)

end Spec

-- The tables are written, and the instances follow.
def UwDb.body (c : UwDb) : UwDb :=
  { c with phase := .body, files := { c.files with isSealed := true } }

def AreTables (shapes : List UwShape) : Prop :=
  ∃ sources hists, shapes = sources ++ hists ∧ sources ≠ [] ∧ (∀ s ∈ sources, ∃ attrs, s = leaf .sourceFiles attrs) ∧
    hists ≠ [] ∧ AreHistory hists

theorem sourcesShape_sources (files : List UwFile) :
    sourcesShape files ≠ [] ∧ ∀ s ∈ sourcesShape files, ∃ attrs, s = leaf .sourceFiles attrs := by
  rw [sourcesShape]
  split
  case isTrue     => exact ⟨List.cons_ne_nil _ _, fun s hs => ⟨_, List.mem_singleton.mp hs⟩⟩
  case isFalse hn =>
    refine ⟨fun he => hn (List.map_eq_nil_iff.mp he), fun s hs => ?_⟩
    obtain ⟨f, _, rfl⟩ := List.mem_map.mp hs
    exact ⟨_, rfl⟩

namespace Spec

variable {Q : UcisWriterStatus → UwDb → UwOutline → Prop}

theorem tablesFlush :
    Spec accepts
      (fun c o => (c.phase ≠ .tables → Q .ok c o) ∧
        (c.phase = .tables → c.Undeferred ∧ c.stack.length < uwMaxDepth ∧
          ∀ shapes, AreTables shapes → Q .ok c.body.settle (o.add shapes)))
      uwTablesFlush Q := by
  have hbody {Q : PUnit → UwDb → UwOutline → Prop} : Spec accepts _ _ Q := change
    (f := fun db => { db with phase := .body, files := { db.files with isSealed := true } }) (g := UwDb.body)
    (fun _ => rfl) (fun _ => rfl) (fun _ => rfl)
  refine pre (read fun db => ite status (hbody.seq <| emitSourceFiles.tryBufOk emitHistoryNodes)) fun c o h db hdb => ?_
  have hp : db.phase = c.phase := (congrArg UwDb.phase hdb :)
  rw [hp]
  refine ⟨h.left, fun hn => ?_⟩
  obtain ⟨hu, hl, hq⟩ := h.right (not_not.mp hn)
  refine ⟨hu, hl, fine_ok.mpr ⟨settle_settled _, ?_, fun shapes hne hh => ?_⟩⟩
  case refine_1 => exact (settle_length (c := c.body)).symm ▸ hl
  case refine_2 =>
    rw [Outline.add_add]
    have hs := sourcesShape_sources c.body.files.byid
    exact hq _ ⟨_, shapes, rfl, hs.left, hs.right, hne, hh⟩

-- The attributes of the root are written as long as they can be.
theorem rootSeal :
    Spec accepts
      (fun c o => (c.stack.getLast?.any (·.pending) → c.Pending ∧ ∀ attrs, Q .ok c (o.attrs attrs)) ∧
        (¬c.stack.getLast?.any (·.pending) → Q .ok c o))
      uwRootSeal Q := by
  have hend : Spec accepts (AnyAttrs (Q .ok)) uwStatus Q := pre status fun c o h => by simpa using h.right []
  refine pre (read fun db => ite (anyAttr.seq <| anyAttr.seq <| anyAttr.seq hend) status) fun c o h db hdb => ?_
  have hl : db.stack.getLast?.any (·.pending) = c.stack.getLast?.any (·.pending) := by
    rw [← hdb, UwDb.core, List.getLast?_map, Option.any_map]
    rfl
  rw [hl]
  exact h

-- An instance that only has a place. Nothing is written where the elements are too many already.
theorem placeholder {P : UwDb → UwOutline → Prop} :
    Spec accepts
      (fun c o => c.Room ∧ (uwMaxDepth ≤ c.stack.length → P (c.failed .errDepth) o) ∧
        (c.stack.length < uwMaxDepth → ∀ attrs place,
          P (c.settle.forget ucisInstance) ((c.settled o).add [.elem .instanceCoverages attrs [leaf .id place]])))
      uwPlaceholderInstance fun _ => P := by
  have hrest : Spec accepts _
      (do
        Functor.discard <| uwTextAttr .name (some (lit "(none)"))
        Functor.discard <| uwTextAttr .key (some (lit "(none)"))
        uwElSetId 1 1 1 false
        uwElEnd) fun _ => P :=
    textAttr.discard.seq <| textAttr.discard.seq <| elSetId.seq <| elEnd (Q := fun _ => P)
  refine pre (warn.seq <| elBegin.tryBufElse hrest) fun c o h => ?_
  obtain ⟨hroom, hdeep, hq⟩ := h
  refine ⟨fun hl => ⟨hroom, fun _ => ?_, fun hne => absurd rfl hne⟩, fun hl => ⟨(fun hrc => by cases hrc), fun _ => hdeep hl⟩⟩
  have hr : (c.settle.push (.withId 1 1 1 (.of .instanceCoverages ucisInstance))).Room := by
    rintro e ⟨⟩ _ hd
    simp [UwElem.withId, UwElem.of] at hd
  have hn : (UwElem.withId 1 1 1 (.of .instanceCoverages ucisInstance)).needsExpr = false := rfl
  simpa [hr, hn, push_settled] using hq hl _ _

end Spec
